/-
**The data plane: how the switch executes the program of a packet.**

A packet carries its program as a stack of instructions behind four data words.  The ingress
pipeline has ten slots; slot `k` looks the instruction at depth `k` of the stack up in its table,
runs the action and removes the instruction.  The deparser writes out the instructions that are left,
the egress parser reads them again, and the ten egress slots do the same.  At the end of the egress
pipeline a packet whose program has not completed is mirrored to the egress pipeline, as often as
its quota allows.  The registers travel with the packet, the memory stays in the stages.

The model is about packets that carry a program: those that request or fetch an allocation have none.
What the pipelines read from outside (clocks, queues, counters, the hash units, the routes) is a
parameter.

Main definitions:

* `PacketState` — the fields of a packet that actions read and write, with the memory;
* `Switch.lookup` — the entry of an instruction table that a packet matches;
* `exec`, `slot` — the effect of an action, and of a slot;
* `runSlots` — a pipeline, with the list of its lookups;
* `ingressPass`, `egressPasses`, `process` — a packet from its arrival to its departure.

Main results:

* `Switch.lookup_eq_some`, `Switch.exists_of_lookup` — what a table selects;
* `getElem?_runSlots`, `runSlots_chain` — the lookups of a pipeline;
* `Switch.Equipped` — the tables have the entries common to all functions, and others only for
  memory accesses and address translations; `Switch.lookup_common` — what they select for a common
  instruction.
-/

import ActiveRmt.Mutation

set_option relaxedAutoImplicit false
set_option autoImplicit false

namespace ActiveRmt

/-! ### The state of a packet -/

/-- A word of a register, of the data or of the memory. -/
abbrev Word := BitVec 32

instance instNeZeroDataWords : NeZero 4 := ⟨by decide⟩

/-- **The state that the actions work on**: the metadata and the headers of one packet, and the
memory of the switch. -/
structure PacketState where
  /-- The packet is to be duplicated. -/
  duplicate : Bool
  /-- The program has completed. -/
  complete : Bool
  /-- The program is disabled, after a jump. -/
  disabled : Bool
  /-- `hash_data_0`, …, `hash_data_4`. -/
  hashData : Fin 5 → Word
  /-- The address register. -/
  mar : Word
  /-- The first buffer register. -/
  mbr : Word
  /-- The second buffer register. -/
  mbr2 : Word
  /-- The number of packets of the function so far. -/
  igPktcount : Word
  /-- The time of arrival. -/
  igTimestamp : Word
  /-- How long the packet was queued, known in the egress pipeline only. -/
  qdelay : Word
  /-- The depth of its queue, known in the egress pipeline only. -/
  enqQdepth : Word
  /-- The function is to be told that it is remapped. -/
  remap : Bool
  /-- The port of arrival. -/
  ingressPort : BitVec 9
  /-- The function. -/
  fid : BitVec 16
  /-- The mark of a program that has terminated. -/
  flagDone : Bool
  /-- The mark of a function that is remapped. -/
  flagRemapped : Bool
  /-- The data words. -/
  data : Fin 4 → Word
  /-- The source address. -/
  srcAddr : Word
  /-- The destination address. -/
  dstAddr : Word
  /-- The source port of the transport header. -/
  srcPort : BitVec 16
  /-- The destination port of the transport header. -/
  dstPort : BitVec 16
  /-- The port of departure. -/
  egressPort : BitVec 9
  /-- The egress pipeline has changed the port of departure. -/
  portChange : Bool
  /-- The packet is to be dropped. -/
  dropped : Bool
  /-- The packet skips the egress pipeline. -/
  bypassEgress : Bool
  /-- The memory of each stage. -/
  heap : Stage → Word → Word

/-- What the pipelines read from outside. -/
structure Environment where
  /-- The hash unit of each stage. -/
  crc16 : Stage → (Fin 5 → Word) → BitVec 16
  /-- The clock of the ingress pipeline. -/
  igTimestamp : Word
  /-- The clock of the egress pipeline, by pass. -/
  egTimestamp : ℕ → Word
  /-- The queue depths, by pass. -/
  enqQdepth : ℕ → Word
  /-- The packet counter of a function. -/
  pktCount : BitVec 16 → Word
  /-- `ipv4_host`: a port for a destination, or the order to drop. -/
  ipv4Host : Word → Option (Option (BitVec 9))
  /-- The bytes behind the program as the egress parser finds them, in pairs. -/
  trailer : List ActiveInstr

/-- The label bit of an instruction. -/
def ActiveInstr.goto (instr : ActiveInstr) : Bool := instr.flags.getLsbD 0

/-! ### Table lookup -/

/-- What a packet presents to an instruction table. -/
structure LookupKey where
  /-- The function. -/
  fid : ℕ
  /-- The opcode. -/
  opcode : ℕ
  /-- Whether the program has completed. -/
  complete : Bool
  /-- Whether the program is disabled. -/
  disabled : Bool
  /-- The buffer register. -/
  mbr : Word
  /-- The address register. -/
  mar : Word

/-- The entry is for this packet: ranges for the function and the low twenty bits of the address, a
prefix of the buffer register, and exact values for the others. -/
def EntryKey.selects (k : EntryKey) (q : LookupKey) : Bool :=
  decide (k.fidStart ≤ q.fid ∧ q.fid ≤ k.fidEnd ∧ k.opcode = q.opcode ∧
    k.complete = q.complete.toNat ∧ k.disabled = q.disabled.toNat ∧
    k.mbr / 2 ^ (32 - k.mbrPfx) = q.mbr.toNat / 2 ^ (32 - k.mbrPfx) ∧
    k.marStart ≤ ((q.mar.toNat % 2 ^ 20 : ℕ) : ℚ) ∧ ((q.mar.toNat % 2 ^ 20 : ℕ) : ℚ) ≤ k.marEnd)

/-- **A lookup**: of the entries that are for the packet, the one with the longest prefix. -/
def Switch.lookup (sw : Switch) (i : Stage) (q : LookupKey) : Option BoundAction :=
  let candidates := (sw.instruction i).items.filter fun e => e.1.selects q
  (List.range 33).reverse.findSome? fun n =>
    (candidates.find? fun e => decide (e.1.mbrPfx = n)).map Prod.snd

/-- What a packet presents with an instruction. -/
def PacketState.key (σ : PacketState) (instr : ActiveInstr) : LookupKey :=
  { fid := σ.fid.toNat
    opcode := instr.opcode.toNat
    complete := σ.complete
    disabled := σ.disabled
    mbr := σ.mbr
    mar := σ.mar }

/-! ### Actions -/

/-- The salt. -/
def constSalt : Word := 0x5093

/-- A parameter of an entry as a word. -/
def argument (arg : Option ℚ) : Word := BitVec.ofNat 32 ⌊arg.getD 0⌋₊

/-- Writing one word of memory. -/
def writeHeap (heap : Stage → Word → Word) (i : Stage) (addr v : Word) : Stage → Word → Word :=
  Function.update heap i (Function.update (heap i) addr v)

/-- **The effect of an action** at a stage, for an instruction with this label bit. -/
def exec (env : Environment) (i : Stage) (goto : Bool) (a : BoundAction) (σ : PacketState) :
    PacketState :=
  let cell := σ.heap i σ.mar
  match a.1 with
  | .markTermination => { σ with flagDone := true }
  | .skip => σ
  | .complete =>
      if isIngress i then { σ with complete := true, bypassEgress := true, flagDone := true }
      else { σ with complete := true }
  | .drop => { σ with dropped := true }
  | .fork => { σ with duplicate := true }
  | .setPort =>
      if isIngress i then { σ with egressPort := σ.mbr.setWidth 9 }
      else { σ with portChange := true, egressPort := σ.mbr.setWidth 9 }
  | .jump => { σ with disabled := true }
  | .rts =>
      if isIngress i then { σ with srcAddr := σ.dstAddr, dstAddr := σ.srcAddr }
      else { σ with portChange := true, egressPort := σ.ingressPort }
  | .mbrLoad => { σ with mbr := σ.data 1 }
  | .mbr2Load => { σ with mbr2 := σ.data 2 }
  | .marLoad => { σ with mar := σ.data 0 &&& 0xFFFFF }
  | .mbrStore => { σ with data := Function.update σ.data 3 σ.mbr }
  | .mbrStoreAlt => { σ with data := Function.update σ.data 1 σ.mbr }
  | .mbrStoreAlt2 => { σ with data := Function.update σ.data 2 σ.mbr }
  | .mbr1EqualsMbr2 => { σ with mbr := σ.mbr ^^^ σ.mbr2 }
  | .mbrEqualsD0 => { σ with mbr := σ.mbr ^^^ σ.data 0 }
  | .mbrEqualsD1 => { σ with mbr := σ.mbr ^^^ σ.data 1 }
  | .mbrEqualsD2 => { σ with mbr := σ.mbr ^^^ σ.data 2 }
  | .mbrEqualsD3 => { σ with mbr := σ.mbr ^^^ σ.data 3 }
  | .maxMbrMbr2 => { σ with mbr := if σ.mbr2 ≤ σ.mbr then σ.mbr else σ.mbr2 }
  | .minMbr1Mbr2 => { σ with mbr := if σ.mbr ≤ σ.mbr2 then σ.mbr else σ.mbr2 }
  | .minMbr2Mbr1 => { σ with mbr2 := if σ.mbr2 ≤ σ.mbr then σ.mbr2 else σ.mbr }
  | .swapMbrMbr2 => { σ with mbr := σ.mbr2, mbr2 := σ.mbr }
  | .notMbr => { σ with mbr := ~~~σ.mbr }
  | .mbrSubtractMbr2 => { σ with mbr := σ.mbr - σ.mbr2 }
  | .marAddMbr => { σ with mar := σ.mar + σ.mbr }
  | .marAddMbr2 => { σ with mar := σ.mar + σ.mbr2 }
  | .mbrAddMbr2 => { σ with mbr := σ.mbr + σ.mbr2 }
  | .marMbrAddMbr2 => { σ with mar := σ.mbr + σ.mbr2 }
  | .bitAndMarMbr => { σ with mar := σ.mar &&& σ.mbr }
  | .mbrOrMbr2 => { σ with mbr := σ.mbr ||| σ.mbr2 }
  | .copyMbr2Mbr1 => { σ with mbr2 := σ.mbr }
  | .copyMbr1Mbr2 => { σ with mbr := σ.mbr2 }
  | .copyMarMbr => { σ with mar := σ.mbr }
  | .copyMbrMar => { σ with mbr := σ.mar }
  | .copyHashDataMbr => { σ with hashData := Function.update σ.hashData 0 σ.mbr }
  | .copyHashDataMbr2 => { σ with hashData := Function.update σ.hashData 1 σ.mbr2 }
  | .memoryWrite => { σ with heap := writeHeap σ.heap i σ.mar σ.mbr }
  | .memoryRead => { σ with mbr := cell }
  | .memoryIncrement => { σ with heap := writeHeap σ.heap i σ.mar (cell + 1), mbr := cell + 1 }
  | .memoryMinread => { σ with mbr := cell, mbr2 := if σ.mbr2 < cell then σ.mbr2 else cell }
  | .memoryMinreadinc =>
      { σ with
        heap := writeHeap σ.heap i σ.mar (cell + 1)
        mbr := cell + 1
        mbr2 := if σ.mbr2 < cell + 1 then σ.mbr2 else cell + 1 }
  -- the result of a successful write is left unassigned, and reads as zero
  | .memoryWriteZero =>
      if cell = 0 then { σ with heap := writeHeap σ.heap i σ.mar σ.mbr2, mbr := 0 }
      else { σ with mbr := σ.mbr2 - cell }
  | .hash => { σ with mar := (env.crc16 i σ.hashData).setWidth 32 }
  | .loadSalt => { σ with mbr := constSalt }
  | .load5TupleTcp =>
      if isIngress i then
        { σ with hashData := ![σ.srcAddr, σ.dstAddr, 6, σ.srcPort.setWidth 32,
            σ.dstPort.setWidth 32] }
      else σ
  | .fetchQdelay => if isIngress i then σ else { σ with mbr := σ.qdelay }
  | .fetchQueue => if isIngress i then σ else { σ with mbr := σ.enqQdepth }
  | .fetchPktcount => { σ with mbr := σ.igPktcount }
  | .addrMaskApply => { σ with mar := σ.mar &&& argument a.2 }
  | .addrOffsetApply => { σ with mar := σ.mar + argument a.2 }
  -- a sum of two bits
  | .attemptRejoin => { σ with disabled := xor σ.disabled goto }

/-- The registers that can be loaded from the data. -/
inductive Register
  | mar | mbr | mbr2
  deriving DecidableEq

/-- The register of a packet. -/
def PacketState.register (σ : PacketState) : Register → Word
  | .mar => σ.mar
  | .mbr => σ.mbr
  | .mbr2 => σ.mbr2

/-- The data word that a register is loaded from. -/
def Register.word : Register → Fin 4
  | .mar => 0
  | .mbr => 1
  | .mbr2 => 2

/-- `ACTIVE_DEFAULT_ARG_MAR`. -/
def argMar : Fin 4 := 0

/-- `ACTIVE_DEFAULT_ARG_MBR`. -/
def argMbr : Fin 4 := 1

/-- `ACTIVE_DEFAULT_ARG_MBR2`, where the client keeps the stage of a word. -/
def argMbr2 : Fin 4 := 2

/-- `ACTIVE_DEFAULT_ARG_RESULT`. -/
def argResult : Fin 4 := 3

/-- **A slot**: the table is looked up, and a miss does nothing. -/
def slot (env : Environment) (sw : Switch) (i : Stage) (instr : ActiveInstr) (σ : PacketState) :
    PacketState :=
  match sw.lookup i (σ.key instr) with
  | none => σ
  | some a => exec env i instr.goto a σ

section Exec

variable {env : Environment} {i : Stage} {σ : PacketState}

theorem exec_complete (goto : Bool) (a : BoundAction) :
    (exec env i goto a σ).complete = (σ.complete || decide (a.1 = .complete)) := by
  obtain ⟨act, arg⟩ := a
  cases act <;> simp only [exec] <;> (try split_ifs) <;> simp

theorem exec_flagDone (goto : Bool) (a : BoundAction) :
    (exec env i goto a σ).flagDone = (σ.flagDone || decide (a.1 = .markTermination) ||
      (decide (a.1 = .complete) && isIngress i)) := by
  obtain ⟨act, arg⟩ := a
  cases act <;> simp only [exec] <;> (try split_ifs) <;> simp_all

theorem exec_bypassEgress (goto : Bool) (a : BoundAction) :
    (exec env i goto a σ).bypassEgress =
      (σ.bypassEgress || (decide (a.1 = .complete) && isIngress i)) := by
  obtain ⟨act, arg⟩ := a
  cases act <;> simp only [exec] <;> (try split_ifs) <;> simp_all

theorem exec_disabled (goto : Bool) (a : BoundAction) :
    (exec env i goto a σ).disabled =
      if a.1 = .jump then true else if a.1 = .attemptRejoin then xor σ.disabled goto
      else σ.disabled := by
  obtain ⟨act, arg⟩ := a
  cases act <;> simp only [exec] <;> (try split_ifs) <;> simp_all

end Exec

/-! ### The pipelines -/

/-- A lookup that took place. -/
structure Lookup where
  /-- The stage. -/
  stage : Stage
  /-- The instruction. -/
  instr : ActiveInstr
  /-- The state before it. -/
  before : PacketState
  /-- The state after it. -/
  after : PacketState

/-- The slots of a pipeline from slot `k` on, for the instructions on the stack. -/
def runSlots (env : Environment) (sw : Switch) (stageAt : ℕ → Stage) :
    ℕ → List ActiveInstr → PacketState → List Lookup × PacketState
  | _, [], σ => ([], σ)
  | k, instr :: stack, σ =>
      let σ' := slot env sw (stageAt k) instr σ
      let rest := runSlots env sw stageAt (k + 1) stack σ'
      (⟨stageAt k, instr, σ, σ'⟩ :: rest.1, rest.2)

/-- The stage of an ingress slot. -/
def ingressStage (k : ℕ) : Stage := ⟨k % 10, by omega⟩

theorem egressStage_lt (k : ℕ) : k % 10 + 10 < 20 := by omega

/-- The stage of an egress slot. -/
def egressStage (k : ℕ) : Stage := ⟨k % 10 + 10, egressStage_lt k⟩

/-- The instructions up to the end of the program. -/
def untilEof : List ActiveInstr → List ActiveInstr
  | [] => []
  | instr :: words => if instr.opcode = 0 then [instr] else instr :: untilEof words

/-- `parse_active_instruction`: a stack of at most `MAX_INSTRUCTIONS`. -/
def parseInstructions (words : List ActiveInstr) : List ActiveInstr := (untilEof words).take 32

/-- A packet that arrives with a program. -/
structure Arrival where
  /-- The state: headers, uninitialised metadata, memory. -/
  state : PacketState
  /-- The bytes behind the data words, in pairs. -/
  words : List ActiveInstr
  /-- The registers are to be loaded from the data. -/
  flagPreload : Bool
  /-- The allocation is to be reported. -/
  flagAllocated : Bool
  /-- The remap was acknowledged. -/
  flagInitiated : Bool

/-- A number as it is written into two pairs of bytes. -/
def bytePairs (q : ℚ) : List ActiveInstr :=
  let w := BitVec.ofNat 32 ⌊q⌋₊
  [⟨w.extractLsb' 24 8, w.extractLsb' 16 8⟩, ⟨w.extractLsb' 8 8, w.extractLsb' 0 8⟩]

/-- An allocation header. -/
def allocHeader (p : ℚ × ℚ) : List ActiveInstr := bytePairs p.1 ++ bytePairs p.2

/-- The headers that `allocation_0`, …, `allocation_9` add to a packet that reports its allocation:
all ingress stages first.  The deparser writes them before the instructions. -/
def allocHeaders (sw : Switch) (pkt : Arrival) : List ActiveInstr :=
  if pkt.flagAllocated then
    let hits := (List.finRange 10).filterMap fun k =>
      (sw.allocations k).get? pkt.state.fid.toNat
    let ig : AllocationEntry → ℚ × ℚ
      | .default => (0, 0)
      | .get offsetIg sizeIg _ _ => (offsetIg, sizeIg)
    let eg : AllocationEntry → ℚ × ℚ
      | .default => (0, 0)
      | .get _ _ offsetEg sizeEg => (offsetEg, sizeEg)
    hits.flatMap (fun e => allocHeader (ig e)) ++ hits.flatMap fun e => allocHeader (eg e)
  else []

/-- `MAX_RECIRCULATIONS`, for a function in `quota_recirc`. -/
def mirrorIter (sw : Switch) (pkt : Arrival) : ℕ :=
  if sw.quotaRecirc.contains pkt.state.fid.toNat then 10 else 0

/-- The ingress pipeline before its slots. -/
def ingressStart (env : Environment) (pkt : Arrival) : PacketState :=
  let σ := pkt.state
  { σ with
    igTimestamp := env.igTimestamp
    mar := if pkt.flagPreload then σ.data 0 else σ.mar
    mbr := if pkt.flagPreload then σ.data 1 else σ.mbr
    mbr2 := if pkt.flagPreload then σ.data 2 else σ.mbr2
    igPktcount := env.pktCount σ.fid }

/-- The ingress pipeline after its slots: the route, and the notice of a remap. -/
def ingressEnd (env : Environment) (sw : Switch) (pkt : Arrival) (σ : PacketState) : PacketState :=
  let remapped := !pkt.flagInitiated && sw.remapCheck.contains σ.fid.toNat
  { σ with
    egressPort := ((env.ipv4Host σ.dstAddr).getD none).getD σ.egressPort
    dropped := σ.dropped || env.ipv4Host σ.dstAddr == some none
    remap := σ.remap || remapped
    flagRemapped := σ.flagRemapped || remapped }

/-- The stack of an arriving packet. -/
def ingressStack (pkt : Arrival) : List ActiveInstr :=
  if pkt.state.flagDone then [] else parseInstructions pkt.words

/-- **The ingress pipeline**: its lookups and the state in which it leaves the packet. -/
def ingressPass (env : Environment) (sw : Switch) (pkt : Arrival) : List Lookup × PacketState :=
  let r := runSlots env sw ingressStage 0 ((ingressStack pkt).take 10) (ingressStart env pkt)
  (r.1, ingressEnd env sw pkt r.2)

/-- The egress pipeline before its slots, in pass `n`. -/
def egressStart (env : Environment) (n : ℕ) (σ : PacketState) : PacketState :=
  { σ with
    qdelay := env.egTimestamp n - σ.igTimestamp
    enqQdepth := env.enqQdepth n
    portChange := false
    dropped := false }

/-- The stack that the egress parser finds. -/
def egressStack (words : List ActiveInstr) (σ : PacketState) : List ActiveInstr :=
  if σ.flagDone then [] else parseInstructions words

/-- The mirrored packet. -/
def mirror (σ : PacketState) : PacketState := { σ with duplicate := false }

/-- **A packet on its way out**: the lookups of its passes, and the state in which it leaves.  `iter`
is its quota.  The program goes on in the mirrored packet; a duplicated packet leaves as well. -/
def egressPasses (env : Environment) (sw : Switch) :
    ℕ → ℕ → List ActiveInstr → PacketState → List Lookup × PacketState
  | iter, n, words, σ =>
      let stack := egressStack words σ
      let r := runSlots env sw egressStage 0 (stack.take 10) (egressStart env n σ)
      match iter with
      | 0 => r
      | iter + 1 =>
          if r.2.complete = false ∨ r.2.portChange = true then
            let rest := egressPasses env sw iter (n + 1) (words.drop (min 10 stack.length))
              (mirror r.2)
            (r.1 ++ rest.1, rest.2)
          else r

/-- **A packet from its arrival to its departure.** -/
def process (env : Environment) (sw : Switch) (pkt : Arrival) : List Lookup × PacketState :=
  let ig := ingressPass env sw pkt
  if ig.2.dropped || ig.2.bypassEgress then ig
  else
    let rest := egressPasses env sw (mirrorIter sw pkt) 0
      (allocHeaders sw pkt ++ (ingressStack pkt).drop 10 ++ env.trailer) ig.2
    (ig.1 ++ rest.1, rest.2)

/-! ### What a table selects -/

namespace Switch

variable {sw : Switch} {i : Stage} {q : LookupKey} {a : BoundAction}

theorem exists_of_lookup (h : sw.lookup i q = some a) :
    ∃ e ∈ (sw.instruction i).items, e.1.selects q = true ∧ e.2 = a := by
  obtain ⟨n, _, hn⟩ := List.exists_of_findSome?_eq_some h
  obtain ⟨e, he, ha⟩ := Option.map_eq_some_iff.1 hn
  obtain ⟨hmem, hsel⟩ := List.mem_filter.1 (List.mem_of_find?_eq_some he)
  exact ⟨e, hmem, hsel, ha⟩

theorem lookup_eq_none (h : ∀ e ∈ (sw.instruction i).items, e.1.selects q = false) :
    sw.lookup i q = none := by
  cases hl : sw.lookup i q with
  | none => rfl
  | some a =>
      obtain ⟨e, he, hsel, _⟩ := exists_of_lookup hl
      rw [h e he] at hsel
      exact absurd hsel Bool.false_ne_true

/-- An entry is selected when those that match with at least its prefix have its action. -/
theorem lookup_eq_some {e : EntryKey × BoundAction} (he : e ∈ (sw.instruction i).items)
    (hsel : e.1.selects q = true) (hpfx : e.1.mbrPfx ≤ 32)
    (hall : ∀ e' ∈ (sw.instruction i).items, e'.1.selects q = true →
      e.1.mbrPfx ≤ e'.1.mbrPfx → e'.2 = e.2) :
    sw.lookup i q = some e.2 := by
  have key : ∀ n, e.1.mbrPfx < n → (List.range n).reverse.findSome? (fun n =>
      (((sw.instruction i).items.filter fun e => e.1.selects q).find? fun e =>
        decide (e.1.mbrPfx = n)).map Prod.snd) = some e.2 := by
    intro n
    induction n with
    | zero => intro h; exact absurd h (Nat.not_lt_zero _)
    | succ n ih =>
        intro h
        rw [List.range_succ, List.reverse_append, List.reverse_singleton, List.singleton_append,
          List.findSome?_cons]
        cases hf : ((sw.instruction i).items.filter fun e => e.1.selects q).find? fun e =>
            decide (e.1.mbrPfx = n) with
        | some e' =>
            have hpfx' := List.find?_some hf
            rw [decide_eq_true_eq] at hpfx'
            obtain ⟨hmem, hsel'⟩ := List.mem_filter.1 (List.mem_of_find?_eq_some hf)
            rw [Option.map_some, hall e' hmem hsel' (by omega)]
        | none =>
            rw [Option.map_none]
            refine ih (lt_of_le_of_ne (Nat.lt_succ_iff.1 h) fun heq => ?_)
            exact List.find?_eq_none.1 hf e (List.mem_filter.2 ⟨he, hsel⟩) (decide_eq_true heq)
  exact key 33 (Nat.lt_succ_of_le hpfx)

/-! ### Equipped tables -/

/-- **The tables as the controller keeps them**: the entries common to all functions, entries of
memory instructions, and address translations. -/
structure Equipped (sw : Switch) : Prop where
  /-- The common entries are there. -/
  common : ∀ i, ∀ e ∈ commonEntries, e ∈ (sw.instruction i).items
  /-- Any other is one of a function. -/
  others : ∀ i, ∀ e ∈ (sw.instruction i).items, e ∈ commonEntries ∨
    (∃ fid lo hi, ∃ act ∈ memoryInstructions, e ∈ entriesOf fid act lo hi) ∨
    (∃ bs fid allocation, ∃ act ∈ instructionSet.filter (·.vaddr),
      e ∈ vaddrEntries bs fid allocation act)

theorem equipped_init : Equipped init :=
  ⟨fun _ _ he => he, fun _ _ he => .inl he⟩

theorem opcode_of_mem_entriesOf {fid : Fid} {act : Instruction} {lo hi : ℚ}
    {e : EntryKey × BoundAction} (he : e ∈ entriesOf fid act lo hi) : e.1.opcode = act.opcode := by
  unfold entriesOf at he
  cases haction : act.action with
  | none => rw [haction] at he; exact absurd he List.not_mem_nil
  | some action =>
      rw [haction] at he
      cases hc : act.condition with
      | none =>
          rw [hc] at he
          simp only [List.mem_append, List.mem_singleton] at he
          rcases he with (he | rfl) | rfl
          · rw [List.mem_ite_nil_right, List.mem_singleton] at he
            rw [he.2]
          · rfl
          · rfl
      | some b =>
          rw [hc] at he
          cases b <;>
            (simp only [List.mem_append, List.mem_cons, List.not_mem_nil, or_false] at he
             rcases he with (rfl | rfl) | rfl <;> rfl)

theorem opcode_of_mem_vaddrEntries {bs : ℚ} {fid : Fid} {allocation : Dict Stage (List ℕ)}
    {act : Instruction} {e : EntryKey × BoundAction} (he : e ∈ vaddrEntries bs fid allocation act) :
    e.1.opcode = act.opcode := by
  unfold vaddrEntries at he
  dsimp only at he
  split at he
  · split at he
    · exact absurd he List.not_mem_nil
    · simp only [List.mem_cons, List.not_mem_nil, or_false] at he
      rcases he with rfl | rfl <;> rfl
  · split at he
    · exact absurd he List.not_mem_nil
    · simp only [List.mem_cons, List.not_mem_nil, or_false] at he
      rcases he with rfl | rfl <;> rfl
  · exact absurd he List.not_mem_nil

end Switch

/-- The opcode of an instruction is its row. -/
theorem getElem?_instructionSet : ∀ act ∈ instructionSet, instructionSet[act.opcode]? = some act := by
  decide +kernel

theorem instruction_eq {act act' : Instruction} (h : act ∈ instructionSet)
    (h' : act' ∈ instructionSet) (heq : act.opcode = act'.opcode) : act = act' := by
  have h₁ := getElem?_instructionSet act h
  have h₂ := getElem?_instructionSet act' h'
  rw [heq, h₂] at h₁
  exact (Option.some.inj h₁).symm

theorem mem_instructionSet_of_common {act : Instruction} (h : act ∈ commonInstructions) :
    act ∈ instructionSet ∧ act.action.isSome = true ∧ act.memory = false ∧ act.vaddr = false := by
  obtain ⟨hmem, hact⟩ := List.mem_filter.1 h
  simp only [Bool.and_eq_true, Bool.not_eq_true'] at hact
  exact ⟨hmem, hact.1.1, hact.1.2, hact.2⟩

namespace Switch

variable {sw : Switch} {i : Stage} {q : LookupKey}

/-- The entries of a common instruction are the common ones. -/
theorem Equipped.mem_entriesOf (h : Equipped sw) {act : Instruction} (hact : act ∈ commonInstructions)
    {e : EntryKey × BoundAction} (he : e ∈ (sw.instruction i).items)
    (hop : e.1.opcode = act.opcode) : e ∈ entriesOf 0 act 0 regMax := by
  obtain ⟨hset, _, hmem, hvaddr⟩ := mem_instructionSet_of_common hact
  rcases h.others i e he with hc | ⟨fid, lo, hi, act', hact', he'⟩ | ⟨bs, fid, al, act', hact', he'⟩
  · obtain ⟨act', hact', he'⟩ := List.mem_flatMap.1 hc
    have heq := instruction_eq hset (mem_instructionSet_of_common hact').1
      (hop.symm.trans (opcode_of_mem_entriesOf he'))
    rwa [heq]
  · obtain ⟨hset', hmem'⟩ := List.mem_filter.1 hact'
    rw [instruction_eq hset hset' (hop.symm.trans (opcode_of_mem_entriesOf he')), hmem'] at hmem
    exact absurd hmem.symm Bool.false_ne_true
  · obtain ⟨hset', hvaddr'⟩ := List.mem_filter.1 hact'
    rw [instruction_eq hset hset' (hop.symm.trans (opcode_of_mem_vaddrEntries he')), hvaddr'] at hvaddr
    exact absurd hvaddr.symm Bool.false_ne_true

/-- The key of a common entry. -/
def commonKey (opcode complete disabled mbrPfx : ℕ) : EntryKey :=
  ⟨0, 0xFF, opcode, complete, disabled, 0, mbrPfx, 0, regMax⟩

theorem selects_commonKey {opcode complete disabled mbrPfx : ℕ} :
    (commonKey opcode complete disabled mbrPfx).selects q = true ↔
      q.fid ≤ 255 ∧ opcode = q.opcode ∧ complete = q.complete.toNat ∧
        disabled = q.disabled.toNat ∧ q.mbr.toNat < 2 ^ (32 - mbrPfx) := by
  have hmar : ((q.mar.toNat % 2 ^ 20 : ℕ) : ℚ) ≤ regMax := by
    have h : q.mar.toNat % 2 ^ 20 ≤ 0xFFFFF := by omega
    unfold regMax
    exact_mod_cast h
  have hmbr : (0 : ℕ) = q.mbr.toNat / 2 ^ (32 - mbrPfx) ↔ q.mbr.toNat < 2 ^ (32 - mbrPfx) := by
    rw [eq_comm, Nat.div_eq_zero_iff_lt (Nat.two_pow_pos _)]
  simp only [EntryKey.selects, commonKey, decide_eq_true_eq, Nat.zero_le, true_and, Nat.zero_div,
    hmbr, hmar, Nat.cast_nonneg, and_true]

/-- What a common instruction selects for the functions that have common entries. -/
def commonAction (act : Instruction) (action : Action) (q : LookupKey) : Option BoundAction :=
  if q.complete then
    if act.condition = none ∧ act.opcode = 0 ∧ q.disabled = false then some (action, none) else none
  else if q.disabled then some (.attemptRejoin, none)
  else
    match act.condition with
    | none => some (action, none)
    | some true => some (if q.mbr = 0 then .skip else action, none)
    | some false => some (if q.mbr = 0 then action else .skip, none)

theorem mem_entriesOf_common {act : Instruction} (hmem : act.memory = false) {action : Action}
    (haction : act.action = some action) {e : EntryKey × BoundAction} :
    e ∈ entriesOf 0 act 0 regMax ↔
      (match act.condition with
        | none => (act.opcode = 0 ∧ e = (commonKey act.opcode 1 0 0, (action, none))) ∨
            e = (commonKey act.opcode 0 0 0, (action, none))
        | some true => e = (commonKey act.opcode 0 0 32, (.skip, none)) ∨
            e = (commonKey act.opcode 0 0 0, (action, none))
        | some false => e = (commonKey act.opcode 0 0 32, (action, none)) ∨
            e = (commonKey act.opcode 0 0 0, (.skip, none))) ∨
      e = (commonKey act.opcode 0 1 0, (.attemptRejoin, none)) := by
  unfold entriesOf commonKey
  rw [haction]
  dsimp only
  cases act.condition with
  | none => simp [hmem, List.mem_ite_nil_right, or_assoc]
  | some b => cases b <;> simp [hmem, or_assoc]

section Common

variable {act : Instruction} {action : Action}

/-- The entries of a common instruction that has a condition. -/
theorem mem_entriesOf_condition (hmem : act.memory = false) (haction : act.action = some action) {b : Bool}
    (hc : act.condition = some b) {e : EntryKey × BoundAction} : e ∈ entriesOf 0 act 0 regMax ↔
      (e = (commonKey act.opcode 0 0 32, (if b then .skip else action, none)) ∨
        e = (commonKey act.opcode 0 0 0, (if b then action else .skip, none))) ∨
      e = (commonKey act.opcode 0 1 0, (.attemptRejoin, none)) := by
  rw [mem_entriesOf_common hmem haction, hc]
  cases b <;> exact Iff.rfl

/-- Which of the keys match. -/
theorem matches_commonKey (hfid : q.fid ≤ 255) {opcode complete disabled mbrPfx : ℕ}
    (hop : q.opcode = opcode) (hcomplete : q.complete.toNat = complete)
    (hdisabled : q.disabled.toNat = disabled) (hmbr : q.mbr.toNat < 2 ^ (32 - mbrPfx)) :
    (commonKey opcode complete disabled mbrPfx).selects q = true :=
  selects_commonKey.2 ⟨hfid, hop.symm, hcomplete.symm, hdisabled.symm, hmbr⟩

/-- An entry that matches is one of the instruction. -/
theorem Equipped.mem_of_selects (h : Equipped sw) (hact : act ∈ commonInstructions)
    (hop : q.opcode = act.opcode) {e : EntryKey × BoundAction} (he : e ∈ (sw.instruction i).items)
    (hsel : e.1.selects q = true) : e ∈ entriesOf 0 act 0 regMax :=
  h.mem_entriesOf hact he ((of_decide_eq_true hsel).2.2.1.trans hop)

/-- An entry of the instruction is selected when those that match with at least its prefix have its
action. -/
theorem Equipped.select (h : Equipped sw) (hact : act ∈ commonInstructions) (hop : q.opcode = act.opcode)
    {complete disabled mbrPfx : ℕ} {a : Action}
    (he : (commonKey act.opcode complete disabled mbrPfx, (a, none)) ∈ entriesOf 0 act 0 regMax)
    (hsel : (commonKey act.opcode complete disabled mbrPfx).selects q = true) (hpfx : mbrPfx ≤ 32)
    (hall : ∀ e ∈ entriesOf 0 act 0 regMax, e.1.selects q = true → mbrPfx ≤ e.1.mbrPfx →
      e.2 = (a, none)) : sw.lookup i q = some (a, none) :=
  lookup_eq_some (h.common i _ (List.mem_flatMap.2 ⟨act, hact, he⟩)) hsel hpfx
    fun e' he' hsel' => hall e' (h.mem_of_selects hact hop he' hsel') hsel'

/-- After completion, only the end of the program is selected. -/
theorem Equipped.lookup_completed (h : Equipped sw) (hact : act ∈ commonInstructions)
    (haction : act.action = some action) (hop : q.opcode = act.opcode) (hfid : q.fid ≤ 255)
    (hcomplete : q.complete = true) : sw.lookup i q =
      if act.condition = none ∧ act.opcode = 0 ∧ q.disabled = false then some (action, none) else none := by
  have hmem := (mem_instructionSet_of_common hact).2.2.1
  -- the keys of a program that runs do not match
  have hruns : ∀ {disabled pfx : ℕ}, ¬ (commonKey act.opcode 0 disabled pfx).selects q = true := by
    intro disabled pfx hsel
    rw [selects_commonKey, hcomplete] at hsel
    exact absurd hsel.2.2.1 (by decide)
  cases hc : act.condition with
  | some b =>
      rw [if_neg (by simp)]
      refine lookup_eq_none fun e he => Bool.eq_false_iff.2 fun hsel => ?_
      have he' := h.mem_of_selects hact hop he hsel
      rw [mem_entriesOf_condition hmem haction hc] at he'
      rcases he' with (rfl | rfl) | rfl
      · exact hruns hsel
      · exact hruns hsel
      · exact hruns hsel
  | none =>
      have hentries : ∀ e ∈ entriesOf 0 act 0 regMax, e.1.selects q = true →
          act.opcode = 0 ∧ e = (commonKey act.opcode 1 0 0, (action, none)) := by
        intro e he hsel
        rw [mem_entriesOf_common hmem haction, hc] at he
        rcases he with (⟨h0, rfl⟩ | rfl) | rfl
        · exact ⟨h0, rfl⟩
        · exact absurd hsel hruns
        · exact absurd hsel hruns
      split_ifs with hcond
      · obtain ⟨-, h0, hdisabled⟩ := hcond
        have hmatch : (commonKey act.opcode 1 0 0).selects q = true :=
          matches_commonKey hfid hop (by rw [hcomplete]; rfl) (by rw [hdisabled]; rfl) q.mbr.isLt
        refine h.select hact hop ?_ hmatch (Nat.zero_le _) fun e he hsel _ => ?_
        · rw [mem_entriesOf_common hmem haction, hc]
          exact .inl (.inl ⟨h0, rfl⟩)
        · rw [(hentries e he hsel).2]
      · refine lookup_eq_none fun e he => Bool.eq_false_iff.2 fun hsel => ?_
        obtain ⟨h0, rfl⟩ := hentries e (h.mem_of_selects hact hop he hsel) hsel
        refine hcond ⟨rfl, h0, ?_⟩
        rw [selects_commonKey] at hsel
        exact Bool.toNat_eq_zero.1 hsel.2.2.2.1.symm

/-- While the packet is disabled, the program may only rejoin. -/
theorem Equipped.lookup_disabled (h : Equipped sw) (hact : act ∈ commonInstructions)
    (haction : act.action = some action) (hop : q.opcode = act.opcode) (hfid : q.fid ≤ 255)
    (hcomplete : q.complete = false) (hdisabled : q.disabled = true) :
    sw.lookup i q = some (.attemptRejoin, none) := by
  have hmem := (mem_instructionSet_of_common hact).2.2.1
  have henabled : ∀ {complete pfx : ℕ}, ¬ (commonKey act.opcode complete 0 pfx).selects q = true := by
    intro complete pfx hsel
    rw [selects_commonKey, hdisabled] at hsel
    exact absurd hsel.2.2.2.1 (by decide)
  have hmatch : (commonKey act.opcode 0 1 0).selects q = true :=
    matches_commonKey hfid hop (by rw [hcomplete]; rfl) (by rw [hdisabled]; rfl) q.mbr.isLt
  refine h.select hact hop ?_ hmatch (Nat.zero_le _) fun e he hsel _ => ?_
  · rw [mem_entriesOf_common hmem haction]
    exact .inr rfl
  · cases hc : act.condition with
    | none =>
        rw [mem_entriesOf_common hmem haction, hc] at he
        rcases he with (⟨-, rfl⟩ | rfl) | rfl
        · exact absurd hsel henabled
        · exact absurd hsel henabled
        · rfl
    | some b =>
        rw [mem_entriesOf_condition hmem haction hc] at he
        rcases he with (rfl | rfl) | rfl
        · exact absurd hsel henabled
        · exact absurd hsel henabled
        · rfl

/-- While the program runs, its action is selected as its condition says. -/
theorem Equipped.lookup_running (h : Equipped sw) (hact : act ∈ commonInstructions)
    (haction : act.action = some action) (hop : q.opcode = act.opcode) (hfid : q.fid ≤ 255)
    (hcomplete : q.complete = false) (hdisabled : q.disabled = false) :
    sw.lookup i q = match act.condition with
      | none => some (action, none)
      | some true => some (if q.mbr = 0 then .skip else action, none)
      | some false => some (if q.mbr = 0 then action else .skip, none) := by
  have hmem := (mem_instructionSet_of_common hact).2.2.1
  have hmatch : ∀ {pfx : ℕ}, q.mbr.toNat < 2 ^ (32 - pfx) →
      (commonKey act.opcode 0 0 pfx).selects q = true := fun hmbr =>
    matches_commonKey hfid hop (by rw [hcomplete]; rfl) (by rw [hdisabled]; rfl) hmbr
  have hrejoin : ∀ {complete pfx : ℕ}, ¬ (commonKey act.opcode complete 1 pfx).selects q = true := by
    intro complete pfx hsel
    rw [selects_commonKey, hdisabled] at hsel
    exact absurd hsel.2.2.2.1 (by decide)
  have hlt : q.mbr.toNat < 2 ^ (32 - 0) := q.mbr.isLt
  have hzero : q.mbr.toNat < 2 ^ (32 - 32) ↔ q.mbr = 0 := by
    rw [Nat.sub_self, pow_zero, Nat.lt_one_iff, BitVec.toNat_eq]
    rfl
  cases hc : act.condition with
  | none =>
      refine h.select hact hop ?_ (hmatch hlt) (Nat.zero_le _) fun e he hsel _ => ?_
      · rw [mem_entriesOf_common hmem haction, hc]
        exact .inl (.inr rfl)
      · rw [mem_entriesOf_common hmem haction, hc] at he
        rcases he with (⟨_, rfl⟩ | rfl) | rfl
        · rfl
        · rfl
        · exact absurd hsel hrejoin
  | some b =>
      by_cases hmbr : q.mbr = 0
      · have hselect : sw.lookup i q = some (if b then .skip else action, none) := by
          refine h.select hact hop ?_ (hmatch (hzero.2 hmbr)) le_rfl fun e he hsel hpfx => ?_
          · rw [mem_entriesOf_condition hmem haction hc]
            exact .inl (.inl rfl)
          · rw [mem_entriesOf_condition hmem haction hc] at he
            rcases he with (rfl | rfl) | rfl
            · rfl
            · exact absurd hpfx (show ¬ (32 : ℕ) ≤ 0 by decide)
            · exact absurd hsel hrejoin
        rw [hselect]
        cases b with
        | true => exact congrArg (fun a => some (a, none)) (if_pos hmbr).symm
        | false => exact congrArg (fun a => some (a, none)) (if_pos hmbr).symm
      · have hselect : sw.lookup i q = some (if b then action else .skip, none) := by
          refine h.select hact hop ?_ (hmatch hlt) (Nat.zero_le _)
            fun e he hsel _ => ?_
          · rw [mem_entriesOf_condition hmem haction hc]
            exact .inl (.inr rfl)
          · rw [mem_entriesOf_condition hmem haction hc] at he
            rcases he with (rfl | rfl) | rfl
            · exact absurd (hzero.1 (selects_commonKey.1 hsel).2.2.2.2) hmbr
            · rfl
            · exact absurd hsel hrejoin
        rw [hselect]
        cases b with
        | true => exact congrArg (fun a => some (a, none)) (if_neg hmbr).symm
        | false => exact congrArg (fun a => some (a, none)) (if_neg hmbr).symm

/-- **What the tables select for a common instruction.** -/
theorem Equipped.lookup_common (h : Equipped sw) (hact : act ∈ commonInstructions)
    (haction : act.action = some action) (hop : q.opcode = act.opcode) (hfid : q.fid ≤ 255) :
    sw.lookup i q = commonAction act action q := by
  unfold commonAction
  cases hcomplete : q.complete with
  | true =>
      rw [if_pos rfl]
      exact h.lookup_completed hact haction hop hfid hcomplete
  | false =>
      rw [if_neg Bool.false_ne_true]
      cases hdisabled : q.disabled with
      | true =>
          rw [if_pos rfl]
          exact h.lookup_disabled hact haction hop hfid hcomplete hdisabled
      | false =>
          rw [if_neg Bool.false_ne_true]
          exact h.lookup_running hact haction hop hfid hcomplete hdisabled

end Common

/-- A hit of a common instruction is one of a function that has common entries. -/
theorem Equipped.fid_le (h : Equipped sw) {act : Instruction} (hact : act ∈ commonInstructions)
    (hop : q.opcode = act.opcode) {a : BoundAction} (hl : sw.lookup i q = some a) :
    q.fid ≤ 255 := by
  obtain ⟨hset, hsome, hmem, _⟩ := mem_instructionSet_of_common hact
  obtain ⟨action, haction⟩ := Option.isSome_iff_exists.1 hsome
  obtain ⟨e, he, hsel, _⟩ := exists_of_lookup hl
  have hsel' := of_decide_eq_true hsel
  have he' := h.mem_entriesOf hact he (hsel'.2.2.1.trans hop)
  have hend : e.1.fidEnd = 0xFF := by
    rw [mem_entriesOf_common hmem haction] at he'
    cases hc : act.condition with
    | none =>
        rw [hc] at he'
        rcases he' with (⟨_, rfl⟩ | rfl) | rfl <;> rfl
    | some b =>
        rw [hc] at he'
        cases b <;> rcases he' with (rfl | rfl) | rfl <;> rfl
  rw [← hend]
  exact hsel'.2.1

theorem toNat_eq_zero {b : Bool} (h : 0 = b.toNat) : b = false := by
  cases b with
  | false => rfl
  | true => exact absurd h (by decide)

theorem toNat_eq_one {b : Bool} (h : 1 = b.toNat) : b = true := by
  cases b with
  | false => exact absurd h (by decide)
  | true => rfl

theorem memory_action : ∀ act ∈ instructionSet, act.memory = true → act.action.isSome = true := by
  decide +kernel

/-- An entry for disabled programs attempts to rejoin; an entry for completed programs is one of
`EOF`; an entry has the action of its instruction, or skips. -/
theorem entry_action {fid : Fid} {act : Instruction} {action : Action}
    (haction : act.action = some action) {lo hi : ℚ} {e : EntryKey × BoundAction}
    (he : e ∈ entriesOf fid act lo hi) :
    (e.1.disabled = 1 ∧ e.1.complete = 0 ∧ e.2 = (.attemptRejoin, none)) ∨
      (e.1.disabled = 0 ∧ e.1.complete = 0 ∧ e.2 = (action, none)) ∨
      (e.1.disabled = 0 ∧ e.1.complete = 0 ∧ act.condition.isSome = true ∧ e.2 = (.skip, none)) ∨
      (e.1.disabled = 0 ∧ e.1.complete = 1 ∧ act.opcode = 0 ∧ e.2 = (action, none)) := by
  unfold entriesOf at he
  rw [haction] at he
  cases hc : act.condition with
  | none =>
      rw [hc] at he
      simp only [List.mem_append, List.mem_singleton, List.mem_ite_nil_right] at he
      rcases he with (⟨h0, rfl⟩ | rfl) | rfl
      · exact .inr (.inr (.inr ⟨rfl, rfl, h0, rfl⟩))
      · exact .inr (.inl ⟨rfl, rfl, rfl⟩)
      · exact .inl ⟨rfl, rfl, rfl⟩
  | some b =>
      rw [hc] at he
      cases b with
      | false =>
          simp only [List.mem_append, List.mem_cons, List.not_mem_nil, or_false] at he
          rcases he with (rfl | rfl) | rfl
          · exact .inr (.inl ⟨rfl, rfl, rfl⟩)
          · exact .inr (.inr (.inl ⟨rfl, rfl, rfl, rfl⟩))
          · exact .inl ⟨rfl, rfl, rfl⟩
      | true =>
          simp only [List.mem_append, List.mem_cons, List.not_mem_nil, or_false] at he
          rcases he with (rfl | rfl) | rfl
          · exact .inr (.inr (.inl ⟨rfl, rfl, rfl, rfl⟩))
          · exact .inr (.inl ⟨rfl, rfl, rfl⟩)
          · exact .inl ⟨rfl, rfl, rfl⟩

/-- The action of an address translation. -/
theorem vaddr_action : ∀ act ∈ instructionSet, (match act.pnemonic with
    | .addrMaskAt _ => act.action = some .addrMaskApply
    | .addrOffsetAt _ => act.action = some .addrOffsetApply
    | _ => True) := by
  intro act hact
  have key : instructionSet.all (fun act => match act.pnemonic with
      | .addrMaskAt _ => act.action == some .addrMaskApply
      | .addrOffsetAt _ => act.action == some .addrOffsetApply
      | _ => true) = true := by decide +kernel
  have h := List.all_eq_true.1 key act hact
  cases hp : act.pnemonic <;> simp_all

theorem vaddr_entry_action {bs : ℚ} {fid : Fid} {allocation : Dict Stage (List ℕ)}
    {act : Instruction} (hact : act ∈ instructionSet) {e : EntryKey × BoundAction}
    (he : e ∈ vaddrEntries bs fid allocation act) :
    e.1.complete = 0 ∧ ((e.1.disabled = 1 ∧ e.2 = (.attemptRejoin, none)) ∨
      (e.1.disabled = 0 ∧ some e.2.1 = act.action)) := by
  have haction := vaddr_action act hact
  unfold vaddrEntries at he
  dsimp only at he
  cases hp : act.pnemonic with
  | addrMaskAt k =>
      rw [hp] at he haction
      dsimp only at he haction
      cases hk : allocation.get? k with
      | none => rw [hk] at he; exact absurd he List.not_mem_nil
      | some blocks =>
          rw [hk] at he
          simp only [List.mem_cons, List.not_mem_nil, or_false] at he
          rcases he with rfl | rfl
          · exact ⟨rfl, .inr ⟨rfl, haction.symm⟩⟩
          · exact ⟨rfl, .inl ⟨rfl, rfl⟩⟩
  | addrOffsetAt k =>
      rw [hp] at he haction
      dsimp only at he haction
      cases hk : allocation.get? k with
      | none => rw [hk] at he; exact absurd he List.not_mem_nil
      | some blocks =>
          rw [hk] at he
          simp only [List.mem_cons, List.not_mem_nil, or_false] at he
          rcases he with rfl | rfl
          · exact ⟨rfl, .inr ⟨rfl, haction.symm⟩⟩
          · exact ⟨rfl, .inl ⟨rfl, rfl⟩⟩
  | _ => rw [hp] at he; exact absurd he List.not_mem_nil

/-- **What a hit does**: a disabled program attempts to rejoin, a completed one is at its end, and
otherwise the action belongs to an instruction with this opcode. -/
theorem Equipped.action_of_lookup (h : Equipped sw) {a : BoundAction}
    (hl : sw.lookup i q = some a) :
    (q.disabled = true ∧ q.complete = false ∧ a = (.attemptRejoin, none)) ∨
      (q.disabled = false ∧ ∃ act ∈ instructionSet, q.opcode = act.opcode ∧
        (q.complete = true → act.opcode = 0) ∧
        (some a.1 = act.action ∨ (q.complete = false ∧ act.condition.isSome = true ∧ a.1 = .skip))) := by
  obtain ⟨e, he, hsel, rfl⟩ := exists_of_lookup hl
  obtain ⟨_, _, hop, hcomplete, hdisabled, _⟩ := of_decide_eq_true hsel
  have hplain : ∀ {act : Instruction} {fid : Fid} {lo hi : ℚ}, act ∈ instructionSet →
      act.action.isSome = true → e ∈ entriesOf fid act lo hi →
      (q.disabled = true ∧ q.complete = false ∧ e.2 = (.attemptRejoin, none)) ∨
        (q.disabled = false ∧ ∃ act ∈ instructionSet, q.opcode = act.opcode ∧
          (q.complete = true → act.opcode = 0) ∧
          (some e.2.1 = act.action ∨
            (q.complete = false ∧ act.condition.isSome = true ∧ e.2.1 = .skip))) := by
    intro act fid lo hi hset hsome he
    obtain ⟨action, haction⟩ := Option.isSome_iff_exists.1 hsome
    have hop' := hop.symm.trans (opcode_of_mem_entriesOf he)
    rcases entry_action haction he with ⟨hd, hc, ha⟩ | ⟨hd, hc, ha⟩ | ⟨hd, hc, hcond, ha⟩ |
      ⟨hd, hc, h0, ha⟩ <;> rw [hd] at hdisabled <;> rw [hc] at hcomplete
    · exact .inl ⟨toNat_eq_one hdisabled, toNat_eq_zero hcomplete, ha⟩
    · refine .inr ⟨toNat_eq_zero hdisabled, act, hset, hop', fun h => ?_, .inl (by rw [ha, haction])⟩
      rw [toNat_eq_zero hcomplete] at h
      exact absurd h Bool.false_ne_true
    · refine .inr ⟨toNat_eq_zero hdisabled, act, hset, hop', fun h => ?_,
        .inr ⟨toNat_eq_zero hcomplete, hcond, by rw [ha]⟩⟩
      rw [toNat_eq_zero hcomplete] at h
      exact absurd h Bool.false_ne_true
    · exact .inr ⟨toNat_eq_zero hdisabled, act, hset, hop', fun _ => h0, .inl (by rw [ha, haction])⟩
  rcases h.others i e he with hc | ⟨fid, lo, hi, act, hact, he'⟩ | ⟨bs, fid, al, act, hact, he'⟩
  · obtain ⟨act, hact, he'⟩ := List.mem_flatMap.1 hc
    obtain ⟨hset, hsome, _⟩ := mem_instructionSet_of_common hact
    exact hplain hset hsome he'
  · have hset := List.mem_filter.1 hact
    exact hplain hset.1 (memory_action act hset.1 hset.2) he'
  · have hset := List.mem_filter.1 hact
    have hop' := hop.symm.trans (opcode_of_mem_vaddrEntries he')
    obtain ⟨hc, hd⟩ := vaddr_entry_action hset.1 he'
    rw [hc] at hcomplete
    have hqc := toNat_eq_zero hcomplete
    rcases hd with ⟨hd, ha⟩ | ⟨hd, ha⟩ <;> rw [hd] at hdisabled
    · exact .inl ⟨toNat_eq_one hdisabled, hqc, ha⟩
    · refine .inr ⟨toNat_eq_zero hdisabled, act, hset.1, hop', fun h => ?_, .inl ha⟩
      rw [hqc] at h
      exact absurd h Bool.false_ne_true

end Switch

end ActiveRmt
