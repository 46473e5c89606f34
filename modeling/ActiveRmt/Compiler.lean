/-
**The compiler of active programs.**

A source program is a list of lines: the name of an instruction and up to two parameters.  A
parameter may put a label on the line or refer to the label of a later line.  The compiler turns
both into one bit of the instruction, and it leaves out the first load of a register when no earlier
line has mentioned that register.

A jump disables the program, and an instruction with the bit attempts to rejoin: it enables the
program again, whichever label the jump referred to.

Main definitions:

* `SourceLine`, `scan`, `assemble`, `skipLoads`, `bindAddresses` — the passes of the compiler;
* `activeProgram`, `getByteCode` — the compiler;
* `position` — where a line ends up;
* `JumpTo`, `Lands`, `Rejoins`, `RejoinsAtLabel` — a jump, and what it is for.

Main results:

* `jump_lands` — **a jump reaches its label if nothing rejoins before it and something at it**, and
  only then;
* `jump_lands_overlapping` — two jumps that overlap.
-/

import ActiveRmt.MemorySync

set_option relaxedAutoImplicit false
set_option autoImplicit false

namespace ActiveRmt

/-! ### Source programs -/

/-- A parameter of a line. -/
inductive Param
  /-- `:name` -/
  | label (name : String)
  /-- `@name` -/
  | reference (name : String)
  /-- `$name` -/
  | argument (name : String)
  /-- Anything else. -/
  | other
  deriving DecidableEq

/-- A line of a source program. -/
structure SourceLine where
  /-- The instruction. -/
  opcode : Pnemonic
  /-- The first parameter. -/
  param1 : Option Param
  /-- The second parameter. -/
  param2 : Option Param
  deriving DecidableEq

/-- The first register in the name of an instruction, or the one of `access_write`. -/
def registerOf : Pnemonic → Option Register
  | .marLoad | .marAddMbr | .marAddMbr2 | .marMbrAddMbr2 | .bitAndMarMbr | .copyMarMbr | .hash =>
      some .mar
  | .mbr2Load | .copyMbr2Mbr | .copyHashdataMbr2 | .revmin => some .mbr2
  | .mbrLoad | .mbrStore | .mbrEqualsMbr2 | .mbrEqualsData0 | .mbrEqualsData1 | .mbrEqualsData2
  | .mbrEqualsData3 | .swapMbrMbr2 | .mbrNot | .mbrSubtractMbr2 | .mbrAddMbr2 | .bitOrMbrMbr2
  | .copyMbrMbr2 | .copyMbrMar | .copyHashdataMbr | .mbrStoreAlt | .mbrStoreAlt2 | .min | .max
  | .loadQdelay | .loadQueue => some .mbr
  | _ => none

/-- The name contains `MEM`. -/
def Pnemonic.isMem : Pnemonic → Bool
  | .memWrite | .memRead | .memIncrement | .memMinread | .memMinreadinc | .memWriteCondzero => true
  | _ => false

/-- The name contains `LOAD`. -/
def Pnemonic.isLoad : Pnemonic → Bool
  | .mbrLoad | .mbr2Load | .marLoad | .loadSalt | .loadTcp5tuple | .loadQdelay | .loadQueue
  | .loadPktcount => true
  | _ => false

/-- `IG_ONLY`. -/
def igOnly : List Pnemonic := [.setDst, .rts, .crts]

/-- What the compiler has seen of a program. -/
structure Scan where
  /-- `reg_load`: the first load of a register, its argument, and whether the register was
  mentioned before. -/
  regLoad : Register → Option (ℕ × Option Param × Bool)
  /-- `referenced_regs`. -/
  referencedRegs : Register → Bool
  /-- `memidx`. -/
  memidx : List ℕ
  /-- `iglim`. -/
  iglim : ℤ

/-- One line of the scan. -/
def scanLine (s : Scan) (line : SourceLine × ℕ) : Scan :=
  let opcode := line.1.opcode
  let i := line.2
  let s := if opcode.isMem then { s with memidx := s.memidx ++ [i] }
    else match registerOf opcode with
      | none => s
      | some reg =>
          let load := (i, line.1.param1, s.referencedRegs reg)
          let s := if opcode.isLoad && (s.regLoad reg).isNone then
              { s with regLoad := Function.update s.regLoad reg (some load) }
            else s
          { s with referencedRegs := Function.update s.referencedRegs reg true }
  if opcode ∈ igOnly then { s with iglim := max s.iglim i } else s

/-- **The scan of a program.** -/
def scan (program : List SourceLine) : Scan :=
  program.zipIdx.foldl scanLine ⟨fun _ => none, fun _ => false, [], -1⟩

/-! ### Assembly -/

/-- `ActiveInstruction`: the name and the label bit. -/
structure ActiveInstruction where
  /-- The instruction. -/
  opcode : Pnemonic
  /-- The label bit. -/
  goto : Bool
  deriving DecidableEq

/-- The bytes of an instruction. -/
def ActiveInstruction.getBytes (instr : ActiveInstruction) : ActiveInstr :=
  ⟨BitVec.ofNat 8 instr.goto.toNat, BitVec.ofNat 8 ((pnemonicToOpcode instr.opcode).getD 0)⟩

/-- A parameter, given the labels behind the line; an unknown label raises an exception. -/
def resolve (labels : List String) (label : Bool) : Option Param → Option (List String × Bool)
  | some (.label name) => some (name :: labels, true)
  | some (.reference name) => if name ∈ labels then some (labels, true) else none
  | _ => some (labels, label)

/-- The instructions of a program, last line first. -/
def assemble : List SourceLine → Option (List String × List ActiveInstruction)
  | [] => some ([], [⟨.eof, false⟩])
  | line :: program => do
      let (labels, buffer) ← assemble program
      let (labels, label) ← resolve labels false line.param1
      let (labels, label) ← resolve labels label line.param2
      pure (labels, ⟨line.opcode, label⟩ :: buffer)

/-- The register whose name stands before `_LOAD`. -/
def loadedRegister : Pnemonic → Option Register
  | .marLoad => some .mar
  | .mbrLoad => some .mbr
  | .mbr2Load => some .mbr2
  | _ => none

/-- The optimiser leaves this instruction out. -/
def isSkipped (regLoad : Register → Option (ℕ × Option Param × Bool)) (skipped : Register → Bool)
    (opcode : Pnemonic) : Option Register :=
  (loadedRegister opcode).filter fun reg =>
    ((regLoad reg).any fun load => !load.2.2) && !skipped reg

/-- **The optimiser.** -/
def skipLoads (regLoad : Register → Option (ℕ × Option Param × Bool)) :
    (Register → Bool) → List ActiveInstruction → List ActiveInstruction
  | _, [] => []
  | skipped, instr :: buffer =>
      match isSkipped regLoad skipped instr.opcode with
      | some reg => skipLoads regLoad (Function.update skipped reg true) buffer
      | none => instr :: skipLoads regLoad skipped buffer

/-- The address translation for a memory access; there is none for an instruction that is one
already. -/
def addressAt (memIdx : ℕ) : Pnemonic → Option Pnemonic
  | .addrMask => if h : memIdx < 20 then some (.addrMaskAt ⟨memIdx, h⟩) else none
  | .addrOffset => if h : memIdx < 20 then some (.addrOffsetAt ⟨memIdx, h⟩) else none
  | _ => none

/-- The name contains `ADDR`. -/
def Pnemonic.isAddr : Pnemonic → Bool
  | .addrMask | .addrOffset | .addrMaskAt _ | .addrOffsetAt _ => true
  | _ => false

/-- The address translations are bound to the memory access behind them, from the last instruction
to the one at position `i`. -/
def bindAddresses : ℕ → List ActiveInstruction → Option (Option ℕ × List ActiveInstruction)
  | _, [] => some (none, [])
  | i, instr :: program => do
      let (memIdx, program) ← bindAddresses (i + 1) program
      if instr.opcode.isMem then pure (some i, instr :: program)
      else if instr.opcode.isAddr then
        match memIdx with
        | none => pure (none, instr :: program)
        | some m => do
            let opcode ← addressAt m instr.opcode
            pure (some m, { instr with opcode := opcode } :: program)
      else pure (memIdx, instr :: program)

/-- The instructions that are kept of a buffer. -/
def kept (program : List SourceLine) (optimize : Bool) (buffer : List ActiveInstruction) :
    List ActiveInstruction :=
  if optimize then skipLoads (scan program).regLoad (fun _ => false) buffer else buffer

/-- **`ActiveProgram`.** -/
def activeProgram (program : List SourceLine) (optimize : Bool) : Option (List ActiveInstruction) :=
  do
    let (_, buffer) ← assemble program
    let (_, compiled) ← bindAddresses 0 (kept program optimize buffer)
    pure compiled

/-- `getByteCode`. -/
def getByteCode (program : List SourceLine) (optimize : Bool) : Option (List ActiveInstr) :=
  (activeProgram program optimize).map fun compiled => compiled.map ActiveInstruction.getBytes

/-- A line without its labels. -/
def SourceLine.unlabelled (line : SourceLine) : ActiveInstruction := ⟨line.opcode, false⟩

/-- **The position of line `i`**: the number of instructions that are kept of the lines before it. -/
def position (program : List SourceLine) (optimize : Bool) (i : ℕ) : ℕ :=
  (kept program optimize ((program.take i).map SourceLine.unlabelled)).length

/-! ### Positions -/

section Positions

variable {regLoad : Register → Option (ℕ × Option Param × Bool)} {skipped : Register → Bool}

/-- The optimiser looks at the names only. -/
theorem length_skipLoads_congr {xs ys : List ActiveInstruction}
    (h : xs.map (·.opcode) = ys.map (·.opcode)) :
    (skipLoads regLoad skipped xs).length = (skipLoads regLoad skipped ys).length := by
  induction xs generalizing ys skipped with
  | nil =>
      rw [List.map_nil, eq_comm, List.map_eq_nil_iff] at h
      rw [h]
  | cons x xs ih =>
      cases ys with
      | nil => simp at h
      | cons y ys =>
          obtain ⟨hxy, hrest⟩ : x.opcode = y.opcode ∧ xs.map (·.opcode) = ys.map (·.opcode) := by
            simpa using h
          unfold skipLoads
          rw [hxy]
          cases isSkipped regLoad skipped y.opcode with
          | some reg => exact ih hrest
          | none => exact congrArg (· + 1) (ih hrest)

/-- An instruction more. -/
theorem length_skipLoads_concat (xs : List ActiveInstruction) (x : ActiveInstruction) :
    ∃ d ≤ 1, (skipLoads regLoad skipped (xs ++ [x])).length =
      (skipLoads regLoad skipped xs).length + d ∧ (loadedRegister x.opcode = none → d = 1) := by
  induction xs generalizing skipped with
  | nil =>
      rw [List.nil_append]
      unfold skipLoads
      cases hs : isSkipped regLoad skipped x.opcode with
      | some reg =>
          refine ⟨0, Nat.zero_le 1, rfl, fun h => ?_⟩
          rw [isSkipped, h] at hs
          exact absurd hs (by simp)
      | none => exact ⟨1, le_rfl, rfl, fun _ => rfl⟩
  | cons y xs ih =>
      rw [List.cons_append]
      unfold skipLoads
      cases isSkipped regLoad skipped y.opcode with
      | some reg => exact ih
      | none =>
          obtain ⟨d, hd, hlen, hload⟩ := @ih skipped
          refine ⟨d, hd, ?_, hload⟩
          dsimp only
          rw [List.length_cons, List.length_cons, hlen]
          omega

variable {program : List SourceLine} {optimize : Bool}

theorem length_kept_concat (program : List SourceLine) (optimize : Bool)
    (xs : List ActiveInstruction) (x : ActiveInstruction) :
    ∃ d ≤ 1, (kept program optimize (xs ++ [x])).length = (kept program optimize xs).length + d ∧
      (loadedRegister x.opcode = none → d = 1) := by
  unfold kept
  split_ifs
  · exact length_skipLoads_concat xs x
  · exact ⟨1, le_rfl, by simp, fun _ => rfl⟩

/-- The next line is at the same position or the next one. -/
theorem position_succ (optimize : Bool) {i : ℕ} {line : SourceLine} (hi : program[i]? = some line) :
    ∃ d ≤ 1, position program optimize (i + 1) = position program optimize i + d ∧
      (loadedRegister line.opcode = none → d = 1) := by
  have htake : program.take (i + 1) = program.take i ++ [line] := by
    rw [List.take_add_one, hi]
    rfl
  unfold position
  rw [htake, List.map_append]
  exact length_kept_concat program optimize _ _

theorem position_mono {i k : ℕ} (hik : i ≤ k) (hk : k ≤ program.length) :
    position program optimize i ≤ position program optimize k := by
  induction k, hik using Nat.le_induction with
  | base => exact le_rfl
  | succ k hik ih =>
      obtain ⟨d, _, hd, _⟩ := position_succ optimize
        (List.getElem?_eq_getElem (show k < program.length by omega))
      have := ih (by omega)
      omega

theorem opcode_assemble {labels : List String} {buffer : List ActiveInstruction}
    (h : assemble program = some (labels, buffer)) :
    buffer.map (·.opcode) = program.map (·.opcode) ++ [.eof] := by
  induction program generalizing labels buffer with
  | nil =>
      obtain ⟨_, rfl⟩ : [] = labels ∧ [⟨.eof, false⟩] = buffer := by simpa [assemble] using h
      rfl
  | cons line program ih =>
      simp only [assemble, Option.bind_eq_bind, Option.bind_eq_some_iff, Option.pure_def,
        Option.some.injEq, Prod.mk.injEq, Prod.exists] at h
      obtain ⟨labels₀, buffer₀, h₀, _, _, _, _, _, _, _, rfl⟩ := h
      rw [List.map_cons, ih h₀]
      rfl

theorem length_bindAddresses {i : ℕ} {xs ys : List ActiveInstruction} {memIdx : Option ℕ}
    (h : bindAddresses i xs = some (memIdx, ys)) : ys.length = xs.length := by
  induction xs generalizing i ys memIdx with
  | nil =>
      obtain ⟨_, rfl⟩ : none = memIdx ∧ [] = ys := by simpa [bindAddresses] using h
      rfl
  | cons x xs ih =>
      simp only [bindAddresses, Option.bind_eq_bind, Option.bind_eq_some_iff, Prod.exists] at h
      obtain ⟨memIdx₀, ys₀, h₀, h⟩ := h
      have hlen := ih h₀
      split_ifs at h
      · obtain ⟨_, rfl⟩ : some i = memIdx ∧ x :: ys₀ = ys := by simpa using h
        rw [List.length_cons, hlen, List.length_cons]
      · cases memIdx₀ with
        | none =>
            obtain ⟨_, rfl⟩ : none = memIdx ∧ x :: ys₀ = ys := by simpa using h
            rw [List.length_cons, hlen, List.length_cons]
        | some m =>
            obtain ⟨opcode, _, h⟩ := Option.bind_eq_some_iff.1 h
            obtain ⟨_, rfl⟩ : some m = memIdx ∧ _ :: ys₀ = ys := by simpa using h
            rw [List.length_cons, hlen, List.length_cons]
      · obtain ⟨_, rfl⟩ : memIdx₀ = memIdx ∧ x :: ys₀ = ys := by simpa using h
        rw [List.length_cons, hlen, List.length_cons]

/-- The end of a program stands behind its lines. -/
theorem length_getByteCode {code : List ActiveInstr} (h : getByteCode program optimize = some code) :
    code.length = position program optimize program.length + 1 := by
  obtain ⟨compiled, hcompiled, rfl⟩ := Option.map_eq_some_iff.1 h
  simp only [activeProgram, Option.bind_eq_bind, Option.bind_eq_some_iff, Option.pure_def,
    Option.some.injEq, Prod.exists] at hcompiled
  obtain ⟨labels, buffer, hbuffer, _, _, hbind, rfl⟩ := hcompiled
  rw [List.length_map, length_bindAddresses hbind]
  have hop := opcode_assemble hbuffer
  have hcongr : (kept program optimize buffer).length = (kept program optimize
      (program.map SourceLine.unlabelled ++ [⟨.eof, false⟩])).length := by
    have hmap : buffer.map (·.opcode) =
        (program.map SourceLine.unlabelled ++ [(⟨.eof, false⟩ : ActiveInstruction)]).map
          (·.opcode) := by
      rw [hop, List.map_append, List.map_map]
      rfl
    unfold kept
    split_ifs
    · exact length_skipLoads_congr hmap
    · simpa using congrArg List.length hmap
  obtain ⟨d, _, hd, hone⟩ := length_kept_concat program optimize
    (program.map SourceLine.unlabelled) ⟨.eof, false⟩
  rw [hcongr, hd, hone rfl, position, List.take_length]

end Positions

/-! ### Jumps -/

/-- The line refers to a label. -/
def SourceLine.RefersTo (line : SourceLine) (name : String) : Prop :=
  line.param1 = some (.reference name) ∨ line.param2 = some (.reference name)

/-- The line carries a label. -/
def SourceLine.Carries (line : SourceLine) (name : String) : Prop :=
  line.param1 = some (.label name) ∨ line.param2 = some (.label name)

/-- **Line `i` jumps to a label on the later line `t`.** -/
structure JumpTo (program : List SourceLine) (i t : ℕ) : Prop where
  /-- It is a jump, to a label. -/
  jump : ∃ line name target, program[i]? = some line ∧ line.opcode ∈ [.cjump, .cjumpi, .ujump] ∧
    line.RefersTo name ∧ program[t]? = some target ∧ target.Carries name
  /-- The label is behind it. -/
  forward : i < t

/-- The jump at a lookup is taken. -/
def Lookup.Jumps (e : Lookup) : Prop := e.before.disabled = false ∧ e.after.disabled = true

/-- **A jump at position `j` lands**: before position `b` no instruction is enabled, and from
position `a` on every instruction is, until another jump is taken or the program completes. -/
def Lands (run : List Lookup) (length j b a : ℕ) : Prop :=
  (∀ k, j < k → k < b → ∀ e, run[k]? = some e → e.before.disabled = true) ∧
    ∀ k, a ≤ k → k < length → ∀ e, run[k]? = some e → e.before.complete = false →
      (∀ m, j < m → m < k → ∀ e', run[m]? = some e' → ¬ e'.Jumps) → e.before.disabled = false

/-- An instruction with the label bit that has an entry to rejoin with, for the registers of `σ`. -/
def Rejoins (sw : Switch) (code : List ActiveInstr) (σ : PacketState) (m : ℕ) : Prop :=
  ∃ c, code[m]? = some c ∧ c.goto = true ∧ (sw.lookup (stageOf m) (σ.key c)).isSome = true

/-- **The instructions behind a jump rejoin at the label**, and not before. -/
def RejoinsAtLabel (sw : Switch) (code : List ActiveInstr) (σ : PacketState) (j b a : ℕ) : Prop :=
  (∀ m, j < m → m + 1 < b → ¬ Rejoins sw code σ m) ∧
    ∃ m, j < m ∧ b ≤ m + 1 ∧ m < a ∧ Rejoins sw code σ m

section Jumps

variable {env : Environment} {sw : Switch} {pkt : Arrival} {code : List ActiveInstr}

/-- Enabling a disabled program, or not. -/
def PacketState.rejoin (σ : PacketState) (b : Bool) : PacketState :=
  { σ with disabled := σ.disabled && !b }

@[simp] theorem PacketState.rejoin_false (σ : PacketState) : σ.rejoin false = σ := by
  rw [PacketState.rejoin, Bool.not_false, Bool.and_true]

/-- What a disabled program does. -/
theorem slot_disabled (hsw : sw.Equipped) {i : Stage} {c : ActiveInstr} {σ : PacketState}
    (hd : σ.disabled = true) :
    slot env sw i c σ = σ.rejoin (c.goto && (sw.lookup i (σ.key c)).isSome) := by
  unfold slot
  cases hl : sw.lookup i (σ.key c) with
  | none => simp
  | some a =>
      rcases hsw.action_of_lookup hl with ⟨_, _, rfl⟩ | ⟨hd', _⟩
      · simp [exec, PacketState.rejoin, hd]
      · exact absurd (hd'.symm.trans hd) (by decide)

theorem action_of_opcode_zero : ∀ act ∈ instructionSet, act.opcode = 0 →
    act.action = some .markTermination := by
  decide +kernel

/-- A program that jumps has not completed. -/
theorem slot_jumps (hsw : sw.Equipped) {i : Stage} {c : ActiveInstr} {σ : PacketState}
    (hd : σ.disabled = false) (h : (slot env sw i c σ).disabled = true) :
    (slot env sw i c σ).complete = false := by
  unfold slot at h ⊢
  cases hl : sw.lookup i (σ.key c) with
  | none => rw [hl] at h; exact absurd (hd.symm.trans h) (by decide)
  | some a =>
      rw [hl] at h
      dsimp only at h ⊢
      rw [exec_disabled] at h
      rcases hsw.action_of_lookup hl with ⟨hd', _⟩ | ⟨_, act, hset, _, hcomplete, ha⟩
      · exact absurd (hd'.symm.trans hd) (by decide)
      · rcases ha with ha | ⟨_, _, ha⟩
        · have hjump : a.1 = .jump := by
            by_contra hne
            rw [if_neg hne, hd] at h
            split_ifs at h with hr
            have key : ∀ act ∈ instructionSet, act.action ≠ some .attemptRejoin := by decide +kernel
            exact key act hset (ha.symm.trans (congrArg some hr))
          rw [exec_complete, hjump]
          cases hc : σ.complete with
          | false => rfl
          | true =>
              rw [action_of_opcode_zero act hset (hcomplete hc), hjump] at ha
              exact absurd ha (by decide)
        · rw [ha, if_neg (by decide), if_neg (by decide), hd] at h
          exact absurd h Bool.false_ne_true

theorem Carried.key {σ τ : PacketState} (h : Carried σ τ) (c : ActiveInstr) : τ.key c = σ.key c := by
  simp [PacketState.key, h.fid, h.complete, h.disabled, h.mbr, h.mar]

variable {j k m : ℕ} {e e' : Lookup}

/-- **As long as nothing rejoins**, nothing happens behind a jump. -/
theorem carried_of_not_rejoins (hsw : sw.Equipped) (h : Carries sw pkt code)
    (he : (process env sw pkt).1[j]? = some e) (hjump : e.Jumps) (hjk : j < k)
    (hk : k < code.length) (he' : (process env sw pkt).1[k]? = some e')
    (hnot : ∀ m, j < m → m < k → ¬ Rejoins sw code e.after m) : Carried e.after e'.before := by
  have hthreads := process_threads env sw pkt
  induction k, hjk using Nat.le_induction generalizing e' with
  | base => exact hthreads.step he he'
  | succ k hjk ih =>
      have hlt := (List.getElem?_eq_some_iff.1 he').1
      obtain ⟨e₀, he₀⟩ : ∃ e₀, (process env sw pkt).1[k]? = some e₀ :=
        ⟨_, List.getElem?_eq_getElem (by omega)⟩
      have hc := ih (by omega) he₀ fun m hm hmk => hnot m hm (by omega)
      obtain ⟨hs, hi⟩ := h.process_lookup (by omega) he₀
      have hno : (e₀.instr.goto && (sw.lookup e₀.stage (e₀.before.key e₀.instr)).isSome) = false := by
        rw [← Bool.not_eq_true, Bool.and_eq_true]
        intro ⟨hgoto, hhit⟩
        rw [hc.key, hs] at hhit
        exact hnot k hjk (by omega) ⟨_, hi, hgoto, hhit⟩
      have hafter : e₀.after = e₀.before := by
        rw [hthreads.after_eq (List.mem_of_getElem? he₀),
          slot_disabled hsw (hc.disabled.trans hjump.2), hno, PacketState.rejoin_false]
      exact hc.trans (hafter ▸ hthreads.step he₀ he')

/-- **The first instruction that rejoins** enables the program. -/
theorem enabled_of_rejoins (hsw : sw.Equipped) (h : Carries sw pkt code)
    (he : (process env sw pkt).1[j]? = some e) (hjump : e.Jumps) (hjm : j < m)
    (hnot : ∀ m', j < m' → m' < m → ¬ Rejoins sw code e.after m') (hm : Rejoins sw code e.after m)
    (he' : (process env sw pkt).1[m + 1]? = some e') : e'.before.disabled = false := by
  have hthreads := process_threads env sw pkt
  obtain ⟨c, hc, hgoto, hhit⟩ := hm
  have hmlen := (List.getElem?_eq_some_iff.1 hc).1
  have hlt := (List.getElem?_eq_some_iff.1 he').1
  obtain ⟨e₀, he₀⟩ : ∃ e₀, (process env sw pkt).1[m]? = some e₀ :=
    ⟨_, List.getElem?_eq_getElem (by omega)⟩
  have hcarried := carried_of_not_rejoins hsw h he hjump hjm hmlen he₀ hnot
  obtain ⟨hs, hi⟩ := h.process_lookup hmlen he₀
  obtain rfl : c = e₀.instr := Option.some.inj (hc.symm.trans hi)
  rw [(hthreads.step he₀ he').disabled, hthreads.after_eq (List.mem_of_getElem? he₀),
    slot_disabled hsw (hcarried.disabled.trans hjump.2), hcarried.key, hs, hgoto, hhit]
  simp [PacketState.rejoin]

/-- **An enabled program stays enabled** until a jump is taken. -/
theorem enabled_of_not_jumps (hmk : m ≤ k) {e₀ : Lookup}
    (he₀ : (process env sw pkt).1[m]? = some e₀) (hd : e₀.before.disabled = false)
    (he' : (process env sw pkt).1[k]? = some e')
    (hnot : ∀ m', m ≤ m' → m' < k → ∀ e, (process env sw pkt).1[m']? = some e → ¬ e.Jumps) :
    e'.before.disabled = false := by
  have hthreads := process_threads env sw pkt
  induction k, hmk using Nat.le_induction generalizing e' with
  | base => exact Option.some.inj (he₀.symm.trans he') ▸ hd
  | succ k hmk ih =>
      have hlt := (List.getElem?_eq_some_iff.1 he').1
      obtain ⟨e₁, he₁⟩ : ∃ e₁, (process env sw pkt).1[k]? = some e₁ :=
        ⟨_, List.getElem?_eq_getElem (by omega)⟩
      have hd₁ := ih he₁ fun m' hm hk => hnot m' hm (by omega)
      rw [(hthreads.step he₁ he').disabled, ← Bool.not_eq_true]
      exact fun hafter => hnot k hmk (by omega) e₁ he₁ ⟨hd₁, hafter⟩

/-- **The first one that rejoins** behind a jump, if any does. -/
theorem exists_first_rejoins {σ : PacketState} (hm : j < m ∧ Rejoins sw code σ m) :
    ∃ m₀, j < m₀ ∧ m₀ ≤ m ∧ Rejoins sw code σ m₀ ∧
      ∀ m', j < m' → m' < m₀ → ¬ Rejoins sw code σ m' := by
  classical
  have hex : ∃ m, j < m ∧ Rejoins sw code σ m := ⟨m, hm⟩
  obtain ⟨hlt, hrejoins⟩ := Nat.find_spec hex
  exact ⟨Nat.find hex, hlt, Nat.find_min' hex hm, hrejoins,
    fun m' hm' hlt hr => Nat.find_min hex hlt ⟨hm', hr⟩⟩

variable {a b : ℕ}

theorem lands_of_rejoinsAtLabel (hsw : sw.Equipped) (h : Carries sw pkt code)
    (he : (process env sw pkt).1[j]? = some e) (hjump : e.Jumps) (hb : b ≤ code.length)
    (hrejoins : RejoinsAtLabel sw code e.after j b a) :
    Lands (process env sw pkt).1 code.length j b a := by
  obtain ⟨hbefore, m, hjm, hbm, hma, hm⟩ := hrejoins
  refine ⟨fun k hjk hkb e' he' => ?_, fun k hak hk e' he' _ hnot => ?_⟩
  · have hc := carried_of_not_rejoins hsw h he hjump hjk (by omega) he' fun m hm hmk =>
      hbefore m hm (by omega)
    exact hc.disabled.trans hjump.2
  · obtain ⟨m₀, hjm₀, hle, hm₀, hfirst⟩ := exists_first_rejoins ⟨hjm, hm⟩
    have hlt := (List.getElem?_eq_some_iff.1 he').1
    obtain ⟨e₁, he₁⟩ : ∃ e₁, (process env sw pkt).1[m₀ + 1]? = some e₁ :=
      ⟨_, List.getElem?_eq_getElem (by omega)⟩
    exact enabled_of_not_jumps (by omega) he₁
      (enabled_of_rejoins hsw h he hjump hjm₀ hfirst hm₀ he₁) he'
      fun m' hm' hm'k => hnot m' (by omega) hm'k

theorem rejoinsAtLabel_of_lands (hsw : sw.Equipped) (h : Carries sw pkt code)
    (he : (process env sw pkt).1[j]? = some e) (hjump : e.Jumps) (hja : j < a) (hba : b ≤ a)
    (ha : a < code.length) (hreached : a < (process env sw pkt).1.length)
    (hlands : Lands (process env sw pkt).1 code.length j b a) :
    RejoinsAtLabel sw code e.after j b a := by
  have hthreads := process_threads env sw pkt
  have hbefore : ∀ m, j < m → m + 1 < b → ¬ Rejoins sw code e.after m := by
    intro m hjm hmb hm
    obtain ⟨m₀, hjm₀, hle, hm₀, hfirst⟩ := exists_first_rejoins ⟨hjm, hm⟩
    obtain ⟨e₁, he₁⟩ : ∃ e₁, (process env sw pkt).1[m₀ + 1]? = some e₁ :=
      ⟨_, List.getElem?_eq_getElem (by omega)⟩
    have hfalse := enabled_of_rejoins hsw h he hjump hjm₀ hfirst hm₀ he₁
    exact absurd ((hlands.1 (m₀ + 1) (by omega) (by omega) e₁ he₁).symm.trans hfalse) (by decide)
  refine ⟨hbefore, ?_⟩
  by_contra hnone
  -- nothing rejoins, so that the program is disabled at position `a`
  have hnot : ∀ m, j < m → m < a → ¬ Rejoins sw code e.after m := by
    intro m hjm hma hm
    rcases Nat.lt_or_ge (m + 1) b with hmb | hmb
    · exact hbefore m hjm hmb hm
    · exact hnone ⟨m, hjm, hmb, hma, hm⟩
  have hcarried : ∀ k, j < k → k ≤ a → ∀ e', (process env sw pkt).1[k]? = some e' →
      Carried e.after e'.before := fun k hjk hka e' he' =>
    carried_of_not_rejoins hsw h he hjump hjk (by omega) he' fun m hm hmk => hnot m hm (by omega)
  obtain ⟨e', he'⟩ : ∃ e', (process env sw pkt).1[a]? = some e' :=
    ⟨_, List.getElem?_eq_getElem hreached⟩
  have hafter := hthreads.after_eq (List.mem_of_getElem? he)
  have hcomplete : e.after.complete = false := by
    rw [hafter]
    exact slot_jumps hsw hjump.1 (by rw [← hafter]; exact hjump.2)
  have hd := hlands.2 a le_rfl ha e' he' ((hcarried a hja le_rfl e' he').complete.trans hcomplete)
    fun m hjm hma e₁ he₁ hjumps => by
      have := (hcarried m hjm hma.le e₁ he₁).disabled.trans hjump.2
      exact absurd (hjumps.1.symm.trans this) (by decide)
  exact absurd (hd.symm.trans ((hcarried a hja le_rfl e' he').disabled.trans hjump.2)) (by decide)

/-- **A forward jump lands at its label** if the instructions behind it rejoin there and not before,
and, when the instruction behind the label is reached, only then. -/
theorem jump_lands (hsw : sw.Equipped) {program : List SourceLine} {optimize : Bool}
    (hcode : getByteCode program optimize = some code) (h : Carries sw pkt code) {i t : ℕ}
    (hjumpTo : JumpTo program i t)
    (he : (process env sw pkt).1[position program optimize i]? = some e) (hjump : e.Jumps) :
    (RejoinsAtLabel sw code e.after (position program optimize i) (position program optimize t)
        (position program optimize (t + 1)) →
      Lands (process env sw pkt).1 code.length (position program optimize i)
        (position program optimize t) (position program optimize (t + 1))) ∧
    (position program optimize (t + 1) < (process env sw pkt).1.length →
      Lands (process env sw pkt).1 code.length (position program optimize i)
        (position program optimize t) (position program optimize (t + 1)) →
      RejoinsAtLabel sw code e.after (position program optimize i) (position program optimize t)
        (position program optimize (t + 1))) := by
  obtain ⟨line, _, target, hline, hop, _, htarget, _⟩ := hjumpTo.jump
  have hlength := length_getByteCode hcode
  have ht := (List.getElem?_eq_some_iff.1 htarget).1
  obtain ⟨d, _, hd, hone⟩ := position_succ optimize hline
  obtain ⟨d', _, hd', _⟩ := position_succ optimize htarget
  have hloaded : loadedRegister line.opcode = none := by
    simp only [List.mem_cons, List.not_mem_nil, or_false] at hop
    rcases hop with hop | hop | hop <;> rw [hop] <;> rfl
  have hit : position program optimize (i + 1) ≤ position program optimize t :=
    position_mono hjumpTo.forward (by omega)
  have hend : position program optimize (t + 1) ≤ position program optimize program.length :=
    position_mono ht le_rfl
  have := hone hloaded
  exact ⟨lands_of_rejoinsAtLabel hsw h he hjump (by omega),
    rejoinsAtLabel_of_lands hsw h he hjump (by omega) (by omega) (by omega)⟩

end Jumps

/-- A line without parameters. -/
def plain (opcode : Pnemonic) : SourceLine := ⟨opcode, none, none⟩

/-- A line with one parameter. -/
def withParam (opcode : Pnemonic) (param : Param) : SourceLine := ⟨opcode, some param, none⟩

/-- A packet of function one with a program. -/
def packetWith (code : List ActiveInstr) : Arrival :=
  { state := blankState 1, words := code, flagPreload := true, flagAllocated := false
    flagInitiated := false }

/-- One jump over an instruction. -/
def oneJump : List SourceLine :=
  [withParam .ujump (.reference "A"), plain .mbrNot, withParam .nop (.label "A"), plain .return_]

/-- Two jumps that overlap. -/
def overlappingJumps : List SourceLine :=
  [withParam .ujump (.reference "A"), withParam .ujump (.reference "B"), plain .mbrNot,
    withParam .nop (.label "A"), withParam .nop (.label "B"), plain .return_]

/-- The bytes of `oneJump`. -/
def oneJumpCode : List ActiveInstr := [⟨1, 10⟩, ⟨0, 26⟩, ⟨1, 1⟩, ⟨0, 2⟩, ⟨0, 0⟩]

/-- The bytes of `overlappingJumps`. -/
def overlappingCode : List ActiveInstr :=
  [⟨1, 10⟩, ⟨1, 10⟩, ⟨0, 26⟩, ⟨1, 1⟩, ⟨1, 1⟩, ⟨0, 2⟩, ⟨0, 0⟩]

/-- A jump over an instruction reaches its label. -/
theorem jump_lands_oneJump :
    ∃ e, (process quietEnvironment Switch.init (packetWith oneJumpCode)).1[0]? = some e ∧ e.Jumps ∧
      Lands (process quietEnvironment Switch.init (packetWith oneJumpCode)).1 5 0 2 3 := by
  have hjumps : (process quietEnvironment Switch.init (packetWith oneJumpCode)).1[0]?.any
      (fun e => !e.before.disabled && e.after.disabled &&
        (Switch.init.lookup (stageOf 2) (e.after.key ⟨1, 1⟩)).isSome) = true := by decide +kernel
  obtain ⟨e, he, hany⟩ := (Option.any_eq_true _ _).1 hjumps
  rw [Bool.and_eq_true, Bool.and_eq_true, Bool.not_eq_true'] at hany
  have hcode : getByteCode oneJump true = some oneJumpCode := by decide +kernel
  have hcarries : Carries Switch.init (packetWith oneJumpCode) oneJumpCode :=
    ⟨⟨oneJumpCode.dropLast, ⟨0, 0⟩, rfl, rfl, by decide⟩, by decide, ⟨[], rfl⟩, rfl, rfl⟩
  have hto : JumpTo oneJump 0 2 :=
    ⟨⟨withParam .ujump (.reference "A"), "A", withParam .nop (.label "A"), rfl, by decide, .inl rfl,
      rfl, .inl rfl⟩, by decide⟩
  have h0 : position oneJump true 0 = 0 := by decide +kernel
  have h2 : position oneJump true 2 = 2 := by decide +kernel
  have h3 : position oneJump true (2 + 1) = 3 := by decide +kernel
  have hlands := jump_lands Switch.equipped_init hcode hcarries hto (by rw [h0]; exact he) hany.1
  rw [h0, h2, h3] at hlands
  refine ⟨e, he, hany.1, hlands.1 ⟨fun m hm hlt => by omega, ?_⟩⟩
  exact ⟨2, by decide, by decide, by decide, ⟨1, 1⟩, rfl, by decide, hany.2⟩

/-- **Two jumps that overlap.**  The second one has the label bit, so that the first one lands there,
and the instruction between it and its label is executed. -/
theorem jump_lands_overlapping :
    getByteCode overlappingJumps true = some overlappingCode ∧
      Carries Switch.init (packetWith overlappingCode) overlappingCode ∧
      JumpTo overlappingJumps 0 3 ∧ position overlappingJumps true 0 = 0 ∧
      ∃ e, (process quietEnvironment Switch.init (packetWith overlappingCode)).1[0]? = some e ∧
        e.Jumps ∧ ¬ Lands (process quietEnvironment Switch.init (packetWith overlappingCode)).1
          overlappingCode.length 0 (position overlappingJumps true 3)
          (position overlappingJumps true 4) := by
  refine ⟨by decide +kernel,
    ⟨⟨overlappingCode.dropLast, ⟨0, 0⟩, rfl, rfl, by decide⟩, by decide, ⟨[], rfl⟩, rfl, rfl⟩,
    ⟨⟨withParam .ujump (.reference "A"), "A", withParam .nop (.label "A"), rfl, by decide, .inl rfl,
      rfl, .inl rfl⟩, by decide⟩, by decide +kernel, ?_⟩
  have hjumps : (process quietEnvironment Switch.init (packetWith overlappingCode)).1[0]?.any
      (fun e => !e.before.disabled && e.after.disabled) = true := by decide +kernel
  obtain ⟨e, he, hany⟩ := (Option.any_eq_true _ _).1 hjumps
  rw [Bool.and_eq_true, Bool.not_eq_true'] at hany
  refine ⟨e, he, hany, fun hlands => ?_⟩
  have henabled : (process quietEnvironment Switch.init (packetWith overlappingCode)).1[2]?.any
      (fun e => !e.before.disabled) = true := by decide +kernel
  obtain ⟨e', he', hany'⟩ := (Option.any_eq_true _ _).1 henabled
  have hd := hlands.1 2 (by decide) (by decide +kernel) e' he'
  rw [hd] at hany'
  exact absurd hany' (by decide)

end ActiveRmt
