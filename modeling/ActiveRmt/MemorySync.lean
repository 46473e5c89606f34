/-
**The programs that read and write one word of memory.**

A client that has to move reads its memory word by word, and writes it back at its new place.  For
this it generates, per stage, a program with one memory access at the position of the stage.  The
program that reads also sends the packet back and stores the word in the data of the packet.

The loop that generates a program leaves no room at the last stage: there it ends without a memory
access.

Main definitions:

* `constructMemsyncProgram`, `constructMemsetProgram` — the two generators;
* `SyncRun` — a packet with such a program, in the tables of a function with memory at the stage;
* `ReadsWord`, `WritesWord` — what the programs of a stage are for.

Main results:

* `memory_sync_iff` — **the programs of a stage do what they are for, unless it is the last one**;
* `memory_sync_last_stage` — a packet at the last stage.
-/

import ActiveRmt.Execution

set_option relaxedAutoImplicit false
set_option autoImplicit false

namespace ActiveRmt

/-! ### The generators -/

/-- `pnemonic_to_opcode`: the first row with the name. -/
def pnemonicToOpcode (p : Pnemonic) : Option ℕ :=
  opcodeActionMapping.findIdx? fun row => decide (row.pnemonic = p)

/-- A program of the client as it is generated: its instructions and its length. -/
structure ClientProgram where
  /-- The instructions. -/
  code : List ActiveInstr
  /-- The length. -/
  proglen : ℕ
  deriving DecidableEq

/-- `add_instruction`; it asserts that the name is known. -/
def addInstruction (p : Pnemonic) (program : ClientProgram) : Option ClientProgram :=
  (pnemonicToOpcode p).map fun opcode =>
    { code := program.code ++ [⟨0, BitVec.ofNat 8 opcode⟩], proglen := program.proglen + 1 }

/-- The loop of `construct_memsync_program` with `fuel` stages to go, at position `i`. -/
def memsyncLoop (stageId : ℕ) :
    ℕ → ℕ → Bool → ClientProgram → Option (ClientProgram × ℕ × Bool)
  | 0, i, rtsInserted, program => some (program, i, rtsInserted)
  | fuel + 1, i, rtsInserted, program => do
      if stageId ≤ i then
        let program ← addInstruction .memRead program
        let program ← addInstruction .mbrStore program
        pure (program, i + 2, rtsInserted)
      else if rtsInserted = false then
        memsyncLoop stageId fuel (i + 1) true (← addInstruction .rts program)
      else memsyncLoop stageId fuel (i + 1) rtsInserted (← addInstruction .nop program)

/-- **`construct_memsync_program`**, for an empty entry of the cache. -/
def buildMemsyncProgram (stageId : ℕ) : Option ClientProgram := do
  let (program, i, rtsInserted) ← memsyncLoop stageId 19 0 false ⟨[], 0⟩
  let (program, i) ← if rtsInserted = false then do pure (← addInstruction .rts program, i + 1)
    else pure (program, i)
  let program ← addInstruction .return_ program
  let program ← addInstruction .eof program
  pure { program with proglen := i + 2 }

/-- The loop of `construct_memset_program`. -/
def memsetLoop (stageId : ℕ) : ℕ → ℕ → ClientProgram → Option (ClientProgram × ℕ)
  | 0, i, program => some (program, i)
  | fuel + 1, i, program => do
      if i = stageId then pure (← addInstruction .memWrite program, i + 1)
      else memsetLoop stageId fuel (i + 1) (← addInstruction .nop program)

/-- **`construct_memset_program`**, for an empty entry of the cache. -/
def buildMemsetProgram (stageId : ℕ) : Option ClientProgram := do
  let (program, i) ← memsetLoop stageId 19 0 ⟨[], 0⟩
  let program ← addInstruction .return_ program
  let program ← addInstruction .eof program
  pure { program with proglen := i + 2 }

/-- A cached program is used again. -/
def cached (build : ℕ → Option ClientProgram) (cache : ℕ → ClientProgram) (stageId : ℕ) :
    Option ClientProgram :=
  if stageId > 20 then none
  else if (cache stageId).proglen > 0 then some (cache stageId)
  else build stageId

/-- `construct_memsync_program`. -/
def constructMemsyncProgram : (ℕ → ClientProgram) → ℕ → Option ClientProgram :=
  cached buildMemsyncProgram

/-- `construct_memset_program`. -/
def constructMemsetProgram : (ℕ → ClientProgram) → ℕ → Option ClientProgram :=
  cached buildMemsetProgram

/-- The cache holds what the generator has built. -/
def Fresh (build : ℕ → Option ClientProgram) (cache : ℕ → ClientProgram) : Prop :=
  ∀ s, (cache s).proglen > 0 → build s = some (cache s)

theorem cached_eq {build : ℕ → Option ClientProgram} {cache : ℕ → ClientProgram}
    (h : Fresh build cache) {s : ℕ} (hs : s ≤ 20) : cached build cache s = build s := by
  unfold cached
  rw [if_neg (by omega)]
  split_ifs with hc
  · exact (h s hc).symm
  · rfl

/-- An instruction without flags. -/
def instrOf (p : Pnemonic) : ActiveInstr := ⟨0, BitVec.ofNat 8 ((pnemonicToOpcode p).getD 0)⟩

/-- **What a generated program looks like**: the access at the position of the stage, and around it
only instructions that leave the registers, the data and the memory alone. -/
structure AccessesAt (s : Stage) (access : List ActiveInstr) (program : ClientProgram) : Prop where
  /-- The instructions. -/
  code : ∃ pre post, program.code = pre ++ (access ++ (post ++ [instrOf .return_, instrOf .eof])) ∧
    pre.length = s ∧ ∀ c ∈ pre ++ post, c = instrOf .nop ∨ c = instrOf .rts
  /-- The length. -/
  proglen : program.proglen = program.code.length

/-- The program that reads a word, at every stage but the last. -/
theorem buildMemsyncProgram_eq : ∀ s : Fin 19, buildMemsyncProgram s =
    some ⟨if s.val = 0 then
        [instrOf .memRead, instrOf .mbrStore, instrOf .rts, instrOf .return_, instrOf .eof]
      else instrOf .rts :: List.replicate (s - 1) (instrOf .nop) ++
        [instrOf .memRead, instrOf .mbrStore, instrOf .return_, instrOf .eof],
      if s.val = 0 then 5 else s + 4⟩ := by
  decide +kernel

/-- The program that writes a word, at every stage but the last. -/
theorem buildMemsetProgram_eq : ∀ s : Fin 19, buildMemsetProgram s =
    some ⟨List.replicate s (instrOf .nop) ++
      [instrOf .memWrite, instrOf .return_, instrOf .eof], s + 3⟩ := by
  decide +kernel

theorem buildMemsyncProgram_accesses {s : Stage} (hs : s ≠ 19) :
    ∃ program, buildMemsyncProgram s = some program ∧
      AccessesAt s [instrOf .memRead, instrOf .mbrStore] program := by
  have hlt : s.val < 19 := lt_of_le_of_ne (Nat.lt_succ_iff.1 s.isLt) fun h => hs (Fin.ext h)
  refine ⟨_, buildMemsyncProgram_eq ⟨s, hlt⟩, ?_, ?_⟩
  · dsimp only
    split_ifs with h0
    · exact ⟨[], [instrOf .rts], rfl, h0.symm, by simp⟩
    · refine ⟨instrOf .rts :: List.replicate (s - 1) (instrOf .nop), [], rfl, ?_, ?_⟩
      · rw [List.length_cons, List.length_replicate]
        omega
      · intro c hc
        rw [List.append_nil, List.mem_cons, List.mem_replicate] at hc
        exact hc.symm.imp_left And.right
  · dsimp only
    split_ifs with h0
    · rfl
    · simp
      omega

theorem buildMemsetProgram_accesses {s : Stage} (hs : s ≠ 19) :
    ∃ program, buildMemsetProgram s = some program ∧
      AccessesAt s [instrOf .memWrite] program := by
  have hlt : s.val < 19 := lt_of_le_of_ne (Nat.lt_succ_iff.1 s.isLt) fun h => hs (Fin.ext h)
  refine ⟨_, buildMemsetProgram_eq ⟨s, hlt⟩, ?_, ?_⟩
  · refine ⟨List.replicate s (instrOf .nop), [], rfl, List.length_replicate, fun c hc => ?_⟩
    rw [List.append_nil] at hc
    exact .inl (List.eq_of_mem_replicate hc)
  · simp

/-- A generated program is one. -/
theorem AccessesAt.eofTerminated {s : Stage} {access : List ActiveInstr} {program : ClientProgram}
    (h : AccessesAt s access program) (haccess : ∀ c ∈ access, c.opcode ≠ 0) :
    EofTerminated program.code := by
  obtain ⟨pre, post, hcode, -, hquiet⟩ := h.code
  refine ⟨pre ++ (access ++ (post ++ [instrOf .return_])), instrOf .eof, ?_, by decide, ?_⟩
  · simp [hcode]
  · intro c hc
    simp only [List.mem_append, List.mem_singleton] at hc hquiet
    have hskip : c ∈ pre ∨ c ∈ post → c.opcode ≠ 0 := fun hc => by
      rcases hquiet c hc with rfl | rfl <;> decide
    rcases hc with hc | hc | hc | rfl
    · exact hskip (.inl hc)
    · exact haccess c hc
    · exact hskip (.inr hc)
    · decide

/-! ### Single instructions -/

section Slots

variable {env : Environment} {sw : Switch} {i : Stage} {σ : PacketState} {c : ActiveInstr}

/-- **An unconditional common instruction** of an enabled program does what its action does. -/
theorem slot_common (hsw : sw.Equipped) {act : Instruction} (hact : act ∈ commonInstructions)
    {action : Action} (haction : act.action = some action) (hcond : act.condition = none)
    (hop : c.opcode.toNat = act.opcode) (hcomplete : σ.complete = false)
    (hdisabled : σ.disabled = false) (hfid : σ.fid.toNat ≤ 255) :
    slot env sw i c σ = exec env i c.goto (action, none) σ := by
  have hl : sw.lookup i (σ.key c) = some (action, none) := by
    rw [hsw.lookup_common hact haction hop hfid]
    simp [Switch.commonAction, PacketState.key, hcomplete, hdisabled, hcond]
  rw [slot, hl]

/-- The entries of the memory instructions of a function for a range of addresses are installed. -/
def Grants (sw : Switch) (i : Stage) (fid : Fid) (lo hi : ℚ) : Prop :=
  ∀ act ∈ memoryInstructions, ∀ e ∈ Switch.entriesOf fid act lo hi, e ∈ (sw.instruction i).items

/-- **The entries for an unconditional memory instruction** of an enabled program all have its action. -/
theorem entry_memory (hsw : sw.Equipped) {act : Instruction} (hact : act ∈ memoryInstructions)
    {action : Action} (haction : act.action = some action) (hcond : act.condition = none)
    {e : EntryKey × BoundAction} (he : e ∈ (sw.instruction i).items) (hop : e.1.opcode = act.opcode)
    (hdisabled : e.1.disabled = 0) : e.2 = (action, none) := by
  obtain ⟨hset, -⟩ := List.mem_filter.1 hact
  have hne : act.opcode ≠ 0 := by
    have key : ∀ act ∈ memoryInstructions, act.opcode ≠ 0 := by decide +kernel
    exact key act hact
  have hfrom : ∀ {act' : Instruction} {fid' : Fid} {lo' hi' : ℚ}, act' ∈ instructionSet →
      e ∈ Switch.entriesOf fid' act' lo' hi' → e.2 = (action, none) := by
    intro act' fid' lo' hi' hset' he'
    have heq : act' = act := instruction_eq hset' hset
      ((Switch.opcode_of_mem_entriesOf he').symm.trans hop)
    subst heq
    rcases Switch.entry_action haction he' with ⟨hd', _⟩ | ⟨_, _, ha⟩ | ⟨_, _, hc, _⟩ | ⟨_, _, h0, _⟩
    · omega
    · exact ha
    · rw [hcond] at hc
      exact absurd hc (by decide)
    · exact absurd h0 hne
  rcases hsw.others i e he with hc | ⟨fid', lo', hi', act', hact', he'⟩ | ⟨bs, fid', al, act', hact', he'⟩
  · obtain ⟨act', hact', he'⟩ := List.mem_flatMap.1 hc
    exact hfrom (mem_instructionSet_of_common hact').1 he'
  · exact hfrom (List.mem_filter.1 hact').1 he'
  · -- no memory instruction translates an address
    obtain ⟨hset', hvaddr⟩ := List.mem_filter.1 hact'
    have heq : act' = act := instruction_eq hset' hset
      ((Switch.opcode_of_mem_vaddrEntries he').symm.trans hop)
    rw [heq] at hvaddr
    have key : ∀ act ∈ memoryInstructions, act.vaddr = false := by decide +kernel
    rw [key act hact] at hvaddr
    exact absurd hvaddr Bool.false_ne_true

/-- **An unconditional memory instruction** inside the range of its function does what its action
does. -/
theorem slot_memory (hsw : sw.Equipped) {act : Instruction} (hact : act ∈ memoryInstructions)
    {action : Action} (haction : act.action = some action) (hcond : act.condition = none)
    (hop : c.opcode.toNat = act.opcode) (hcomplete : σ.complete = false)
    (hdisabled : σ.disabled = false) {lo hi : ℚ} (hgrants : Grants sw i σ.fid.toNat lo hi)
    (hlo : lo ≤ σ.mar.toNat) (hhi : (σ.mar.toNat : ℚ) ≤ hi) (hmax : hi ≤ regMax) :
    slot env sw i c σ = exec env i c.goto (action, none) σ := by
  have hmem := (List.mem_filter.1 hact).2
  have hmar : σ.mar.toNat % 2 ^ 20 = σ.mar.toNat := by
    refine Nat.mod_eq_of_lt ?_
    have h := hhi.trans hmax
    unfold regMax at h
    have h' : σ.mar.toNat ≤ 0xFFFFF := by exact_mod_cast h
    omega
  have he : ((⟨σ.fid.toNat, σ.fid.toNat, act.opcode, 0, 0, 0, 0, lo, hi⟩, (action, none)) :
      EntryKey × BoundAction) ∈ Switch.entriesOf σ.fid.toNat act lo hi := by
    unfold Switch.entriesOf
    rw [haction, hcond]
    simp [hmem]
  have hsel : (⟨σ.fid.toNat, σ.fid.toNat, act.opcode, 0, 0, 0, 0, lo, hi⟩ : EntryKey).selects
      (σ.key c) = true := by
    have hmbr : (0 : ℕ) = σ.mbr.toNat / 2 ^ 32 := (Nat.div_eq_of_lt σ.mbr.isLt).symm
    refine decide_eq_true ⟨le_rfl, le_rfl, hop.symm, ?_, ?_, ?_, ?_, ?_⟩
    · rw [PacketState.key, hcomplete]
      rfl
    · rw [PacketState.key, hdisabled]
      rfl
    · simpa [PacketState.key] using hmbr
    · rw [PacketState.key, hmar]
      exact hlo
    · rw [PacketState.key, hmar]
      exact hhi
  have hl : sw.lookup i (σ.key c) = some (action, none) := by
    refine Switch.lookup_eq_some (hgrants act hact _ he) hsel (Nat.zero_le _) fun e' he' hsel' _ => ?_
    obtain ⟨_, _, hop', _, hdisabled', _⟩ := of_decide_eq_true hsel'
    have hd : e'.1.disabled = 0 := by
      rw [hdisabled', PacketState.key, hdisabled]
      rfl
    exact entry_memory hsw hact haction hcond he' (hop'.trans hop) hd
  rw [slot, hl]

end Slots

/-! ### What the programs do -/

/-- **A packet with a program of a stage**: the registers are preloaded, and the address is in the
range of its function at the stage. -/
structure SyncRun (env : Environment) (sw : Switch) (pkt : Arrival) (s : Stage)
    (program : ClientProgram) : Prop where
  equipped : sw.Equipped
  carries : Carries sw pkt program.code
  quota : QuotaCovers sw pkt program.code
  routed : ∀ addr, env.ipv4Host addr ≠ some none
  preload : pkt.flagPreload = true
  complete : pkt.state.complete = false
  disabled : pkt.state.disabled = false
  dropped : pkt.state.dropped = false
  bypassEgress : pkt.state.bypassEgress = false
  granted : ∃ lo hi, Grants sw s pkt.state.fid.toNat lo hi ∧ lo ≤ (pkt.state.data 0).toNat ∧
    ((pkt.state.data 0).toNat : ℚ) ≤ hi ∧ hi ≤ regMax

/-- **A running program**: nothing has stopped it, and its address is the one it came with. -/
structure Running (pkt : Arrival) (σ : PacketState) : Prop where
  complete : σ.complete = false
  disabled : σ.disabled = false
  flagDone : σ.flagDone = false
  bypassEgress : σ.bypassEgress = false
  fid : σ.fid = pkt.state.fid
  mar : σ.mar = pkt.state.data 0

theorem Running.carried {pkt : Arrival} {σ τ : PacketState} (h : Running pkt σ) (hc : Carried σ τ) :
    Running pkt τ :=
  ⟨hc.complete.trans h.complete, hc.disabled.trans h.disabled, hc.flagDone.trans h.flagDone,
    hc.bypassEgress.trans h.bypassEgress, hc.fid.trans h.fid, hc.mar.trans h.mar⟩

section Programs

variable {env : Environment} {sw : Switch} {pkt : Arrival} {s : Stage} {program : ClientProgram}
  {i : Stage} {c : ActiveInstr} {σ : PacketState}

/-- A common instruction of a running program. -/
theorem Running.slot_common (h : Running pkt σ) (hrun : SyncRun env sw pkt s program)
    (hfid : pkt.state.fid.toNat ≤ 255) (act : Instruction) (hact : act ∈ commonInstructions) {action : Action}
    (haction : act.action = some action) (hcond : act.condition = none)
    (hop : c.opcode.toNat = act.opcode) :
    slot env sw i c σ = exec env i c.goto (action, none) σ :=
  ActiveRmt.slot_common hrun.equipped hact haction hcond hop h.complete h.disabled
    (by rw [h.fid]; exact hfid)

/-- A memory instruction of a running program at the stage it is for. -/
theorem Running.slot_memory (h : Running pkt σ) (hrun : SyncRun env sw pkt s program)
    (act : Instruction) (hact : act ∈ memoryInstructions) {action : Action}
    (haction : act.action = some action) (hcond : act.condition = none)
    (hop : c.opcode.toNat = act.opcode) :
    slot env sw s c σ = exec env s c.goto (action, none) σ := by
  obtain ⟨lo, hi, hgrants, hlo, hhi, hmax⟩ := hrun.granted
  exact ActiveRmt.slot_memory hrun.equipped hact haction hcond hop h.complete h.disabled
    (by rw [h.fid]; exact hgrants) (by rw [h.mar]; exact hlo) (by rw [h.mar]; exact hhi) hmax

/-- The instructions around the access leave everything alone that a program computes with. -/
theorem Running.slot_quiet (h : Running pkt σ) (hrun : SyncRun env sw pkt s program)
    (hfid : pkt.state.fid.toNat ≤ 255) (hc : c = instrOf .nop ∨ c = instrOf .rts) :
    Running pkt (slot env sw i c σ) ∧ (slot env sw i c σ).mbr = σ.mbr ∧
      (slot env sw i c σ).data = σ.data ∧ (slot env sw i c σ).heap = σ.heap := by
  rcases hc with rfl | rfl
  · rw [h.slot_common hrun hfid ⟨⟨.nop, some .skip, none⟩, 1⟩ (by decide +kernel) rfl rfl
      (by decide +kernel)]
    exact ⟨h, rfl, rfl, rfl⟩
  · rw [h.slot_common hrun hfid ⟨⟨.rts, some .rts, none⟩, 11⟩ (by decide +kernel) rfl rfl
      (by decide +kernel)]
    unfold exec
    dsimp only
    split_ifs
    · exact ⟨⟨h.complete, h.disabled, h.flagDone, h.bypassEgress, h.fid, h.mar⟩, rfl, rfl, rfl⟩
    · exact ⟨⟨h.complete, h.disabled, h.flagDone, h.bypassEgress, h.fid, h.mar⟩, rfl, rfl, rfl⟩

/-- No instruction of the programs drops the packet. -/
theorem slot_dropped (hsw : sw.Equipped) (hc : c ≠ instrOf .drop) (hflags : c.flags = 0)
    (hσ : σ.dropped = false) : (slot env sw i c σ).dropped = false := by
  unfold slot
  cases hl : sw.lookup i (σ.key c) with
  | none => exact hσ
  | some a =>
      have ha : a.1 ≠ .drop := by
        rcases hsw.action_of_lookup hl with ⟨_, _, rfl⟩ | ⟨_, act, hset, hop, _, h | h⟩
        · exact fun h => Action.noConfusion h
        · intro hdrop
          have key : ∀ act ∈ instructionSet, act.action = some .drop → act.opcode = 5 := by
            decide +kernel
          have h5 : c.opcode.toNat = 5 := hop.trans (key act hset (by rw [← h, hdrop]))
          refine hc ?_
          have hi : instrOf .drop = ⟨0, 5⟩ := by decide +kernel
          rw [hi]
          obtain ⟨flags, opcode⟩ := c
          exact congrArg₂ ActiveInstr.mk hflags (BitVec.eq_of_toNat_eq h5)
        · rw [h.2.2]
          exact fun h => Action.noConfusion h
      obtain ⟨act, arg⟩ := a
      dsimp only at ha ⊢
      cases act <;> simp only [exec] <;> (try split_ifs) <;> first | exact hσ | exact absurd rfl ha

/-- Nor does any instruction of a whole program, if none of its access does. -/
theorem AccessesAt.mem_code {access : List ActiveInstr} (hprogram : AccessesAt s access program)
    (haccess : ∀ c ∈ access, c ≠ instrOf .drop ∧ c.flags = 0) :
    ∀ c ∈ program.code, c ≠ instrOf .drop ∧ c.flags = 0 := by
  obtain ⟨pre, post, hcode, -, hskip⟩ := hprogram.code
  intro c hc
  rw [hcode] at hc
  simp only [List.mem_append, List.mem_cons, List.not_mem_nil, or_false] at hc hskip
  have hskip' : c ∈ pre ∨ c ∈ post → c ≠ instrOf .drop ∧ c.flags = 0 := fun hc => by
    rcases hskip c hc with rfl | rfl <;> decide +kernel
  rcases hc with hc | hc | hc | rfl | rfl
  · exact hskip' (.inl hc)
  · exact haccess c hc
  · exact hskip' (.inr hc)
  · decide +kernel
  · decide +kernel

/-- **At the return the program completes, and stays as it is.** -/
theorem SyncRun.after_return (hrun : SyncRun env sw pkt s program) (hfid : pkt.state.fid.toNat ≤ 255)
    {r : ℕ} {e : Lookup} (he : (process env sw pkt).1[r]? = some e) (hgood : Running pkt e.before)
    (hinstr : e.instr = instrOf .return_) :
    (process env sw pkt).2.data = e.before.data ∧ (process env sw pkt).2.heap = e.before.heap := by
  have hthreads := process_threads env sw pkt
  have hafter : e.after = exec env e.stage e.instr.goto (.complete, none) e.before := by
    rw [hthreads.after_eq (List.mem_of_getElem? he)]
    exact hgood.slot_common hrun hfid ⟨⟨.return_, some .complete, none⟩, 2⟩ (by decide +kernel)
      rfl rfl (by rw [hinstr]; decide +kernel)
  have hfinal := ((hthreads.drop he).keeps
    (P := fun σ => σ.complete = true ∧ σ.disabled = false ∧ σ.fid = pkt.state.fid ∧
      σ.data = e.before.data ∧ σ.heap = e.before.heap)
    (fun hc h => by
      rw [hc.complete, hc.disabled, hc.fid, hc.data, hc.heap]
      exact h)
    (fun {i instr σ} h => by
      rw [slot_completed hrun.equipped h.1 h.2.1 (by rw [h.2.2.1]; exact hfid)]
      exact h)
    (by
      rw [hafter]
      unfold exec
      dsimp only
      split_ifs
      · exact ⟨rfl, hgood.disabled, hgood.fid, rfl, rfl⟩
      · exact ⟨rfl, hgood.disabled, hgood.fid, rfl, rfl⟩)).1
  exact hfinal.2.2.2

/-- **The rule for the generated programs.**  `Holds k` is about the buffer register, the data and
the memory before position `k`.  It has to be handed on by the access; the other instructions do not
concern it, and nothing changes once the program has returned. -/
theorem SyncRun.ends (hrun : SyncRun env sw pkt s program) (hfid : pkt.state.fid.toNat ≤ 255)
    {access : List ActiveInstr}
    (hprogram : AccessesAt s access program) (haccess : ∀ c ∈ access, c ≠ instrOf .drop ∧ c.flags = 0)
    (Holds : ℕ → Word → (Fin 4 → Word) → (Stage → Word → Word) → Prop)
    (hstart : Holds 0 (pkt.state.data 1) pkt.state.data pkt.state.heap)
    (hquiet : ∀ {k : ℕ} {m d h}, k < s ∨ s + access.length ≤ k → Holds k m d h →
      Holds (k + 1) m d h)
    (hstep : ∀ {j c σ}, access[j]? = some c → Running pkt σ → Holds (s + j) σ.mbr σ.data σ.heap →
      let σ' := slot env sw (stageOf (s + j)) c σ
      Running pkt σ' ∧ Holds (s + j + 1) σ'.mbr σ'.data σ'.heap) :
    ∃ r m, s + access.length ≤ r ∧
      Holds r m (process env sw pkt).2.data (process env sw pkt).2.heap := by
  obtain ⟨pre, post, hcode, hpre, hskip⟩ := hprogram.code
  have hlength : program.code.length = s + access.length + post.length + 2 := by
    rw [hcode]
    simp [hpre]
    omega
  have hmem := hprogram.mem_code haccess
  have hdrop : 10 < program.code.length → ∀ e, (process env sw pkt).1[9]? = some e →
      e.after.dropped = false := fun hten e he =>
    hrun.carries.not_dropped hrun.dropped
      (fun hc hσ => slot_dropped hrun.equipped (hmem _ hc).1 (hmem _ hc).2 hσ) hten he
  -- up to the return the program runs
  obtain ⟨e, he, hgood, hholds⟩ := hrun.carries.reaches_with (r := s + access.length + post.length)
    (fun k σ => Running pkt σ ∧ Holds k σ.mbr σ.data σ.heap) hrun.quota hrun.routed hdrop
    (by omega)
    (fun hc h => ⟨h.1.carried hc, by rw [hc.mbr, hc.data, hc.heap]; exact h.2⟩)
    (fun h => ⟨h.1.complete, h.1.flagDone, h.1.bypassEgress⟩)
    ⟨⟨hrun.complete, hrun.disabled, hrun.carries.notDone, hrun.bypassEgress, rfl,
      by simp [ingressStart, hrun.preload]⟩, by simpa [ingressStart, hrun.preload] using hstart⟩
    (fun {k c σ} hk hc h => by
      obtain ⟨hσ, hholds⟩ := h
      have hother : k < s ∨ s + access.length ≤ k → c ∈ pre ++ post →
          Running pkt (slot env sw (stageOf k) c σ) ∧ Holds (k + 1) (slot env sw (stageOf k) c σ).mbr
            (slot env sw (stageOf k) c σ).data (slot env sw (stageOf k) c σ).heap := by
        intro hk hc
        obtain ⟨h₁, h₂, h₃, h₄⟩ := hσ.slot_quiet hrun hfid (i := stageOf k) (hskip c hc)
        rw [h₂, h₃, h₄]
        exact ⟨h₁, hquiet hk hholds⟩
      rw [hcode] at hc
      rcases Nat.lt_or_ge k s with hks | hks
      · rw [List.getElem?_append_left (by omega)] at hc
        exact hother (.inl hks) (List.mem_append_left _ (List.mem_of_getElem? hc))
      · obtain ⟨j, rfl⟩ := Nat.exists_eq_add_of_le hks
        rw [List.getElem?_append_right (by omega), hpre, Nat.add_sub_cancel_left] at hc
        rcases Nat.lt_or_ge j access.length with hj | hj
        · rw [List.getElem?_append_left hj] at hc
          exact hstep hc hσ hholds
        · rw [List.getElem?_append_right hj, List.getElem?_append_left (by omega)] at hc
          exact hother (.inr (by omega)) (List.mem_append_right _ (List.mem_of_getElem? hc)))
  -- there it completes
  have hinstr : e.instr = instrOf .return_ := by
    obtain ⟨_, hi⟩ := hrun.carries.process_lookup (by omega) he
    rw [hcode, List.getElem?_append_right (by omega), List.getElem?_append_right (by omega),
      List.getElem?_append_right (by omega)] at hi
    have hidx : s + access.length + post.length - pre.length - access.length - post.length = 0 := by
      omega
    rw [hidx] at hi
    exact (Option.some.inj hi).symm
  obtain ⟨hdata, hheap⟩ := hrun.after_return hfid he hgood hinstr
  refine ⟨_, e.before.mbr, Nat.le_add_right _ post.length, ?_⟩
  rw [hdata, hheap]
  exact hholds

end Programs

/-- The program that is generated for the stage reads the word of the function into the data of the
packet and leaves the memory as it is; it is well formed. -/
def ReadsWord (s : Stage) (fid : BitVec 16) : Prop :=
  ∀ cache, Fresh buildMemsyncProgram cache → ∃ program,
    constructMemsyncProgram cache s = some program ∧ EofTerminated program.code ∧
      program.proglen = program.code.length ∧
      ∀ env sw pkt, pkt.state.fid = fid → SyncRun env sw pkt s program →
        (process env sw pkt).2.data (Fin.last 3) = pkt.state.heap s (ingressStart env pkt).mar ∧
          (process env sw pkt).2.heap = pkt.state.heap

/-- The program that is generated for the stage writes the word of the function, and nothing else; it
is well formed. -/
def WritesWord (s : Stage) (fid : BitVec 16) : Prop :=
  ∀ cache, Fresh buildMemsetProgram cache → ∃ program,
    constructMemsetProgram cache s = some program ∧ EofTerminated program.code ∧
      program.proglen = program.code.length ∧
      ∀ env sw pkt, pkt.state.fid = fid → SyncRun env sw pkt s program →
        (process env sw pkt).2.heap =
          writeHeap pkt.state.heap s (ingressStart env pkt).mar (ingressStart env pkt).mbr

/-- The registers of a packet of a program start as its data words. -/
theorem SyncRun.ingressStart {env : Environment} {sw : Switch} {pkt : Arrival} {s : Stage}
    {program : ClientProgram} (hrun : SyncRun env sw pkt s program) :
    (ActiveRmt.ingressStart env pkt).mar = pkt.state.data 0 ∧
      (ActiveRmt.ingressStart env pkt).mbr = pkt.state.data 1 := by
  simp [ActiveRmt.ingressStart, hrun.preload]

/-- The stage of a position in the first pass. -/
theorem stageOf_val (s : Stage) : stageOf s = s := by
  have key : ∀ s : Stage, stageOf s = s := by decide
  exact key s

theorem readsWord {s : Stage} (hs : s ≠ 19) {fid : BitVec 16} (hfid : fid.toNat ≤ 255) :
    ReadsWord s fid := by
  intro cache hcache
  obtain ⟨program, hbuild, hprogram⟩ := buildMemsyncProgram_accesses hs
  refine ⟨program, (cached_eq hcache (by omega)).trans hbuild,
    hprogram.eofTerminated (by decide +kernel), hprogram.proglen, fun env sw pkt hpkt hrun => ?_⟩
  rw [← hpkt] at hfid
  obtain ⟨r, m, hr, hmem, _, hdata⟩ := hrun.ends hfid hprogram (by decide +kernel)
    (fun k m d h => h = pkt.state.heap ∧
      (k = s + 1 → m = pkt.state.heap s (pkt.state.data 0)) ∧
      (s + 2 ≤ k → d 3 = pkt.state.heap s (pkt.state.data 0)))
    ⟨rfl, fun h => absurd h (by omega), fun h => absurd h (by omega)⟩
    (fun {k m d h} hk hh => by
      simp only [List.length_cons, List.length_nil] at hk
      exact ⟨hh.1, fun h => absurd h (by omega), fun h => hh.2.2 (by omega)⟩)
    (fun {j c σ} hc hσ hh => by
      cases j with
      | zero =>
          obtain rfl : instrOf .memRead = c := by simpa using hc
          dsimp only
          rw [Nat.add_zero, stageOf_val, hσ.slot_memory hrun
            ⟨⟨.memRead, some .memoryRead, none⟩, 41⟩ (by decide +kernel) rfl rfl
            (by decide +kernel)]
          refine ⟨⟨hσ.complete, hσ.disabled, hσ.flagDone, hσ.bypassEgress, hσ.fid, hσ.mar⟩, hh.1,
            fun _ => ?_, fun h => absurd h (by omega)⟩
          show σ.heap s σ.mar = _
          rw [hh.1, hσ.mar]
      | succ j =>
          cases j with
          | zero =>
              obtain rfl : instrOf .mbrStore = c := by simpa using hc
              dsimp only
              rw [hσ.slot_common hrun hfid ⟨⟨.mbrStore, some .mbrStore, none⟩, 16⟩
                (by decide +kernel) rfl rfl (by decide +kernel)]
              refine ⟨⟨hσ.complete, hσ.disabled, hσ.flagDone, hσ.bypassEgress, hσ.fid, hσ.mar⟩,
                hh.1, fun h => absurd h (by omega), fun _ => ?_⟩
              show Function.update σ.data 3 σ.mbr 3 = _
              rw [Function.update_self]
              exact hh.2.1 rfl
          | succ j => simp at hc)
  rw [hrun.ingressStart.1]
  exact ⟨hdata hr, hmem⟩

theorem writesWord {s : Stage} (hs : s ≠ 19) {fid : BitVec 16} (hfid : fid.toNat ≤ 255) :
    WritesWord s fid := by
  intro cache hcache
  obtain ⟨program, hbuild, hprogram⟩ := buildMemsetProgram_accesses hs
  refine ⟨program, (cached_eq hcache (by omega)).trans hbuild,
    hprogram.eofTerminated (by decide +kernel), hprogram.proglen, fun env sw pkt hpkt hrun => ?_⟩
  rw [← hpkt] at hfid
  obtain ⟨r, m, hr, _, hmem⟩ := hrun.ends hfid hprogram (by decide +kernel)
    (fun k m _ h =>
      (k ≤ s → m = pkt.state.data 1 ∧ h = pkt.state.heap) ∧
      (s + 1 ≤ k → h = writeHeap pkt.state.heap s (pkt.state.data 0) (pkt.state.data 1)))
    ⟨fun _ => ⟨rfl, rfl⟩, fun h => absurd h (by omega)⟩
    (fun {k m d h} hk hh => by
      simp only [List.length_singleton] at hk
      exact ⟨fun h => hh.1 (by omega), fun h => hh.2 (by omega)⟩)
    (fun {j c σ} hc hσ hh => by
      cases j with
      | zero =>
          obtain rfl : instrOf .memWrite = c := by simpa using hc
          dsimp only
          rw [Nat.add_zero, stageOf_val, hσ.slot_memory hrun
            ⟨⟨.memWrite, some .memoryWrite, none⟩, 40⟩ (by decide +kernel) rfl rfl
            (by decide +kernel)]
          refine ⟨⟨hσ.complete, hσ.disabled, hσ.flagDone, hσ.bypassEgress, hσ.fid, hσ.mar⟩,
            fun h => absurd h (by omega), fun _ => ?_⟩
          obtain ⟨hm, hheap⟩ := hh.1 le_rfl
          show writeHeap σ.heap s σ.mar σ.mbr = _
          rw [hm, hheap, hσ.mar]
      | succ j => simp at hc)
  rw [hrun.ingressStart.1, hrun.ingressStart.2]
  exact hmem hr

/-! ### Where the programs fail -/

section Failures

variable {env : Environment} {sw : Switch} {i : Stage} {c : ActiveInstr} {σ : PacketState}

theorem slot_fid : (slot env sw i c σ).fid = σ.fid := by
  unfold slot
  cases sw.lookup i (σ.key c) with
  | none => rfl
  | some a =>
      obtain ⟨act, arg⟩ := a
      cases act <;> simp only [exec] <;> (try split_ifs) <;> rfl

/-- The actions that store into the data of the packet. -/
def Stores (a : Action) : Prop := a = .mbrStore ∨ a = .mbrStoreAlt ∨ a = .mbrStoreAlt2

instance (a : Action) : Decidable (Stores a) := inferInstanceAs (Decidable (_ ∨ _ ∨ _))

theorem exec_data {goto : Bool} {a : BoundAction} (ha : ¬ Stores a.1) :
    (exec env i goto a σ).data = σ.data := by
  obtain ⟨act, arg⟩ := a
  cases act <;> simp only [exec] <;> (try split_ifs) <;>
    first | rfl | exact absurd (by simp [Stores]) ha

theorem stores_mem_common : ∀ act ∈ instructionSet, ∀ a, act.action = some a → Stores a →
    act ∈ commonInstructions := by
  have key : ∀ act ∈ instructionSet, (act.action.any fun a => decide (Stores a)) = true →
      act ∈ commonInstructions := by decide +kernel
  intro act hact a ha hs
  exact key act hact (by rw [ha]; exact decide_eq_true hs)

/-- **Who stores**: a function with common entries, with an instruction that stores. -/
theorem slot_data (hsw : sw.Equipped) (h : 255 < σ.fid.toNat ∨
    ∀ act ∈ instructionSet, act.opcode = c.opcode.toNat → ∀ a, act.action = some a → ¬ Stores a) :
    (slot env sw i c σ).data = σ.data := by
  unfold slot
  cases hl : sw.lookup i (σ.key c) with
  | none => rfl
  | some a =>
      refine exec_data fun hs => ?_
      rcases hsw.action_of_lookup hl with ⟨_, _, rfl⟩ | ⟨_, act, hset, hop, _, ha | ha⟩
      · exact absurd hs (by decide)
      · rcases h with h | h
        · have hfid := hsw.fid_le (stores_mem_common act hset _ ha.symm hs) hop hl
          exact absurd hfid (Nat.not_le.2 h)
        · exact h act hset hop.symm _ ha.symm hs
      · rw [ha.2.2] at hs
        exact absurd hs (by decide)

/-- The entries of the memory instructions of a function for all addresses. -/
def grantedEntries (fid : Fid) : List (EntryKey × BoundAction) :=
  memoryInstructions.flatMap fun act => Switch.entriesOf fid act 0 regMax

theorem nodup_grantedEntries (fid : Fid) :
    ((Switch.commonEntries ++ grantedEntries fid).map Prod.fst).Nodup := by
  -- the function is not needed to tell the entries apart
  let digest (k : EntryKey) : ℕ × ℕ × ℕ × ℕ := (k.opcode, k.complete, k.disabled, k.mbrPfx)
  have hsame : ((Switch.commonEntries ++ grantedEntries fid).map Prod.fst).map digest =
      ((Switch.commonEntries ++ grantedEntries 0).map Prod.fst).map digest := by
    rfl
  refine List.Nodup.of_map digest ?_
  rw [hsame]
  decide +kernel

/-- The tables when one function has all memory. -/
def grantedTo (fid : Fid) : Switch :=
  { Switch.init with
    instruction := fun _ => ⟨Switch.commonEntries ++ grantedEntries fid, nodup_grantedEntries fid⟩
    quotaRecirc := Dict.empty.set fid () }

theorem equipped_grantedTo (fid : Fid) : (grantedTo fid).Equipped := by
  refine ⟨fun i e he => List.mem_append_left _ he, fun i e he => ?_⟩
  rcases List.mem_append.1 he with he | he
  · exact .inl he
  · obtain ⟨act, hact, he⟩ := List.mem_flatMap.1 he
    exact .inr (.inl ⟨fid, 0, regMax, act, hact, he⟩)

/-- A packet that reads the first word of a memory full of ones. -/
def readPacket (fid : BitVec 16) (code : List ActiveInstr) : Arrival :=
  { state := { blankState fid with heap := fun _ _ => 1 }, words := code, flagPreload := true
    flagAllocated := false, flagInitiated := false }

theorem syncRun_readPacket {s : Stage} {fid : BitVec 16} {program : ClientProgram}
    (heof : EofTerminated program.code) (hlen : program.code.length ≤ 32) :
    SyncRun quietEnvironment (grantedTo fid.toNat) (readPacket fid program.code) s program where
  equipped := equipped_grantedTo _
  carries := ⟨heof, hlen, ⟨[], by simp [readPacket]⟩, rfl, rfl⟩
  quota := by
    have hiter : mirrorIter (grantedTo fid.toNat) (readPacket fid program.code) = 10 :=
      if_pos (by simp [grantedTo, readPacket, blankState, Dict.contains])
    rw [QuotaCovers, hiter]
    omega
  routed := fun _ => by simp [quietEnvironment]
  preload := rfl
  complete := rfl
  disabled := rfl
  dropped := rfl
  bypassEgress := rfl
  granted := ⟨0, regMax, fun act hact e he => List.mem_append_right _
    (List.mem_flatMap.2 ⟨act, hact, he⟩), by simp [readPacket, blankState],
    by simp [readPacket, blankState, regMax], le_rfl⟩

/-- A program without a store that is looked up does not read. -/
theorem not_reads_of_not_stores (fid : BitVec 16) (program : ClientProgram)
    (h : ∀ c ∈ program.code, 255 < fid.toNat ∨ ∀ act ∈ instructionSet,
      act.opcode = c.opcode.toNat → ∀ a, act.action = some a → ¬ Stores a) :
    (process quietEnvironment (grantedTo fid.toNat) (readPacket fid program.code)).2.data
      (Fin.last 3) = 0 := by
  have hkeeps := (process_threads quietEnvironment (grantedTo fid.toNat)
      (readPacket fid program.code)).keeps_of_mem
    (P := fun σ => σ.fid = fid ∧ σ.data = fun _ => 0)
    (fun hc h => by rw [hc.fid, hc.data]; exact h)
    (fun e he σ hσ => by
      have hfid : (slot quietEnvironment (grantedTo fid.toNat) e.stage e.instr σ).fid = σ.fid :=
        slot_fid
      rw [hfid]
      refine ⟨hσ.1, ?_⟩
      have hmem : e.instr ∈ program.code := by
        rcases instr_mem_of_process he with hm | hm | hm
        · exact hm
        · exact absurd hm List.not_mem_nil
        · exact absurd hm List.not_mem_nil
      rw [slot_data (equipped_grantedTo _) (by rw [hσ.1]; exact h _ hmem)]
      exact hσ.2)
    ⟨rfl, rfl⟩
  rw [hkeeps.2]

/-- What the program that reads needs. -/
theorem of_readsWord {s : Stage} {fid : BitVec 16} (hreads : ReadsWord s fid) :
    s ≠ 19 ∧ fid.toNat ≤ 0xFF := by
  have hcache : Fresh buildMemsyncProgram fun _ => ⟨[], 0⟩ := fun _ h => absurd h (Nat.lt_irrefl 0)
  obtain ⟨program, hprogram, heof, _, hword⟩ := hreads _ hcache
  have hbuild : buildMemsyncProgram s = some program :=
    (cached_eq hcache (by omega)).symm.trans hprogram
  have hlen : program.code.length ≤ 32 := by
    have key : ∀ s : Stage, ((buildMemsyncProgram s).all fun program =>
      decide (program.code.length ≤ 32)) = true := by decide +kernel
    have hs := key s
    rw [hbuild] at hs
    exact of_decide_eq_true hs
  have hone := (hword _ _ (readPacket fid program.code) rfl (syncRun_readPacket heof hlen)).1
  by_contra hnot
  have hzero := not_reads_of_not_stores fid program fun c hc => ?_
  · rw [hzero] at hone
    have hne : (0 : Word) ≠ 1 := by decide
    exact hne hone
  · by_cases hfid : fid.toNat ≤ 0xFF
    · obtain rfl : s = 19 := not_not.1 fun hs => hnot ⟨hs, hfid⟩
      have key : ((buildMemsyncProgram 19).all fun program => program.code.all fun c =>
          instructionSet.all fun act => !decide (act.opcode = c.opcode.toNat) ||
            act.action.all fun a => !decide (Stores a)) = true := by decide +kernel
      have h19 : buildMemsyncProgram 19 = some program := hbuild
      rw [h19] at key
      refine .inr fun act hact hop a ha hs => ?_
      have hall := List.all_eq_true.1 (List.all_eq_true.1 key c hc) act hact
      rw [decide_eq_true hop, ha] at hall
      simp [hs] at hall
    · exact .inl (Nat.not_le.1 hfid)

/-- **The programs of a stage read and write its words** exactly when it is not the last stage, for
the functions that the tables serve. -/
theorem memory_sync_iff (s : Stage) (fid : BitVec 16) :
    (ReadsWord s fid ∧ WritesWord s fid) ↔ s ≠ 19 ∧ fid.toNat ≤ 0xFF := by
  constructor
  · intro ⟨hreads, _⟩
    exact of_readsWord hreads
  · intro ⟨hs, hfid⟩
    exact ⟨readsWord hs hfid, writesWord hs hfid⟩

/-- **The last stage**: the program sends the packet back and returns, without a word of memory. -/
theorem memory_sync_last_stage :
    (buildMemsyncProgram 19).map (·.code) = some (instrOf .rts :: List.replicate 18 (instrOf .nop) ++
      [instrOf .return_, instrOf .eof]) ∧ ¬ (ReadsWord 19 1 ∧ WritesWord 19 1) := by
  refine ⟨by decide +kernel, fun ⟨hreads, _⟩ => ?_⟩
  exact (of_readsWord hreads).1 rfl

end Failures

end ActiveRmt
