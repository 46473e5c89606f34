/-
**The switch runs the language.**

A packet goes through two pipelines and some more passes, and at each slot a table is looked up whose entries
the controller has installed one by one.  What the packet is left with is what its program means: the tables
select the instructions, the passes keep their order, and the function's words are those that it is granted.

Main definitions:

* `PacketState.machine` — what a packet has of the machine;
* `ActiveInstr.inLanguage` — the instructions of the language;
* `Serves` — the tables grant a function the words that it may access.

Main results:

* `Serves.slot_eq` — **a slot does what its instruction means**;
* `Serves.process_returns`, `Serves.process_ends` — **a packet leaves with what its program means**;
* `Controller.program_meaning` — the same in every state that the controller reaches;
* `Controller.mutant_meaning` — **a mutant means what its program means**, with its accesses at the stages
  of the allocation.
-/

import ActiveRmt.ActiveLanguage
import ActiveRmt.Isolation

set_option relaxedAutoImplicit false
set_option autoImplicit false

namespace ActiveRmt

/-! ### Instructions of the language -/

/-- **What a packet has of the machine.** -/
def PacketState.machine (σ : PacketState) : Machine :=
  ⟨σ.hashData, σ.mar, σ.mbr, σ.mbr2, σ.data, σ.disabled, σ.heap⟩

theorem Carried.machine {σ τ : PacketState} (h : Carried σ τ) : τ.machine = σ.machine := by
  rw [PacketState.machine, PacketState.machine, h.hashData, h.mar, h.mbr, h.mbr2, h.data, h.disabled, h.heap]

/-- The instruction works on the machine, and not on headers, queues or translated addresses. -/
def Pnemonic.inLanguage : Pnemonic → Bool
  | .drop | .loadTcp5tuple | .loadQdelay | .loadQueue | .loadPktcount => false
  | .addrMaskAt _ | .addrOffsetAt _ | .addrMask | .addrOffset => false
  | _ => true

/-- **An instruction of the language.**  A label is neither at a memory access, where the address decides
whether it is found, nor at the end of the program. -/
def ActiveInstr.inLanguage (c : ActiveInstr) : Bool :=
  c.decode.any fun act => act.pnemonic.inLanguage && !((act.memory || act.opcode == 0) && c.goto)

/-- The instruction of an opcode has this opcode. -/
theorem opcode_of_decode {c : ActiveInstr} {act : Instruction} (h : c.decode = some act) :
    act ∈ instructionSet ∧ act.toOpcodeRow ∈ opcodeActionMapping ∧ c.opcode.toNat = act.opcode := by
  refine ⟨List.mem_of_getElem? h, ?_⟩
  unfold ActiveInstr.decode instructionSet at h
  rw [List.getElem?_map, List.getElem?_zipIdx] at h
  obtain ⟨row, hrow, rfl⟩ := Option.map_eq_some_iff.1 h
  obtain ⟨r, hr, rfl⟩ := Option.map_eq_some_iff.1 hrow
  exact ⟨List.mem_of_getElem? hr, (Nat.zero_add _).symm⟩

theorem exists_of_inLanguage {c : ActiveInstr} (h : c.inLanguage = true) :
    ∃ act, c.decode = some act ∧ act.pnemonic.inLanguage = true ∧
      (act.memory = true ∨ act.opcode = 0 → c.goto = false) := by
  obtain ⟨act, hdecode, hact⟩ := (Option.any_eq_true _ _).1 h
  refine ⟨act, hdecode, ?_⟩
  simpa [Bool.and_eq_true, imp_iff_not_or] using hact

/-- The instructions of the language have an action, and are memory accesses or common to all functions. -/
theorem action_of_inLanguage : ∀ act ∈ instructionSet, act.pnemonic.inLanguage = true →
    act.action.isSome = true ∧ (act.memory = false → act ∈ commonInstructions) ∧
      act.action ≠ some .drop ∧ (act.action = some .markTermination → act.opcode = 0) := by
  decide +kernel

theorem exec_memoryWriteZero {env : Environment} {i : Stage} {goto : Bool} {σ : PacketState} :
    (exec env i goto (.memoryWriteZero, none) σ).machine =
      Pnemonic.memWriteCondzero.effect (env.crc16 i) i σ.machine := by
  have hcell : σ.machine.heap i σ.machine.mar = σ.heap i σ.mar := rfl
  simp only [exec, Pnemonic.effect, hcell]
  split_ifs <;> rfl

/-- **An action does what its instruction means.** -/
theorem exec_machine {env : Environment} {i : Stage} {goto : Bool} {σ : PacketState} {row : OpcodeRow}
    (hrow : row ∈ opcodeActionMapping) (hlang : row.pnemonic.inLanguage = true) {a : Action}
    (ha : row.action = some a) (hne : a ≠ .complete) :
    (exec env i goto (a, none) σ).machine = row.pnemonic.effect (env.crc16 i) i σ.machine := by
  rcases List.mem_append.1 hrow with hrow | hrow
  · rcases List.mem_append.1 hrow with hrow | hrow
    · fin_cases hrow <;> cases ha <;>
        first
          | rfl
          | exact absurd rfl hne
          | exact absurd hlang Bool.false_ne_true
          | exact exec_memoryWriteZero
          | (simp only [exec, Pnemonic.effect]; split_ifs <;> rfl)
    · obtain ⟨k, -, hk⟩ := List.mem_flatMap.1 hrow
      rcases List.mem_pair.1 hk with rfl | rfl <;> exact absurd hlang Bool.false_ne_true
  · fin_cases hrow <;> cases ha <;> rfl

/-! ### Slots -/

/-- **The tables grant a function the words that it may access.** -/
structure Serves (sw : Switch) (fid : BitVec 16) : Prop where
  /-- The tables are as the controller keeps them. -/
  equipped : sw.Equipped
  /-- The function has the common entries. -/
  common : fid.toNat ≤ 255
  /-- It has those of all memory instructions for the range of a word. -/
  granted : ∀ i a, sw.Cell fid i a → ∃ lo hi, Grants sw i fid.toNat lo hi ∧
    lo ≤ ((a.toNat % 2 ^ 20 : ℕ) : ℚ) ∧ ((a.toNat % 2 ^ 20 : ℕ) : ℚ) ≤ hi

section Slots

open Switch (IsEntry mem_entriesOf_iff entryKey selects_entryKey address_bounds)

variable {env : Environment} {sw : Switch} {i : Stage} {c : ActiveInstr} {σ : PacketState} {fid : BitVec 16}
  {act : Instruction} {action : Action}

/-- An entry with the opcode of a memory instruction is one of it. -/
theorem Switch.Equipped.isEntry (hsw : sw.Equipped) (hact : act ∈ memoryInstructions)
    (haction : act.action = some action) {e : EntryKey × BoundAction} (he : e ∈ (sw.instruction i).items)
    (hop : e.1.opcode = act.opcode) : ∃ f lo hi, IsEntry f act action lo hi e := by
  obtain ⟨hset, -⟩ := List.mem_filter.1 hact
  have hfrom : ∀ {act' : Instruction} {f : Fid} {lo hi : ℚ}, act' ∈ instructionSet →
      e ∈ Switch.entriesOf f act' lo hi → ∃ f lo hi, IsEntry f act action lo hi e := by
    intro act' f lo hi hset' he'
    obtain rfl : act' = act := instruction_eq hset' hset ((Switch.opcode_of_mem_entriesOf he').symm.trans hop)
    exact ⟨f, lo, hi, (mem_entriesOf_iff haction).1 he'⟩
  rcases hsw.others i e he with hc | ⟨f, lo, hi, act', hact', he'⟩ | ⟨bs, f, al, act', hact', he'⟩
  · obtain ⟨act', hact', he'⟩ := List.mem_flatMap.1 hc
    exact hfrom (mem_instructionSet_of_common hact').1 he'
  · exact hfrom (List.mem_filter.1 hact').1 he'
  · -- no memory instruction translates an address
    obtain ⟨hset', hvaddr⟩ := List.mem_filter.1 hact'
    have heq : act' = act := instruction_eq hset' hset
      ((Switch.opcode_of_mem_vaddrEntries he').symm.trans hop)
    have hnone : ∀ act ∈ memoryInstructions, act.vaddr = false := by decide +kernel
    rw [heq, hnone act hact] at hvaddr
    exact absurd hvaddr Bool.false_ne_true

/-- **What the tables select for a memory instruction** of a running program, at a word of its function. -/
theorem Serves.lookup_memory (h : Serves sw fid) {q : LookupKey} {a : Word} (hfid : q.fid = fid.toNat)
    (hact : act ∈ memoryInstructions) (haction : act.action = some action) (hop : q.opcode = act.opcode)
    (hcomplete : q.complete = false) (hdisabled : q.disabled = false) (ha : q.mar = a)
    (hcell : sw.Cell fid i a) :
    sw.lookup i q = some (if CondHolds act q.mbr then action else .skip, none) := by
  obtain ⟨lo, hi, hgrants, hlow, hhigh⟩ := h.granted i a hcell
  subst ha
  have hfid' : q.fid ≤ 255 := hfid.trans_le h.common
  obtain ⟨-, -, -, -, hcond⟩ := Switch.action_of_memory act hact
  -- an entry of the grant is in the table, and matches when its prefix does
  have hmem : ∀ {e}, IsEntry q.fid act action lo hi e → e ∈ (sw.instruction i).items := fun he =>
    hgrants act hact _ (hfid ▸ (mem_entriesOf_iff haction).2 he)
  have hselects : ∀ {mbrPfx : ℕ} {hi' : ℚ}, q.mbr.toNat < 2 ^ (32 - mbrPfx) → q.address ≤ hi' →
      (entryKey q.fid act lo 0 0 mbrPfx hi').selects q = true := fun hmbr hhi => by
    rw [selects_entryKey hop hfid', hcomplete, hdisabled]
    exact ⟨rfl, rfl, hmbr, hlow, hhi⟩
  -- any other that matches is for a running program
  have hother : ∀ e ∈ (sw.instruction i).items, e.1.selects q = true →
      (∃ f lo hi, IsEntry f act action lo hi e) ∧ e.1.complete = 0 ∧ e.1.disabled = 0 ∧
        e.1.mbr / 2 ^ (32 - e.1.mbrPfx) = q.mbr.toNat / 2 ^ (32 - e.1.mbrPfx) := fun e he hsel => by
    obtain ⟨-, -, hop', hc, hd, hmbr, -⟩ := of_decide_eq_true hsel
    rw [hcomplete] at hc
    rw [hdisabled] at hd
    exact ⟨h.equipped.isEntry hact haction he (hop'.trans hop), hc, hd, hmbr⟩
  have hlt : q.mbr.toNat < 2 ^ (32 - 0) := q.mbr.isLt
  cases hc : act.condition with
  | none =>
      rw [if_pos (by rw [CondHolds, hc]; trivial)]
      have he : IsEntry q.fid act action lo hi (entryKey q.fid act lo 0 0 0 hi, (action, none)) := .plain hc
      refine Switch.lookup_eq_some (hmem he) (hselects hlt hhigh) (Nat.zero_le _) fun e' he' hsel' _ => ?_
      obtain ⟨⟨f, lo', hi', hentry⟩, hc', hd', -⟩ := hother e' he' hsel'
      cases hentry with
      | plain => rfl
      | ending => exact absurd hc' (by simp [entryKey])
      | rejoin => exact absurd hd' (by simp [entryKey])
      | skipZero hcond' | nonzero hcond' | zero hcond' | skipNonzero hcond' =>
          exact absurd (hc.symm.trans hcond') (by simp)
  | some b =>
      obtain rfl : b = true := by
        cases b with
        | true => rfl
        | false => exact absurd hc hcond
      by_cases hzero : q.mbr = 0
      · rw [if_neg (by rw [CondHolds, hc]; exact not_not.2 hzero)]
        have he : IsEntry q.fid act action lo hi (entryKey q.fid act lo 0 0 32 regMax, (.skip, none)) :=
          .skipZero hc
        refine Switch.lookup_eq_some (hmem he) (hselects (Switch.mbr_eq_zero_iff.2 hzero) (address_bounds q).2)
          le_rfl fun e' he' hsel' hle => ?_
        obtain ⟨⟨f, lo', hi', hentry⟩, -, hd', -⟩ := hother e' he' hsel'
        cases hentry with
        | skipZero => rfl
        | nonzero => exact absurd hle (by simp [entryKey])
        | rejoin => exact absurd hd' (by simp [entryKey])
        | ending hcond' | plain hcond' | zero hcond' | skipNonzero hcond' =>
            exact absurd (hc.symm.trans hcond') (by simp)
      · rw [if_pos (by rw [CondHolds, hc]; exact hzero)]
        have he : IsEntry q.fid act action lo hi (entryKey q.fid act lo 0 0 0 hi, (action, none)) :=
          .nonzero hc
        refine Switch.lookup_eq_some (hmem he) (hselects hlt hhigh) (Nat.zero_le _) fun e' he' hsel' _ => ?_
        obtain ⟨⟨f, lo', hi', hentry⟩, -, hd', hmbr'⟩ := hother e' he' hsel'
        cases hentry with
        | nonzero => rfl
        | skipZero =>
            refine absurd ?_ hzero
            have : q.mbr.toNat = 0 := by simpa [entryKey] using hmbr'.symm
            exact BitVec.eq_of_toNat_eq this
        | rejoin => exact absurd hd' (by simp [entryKey])
        | ending hcond' | plain hcond' | zero hcond' | skipNonzero hcond' =>
            exact absurd (hc.symm.trans hcond') (by simp)

/-- What the tables select for a common instruction of a running program. -/
theorem commonAction_running {q : LookupKey} (hcomplete : q.complete = false) (hdisabled : q.disabled = false) :
    Switch.commonAction act action q = some (if CondHolds act q.mbr then action else .skip, none) := by
  rw [Switch.commonAction, hcomplete, hdisabled, if_neg Bool.false_ne_true, if_neg Bool.false_ne_true]
  cases hc : act.condition with
  | none =>
      have hcond : CondHolds act q.mbr := by rw [CondHolds, hc]; trivial
      rw [if_pos hcond]
  | some b =>
      cases b with
      | true =>
          have hcond : CondHolds act q.mbr ↔ ¬ q.mbr = 0 := by rw [CondHolds, hc]
          simp only [hcond, ite_not]
      | false =>
          have hcond : CondHolds act q.mbr ↔ q.mbr = 0 := by rw [CondHolds, hc]
          simp only [hcond]

/-- The action of an instruction, or none, as its condition says. -/
theorem exec_ite {p : Prop} [Decidable p] {goto : Bool} :
    exec env i goto (if p then action else .skip, none) σ = if ¬p then σ else exec env i goto (action, none) σ := by
  by_cases hp : p
  · rw [if_pos hp, if_neg (not_not.2 hp)]
  · rw [if_neg hp, if_pos hp]
    rfl

/-- A slot of a running program for an instruction common to all functions. -/
theorem Serves.slot_common_eq (h : Serves sw σ.fid) (hact : act ∈ commonInstructions)
    (haction : act.action = some action) (hop : c.opcode.toNat = act.opcode) (hcomplete : σ.complete = false) :
    slot env sw i c σ =
      if σ.disabled = true then { σ with disabled := !c.goto }
      else if ¬ CondHolds act σ.mbr then σ
      else exec env i c.goto (action, none) σ := by
  have hl : sw.lookup i (σ.key c) = Switch.commonAction act action (σ.key c) :=
    h.equipped.lookup_common hact haction hop h.common
  cases hdisabled : σ.disabled with
  | true =>
      have hselected : Switch.commonAction act action (σ.key c) = some (.attemptRejoin, none) := by
        rw [Switch.commonAction, if_neg (by simp [PacketState.key, hcomplete]),
          if_pos (by simp [PacketState.key, hdisabled])]
      rw [if_pos rfl, slot, hl, hselected]
      simp only [exec, hdisabled, Bool.true_xor]
  | false =>
      rw [if_neg Bool.false_ne_true, slot, hl, commonAction_running hcomplete hdisabled]
      exact exec_ite

/-- A slot of a running program for a memory instruction. -/
theorem Serves.slot_memory_eq (h : Serves sw σ.fid) (hact : act ∈ memoryInstructions)
    (haction : act.action = some action) (hop : c.opcode.toNat = act.opcode) (hgoto : c.goto = false)
    (hcomplete : σ.complete = false) :
    slot env sw i c σ =
      if ¬ sw.Cell σ.fid i σ.mar then σ
      else if σ.disabled = true then { σ with disabled := !c.goto }
      else if ¬ CondHolds act σ.mbr then σ
      else exec env i c.goto (action, none) σ := by
  obtain ⟨hset, hmem⟩ := List.mem_filter.1 hact
  cases hdisabled : σ.disabled with
  | true =>
      have hsame : ({ σ with disabled := !c.goto } : PacketState) = σ := by
        rw [hgoto, Bool.not_false, ← hdisabled]
      rw [if_pos rfl, hsame, ite_self, slot]
      cases hl : sw.lookup i (σ.key c) with
      | none => rfl
      | some b =>
          obtain ⟨-, -, rfl⟩ | ⟨hd, -⟩ := h.equipped.action_of_lookup hl
          · dsimp only
            rw [hgoto]
            simp only [exec, Bool.xor_false]
          · exact absurd (hdisabled.symm.trans hd) (by decide)
  | false =>
      rw [if_neg Bool.false_ne_true]
      by_cases hcell : sw.Cell σ.fid i σ.mar
      · rw [if_neg (not_not.2 hcell), slot,
          h.lookup_memory rfl hact haction hop hcomplete hdisabled rfl hcell]
        exact exec_ite
      · rw [if_pos hcell, slot]
        cases hl : sw.lookup i (σ.key c) with
        | none => rfl
        | some b =>
            obtain ⟨hd, -⟩ | ⟨-, act', hset', hop', -, ha⟩ := h.equipped.action_of_lookup hl
            · exact absurd (hdisabled.symm.trans hd) (by decide)
            · obtain rfl : act' = act := instruction_eq hset' hset (hop'.symm.trans hop)
              rcases ha with ha | ⟨-, -, ha⟩
              · -- an access to memory is to a word of the function
                obtain ⟨action', haction', hmemory, -⟩ := Switch.action_of_memory act' hact
                have hb : b.1.isMemory = true := by
                  rw [Option.some.inj (ha.trans haction')]
                  exact hmemory
                exact absurd (Switch.cell_of_lookup hl hb) hcell
              · obtain ⟨b, arg⟩ := b
                obtain rfl : b = .skip := ha
                rfl

/-- **A slot of a running program does what its instruction means.** -/
theorem Serves.slot_eq (h : Serves sw σ.fid) (hdecode : c.decode = some act)
    (hlang : act.pnemonic.inLanguage = true) (hgoto : act.memory = true → c.goto = false)
    (haction : act.action = some action) (hcomplete : σ.complete = false) :
    slot env sw i c σ =
      if act.memory = true ∧ ¬ sw.Cell σ.fid i σ.mar then σ
      else if σ.disabled = true then { σ with disabled := !c.goto }
      else if ¬ CondHolds act σ.mbr then σ
      else exec env i c.goto (action, none) σ := by
  obtain ⟨hset, -, hop⟩ := opcode_of_decode hdecode
  obtain ⟨-, hcommon, -⟩ := action_of_inLanguage act hset hlang
  cases hmem : act.memory with
  | true =>
      rw [h.slot_memory_eq (List.mem_filter.2 ⟨hset, hmem⟩) haction hop (hgoto hmem) hcomplete]
      simp only [true_and]
  | false =>
      have hno : ¬ (false = true ∧ ¬ sw.Cell σ.fid i σ.mar) := fun hand => Bool.false_ne_true hand.1
      rw [h.slot_common_eq (hcommon hmem) haction hop hcomplete, if_neg hno]

/-- **A program runs**: nothing has stopped it. -/
structure Runs (fid : BitVec 16) (σ : PacketState) : Prop where
  complete : σ.complete = false
  flagDone : σ.flagDone = false
  bypassEgress : σ.bypassEgress = false
  fid_eq : σ.fid = fid

theorem Runs.carried {τ : PacketState} (h : Runs fid σ) (hc : Carried σ τ) : Runs fid τ :=
  ⟨hc.complete.trans h.complete, hc.flagDone.trans h.flagDone, hc.bypassEgress.trans h.bypassEgress,
    hc.fid.trans h.fid_eq⟩

/-- **A slot and its instruction, side by side**: both go on, to the same machine, or both return. -/
theorem Serves.slot_performs (env : Environment) (i : Stage) (h : Serves sw fid) (hσ : Runs fid σ)
    (hlang : c.inLanguage = true) (h0 : c.opcode ≠ 0) :
    (perform env.crc16 (sw.Cell fid) (i, c) σ.machine = .ok ⟨⟩ (slot env sw i c σ).machine ∧
        Runs fid (slot env sw i c σ)) ∨
      (perform env.crc16 (sw.Cell fid) (i, c) σ.machine = .error ⟨⟩ σ.machine ∧ σ.disabled = false ∧
        slot env sw i c σ = exec env i c.goto (.complete, none) σ) := by
  obtain rfl := hσ.fid_eq
  obtain ⟨act, hdecode, hlang, hgoto⟩ := exists_of_inLanguage hlang
  obtain ⟨hset, hrow, hop⟩ := opcode_of_decode hdecode
  obtain ⟨hsome, -, -, hmark⟩ := action_of_inLanguage act hset hlang
  obtain ⟨action, haction⟩ := Option.isSome_iff_exists.1 hsome
  have hperform : perform env.crc16 (sw.Cell σ.fid) (i, c) σ.machine =
      if act.memory = true ∧ ¬ sw.Cell σ.fid i σ.mar then .ok ⟨⟩ σ.machine
      else if σ.disabled = true then .ok ⟨⟩ { σ.machine with disabled := !c.goto }
      else if ¬ CondHolds act σ.mbr then .ok ⟨⟩ σ.machine
      else if act.action = some .complete then .error ⟨⟩ σ.machine
      else .ok ⟨⟩ (act.pnemonic.effect (env.crc16 i) i σ.machine) := perform_eq hdecode σ.machine
  have hfid : (slot env sw i c σ).fid = σ.fid := slot_fid
  rw [h.slot_eq hdecode hlang (fun hmem => hgoto (.inl hmem)) haction hσ.complete] at hfid ⊢
  rw [hperform]
  split_ifs at hfid ⊢ with hforeign hdisabled hcond hreturns
  · exact .inl ⟨rfl, hσ⟩
  · exact .inl ⟨rfl, hσ.complete, hσ.flagDone, hσ.bypassEgress, rfl⟩
  · obtain rfl := Option.some.inj (haction.symm.trans hreturns)
    exact .inr ⟨rfl, Bool.eq_false_iff.2 hdisabled, rfl⟩
  · have hne : action ≠ .complete := fun heq => hreturns (haction.trans (congrArg some heq))
    have hne' : action ≠ .markTermination := fun heq => h0 (by
      have hzero := hmark (haction.trans (congrArg some heq))
      exact BitVec.eq_of_toNat_eq (hop.trans hzero))
    refine .inl ⟨congrArg _ (exec_machine hrow hlang haction hne).symm, ?_, ?_, ?_, hfid⟩
    · rw [exec_complete, hσ.complete, decide_eq_false hne, Bool.or_false]
    · rw [exec_flagDone, hσ.flagDone, decide_eq_false hne, decide_eq_false hne']
      rfl
    · rw [exec_bypassEgress, hσ.bypassEgress, decide_eq_false hne]
      rfl
  · exact .inl ⟨rfl, hσ⟩

/-- No instruction of the language drops the packet. -/
theorem Serves.slot_dropped (h : Serves sw fid) (hlang : c.inLanguage = true) (hσ : σ.dropped = false) :
    (slot env sw i c σ).dropped = false := by
  obtain ⟨act, hdecode, hlang, -⟩ := exists_of_inLanguage hlang
  obtain ⟨hset, -, hop⟩ := opcode_of_decode hdecode
  obtain ⟨-, -, hdrop, -⟩ := action_of_inLanguage act hset hlang
  unfold slot
  cases hl : sw.lookup i (σ.key c) with
  | none => exact hσ
  | some a =>
      have ha : a.1 ≠ .drop := by
        rcases h.equipped.action_of_lookup hl with ⟨-, -, rfl⟩ | ⟨-, act', hset', hop', -, ha | ⟨-, -, ha⟩⟩
        · exact fun h => Action.noConfusion h
        · obtain rfl : act' = act := instruction_eq hset' hset (hop'.symm.trans hop)
          exact fun heq => hdrop (ha.symm.trans (congrArg some heq))
        · rw [ha]
          exact fun h => Action.noConfusion h
      obtain ⟨action, arg⟩ := a
      dsimp only at ha ⊢
      cases action <;> simp only [exec] <;> (try split_ifs) <;> first | exact hσ | exact absurd rfl ha

end Slots

/-! ### The end of a program -/

section Ends

variable {env : Environment} {sw : Switch} {pkt : Arrival} {p q rest : List ActiveInstr} {σ : PacketState}
  {iter n : ℕ} {e : Lookup}

/-- The lookup that marks a program on its way out is its last one. -/
theorem length_egressPasses_marked (hq : EofTerminated q) (hlen : q.length ≤ 32)
    (he : (egressPasses env sw iter n (q ++ rest) σ).1[q.length - 1]? = some e)
    (hmark : e.after.flagDone = true) : (egressPasses env sw iter n (q ++ rest) σ).1.length = q.length := by
  have hpos := hq.length_pos
  have hdone : σ.flagDone = false := by
    cases hd : σ.flagDone with
    | false => rfl
    | true =>
        rw [egressPasses_done hd] at he
        simp at he
  have hpass : (egressPass env sw n (q ++ rest) σ).1.length = min 10 q.length :=
    length_egressPass hq hlen hdone n rest
  induction iter generalizing q n σ with
  | zero =>
      have hlt := (List.getElem?_eq_some_iff.1 he).1
      rw [egressPasses_zero] at hlt ⊢
      omega
  | succ iter ih =>
      rcases Nat.lt_or_ge 10 q.length with hten | hten
      · -- the end of the program is in a later pass
        have h : Mirrored (egressPass env sw n (q ++ rest) σ).2 := by
          by_contra h
          rw [egressPasses_succ_of_not h] at he
          have hlt := (List.getElem?_eq_some_iff.1 he).1
          omega
        have hlength : (q.drop 10).length = q.length - 10 := List.length_drop
        have hindex : q.length - 1 - (egressPass env sw n (q ++ rest) σ).1.length =
            (q.drop 10).length - 1 := by omega
        rw [egressPasses_succ h, List.getElem?_append_right (by omega), hindex,
          remaining_program hq hlen hdone hten.le] at he
        have hdone' : (mirror (egressPass env sw n (q ++ rest) σ).2).flagDone = false := by
          cases hd : (mirror (egressPass env sw n (q ++ rest) σ).2).flagDone with
          | false => rfl
          | true =>
              rw [egressPasses_done hd] at he
              simp at he
        have hq' := hq.drop hten
        have hlen' : (q.drop 10).length ≤ 32 := by omega
        have hrest := ih hq' hlen' he hq'.length_pos hdone' (length_egressPass hq' hlen' hdone' _ _)
        rw [egressPasses_succ h, remaining_program hq hlen hdone hten.le, List.length_append, hrest, hpass]
        omega
      · -- it is in this one
        have he' : (egressPass env sw n (q ++ rest) σ).1[q.length - 1]? = some e := by
          by_cases h : Mirrored (egressPass env sw n (q ++ rest) σ).2
          · rwa [egressPasses_succ h, List.getElem?_append_left (by omega)] at he
          · rwa [egressPasses_succ_of_not h] at he
        have hlast : (egressPass env sw n (q ++ rest) σ).2 = e.after := by
          refine runSlots_last he' ?_
          rw [egressStack_program hq hlen hdone, List.length_take]
          omega
        by_cases h : Mirrored (egressPass env sw n (q ++ rest) σ).2
        · have hdone' : (mirror (egressPass env sw n (q ++ rest) σ).2).flagDone = true := by
            rw [hlast]
            exact hmark
          rw [egressPasses_succ h, egressPasses_done hdone', List.append_nil, hpass]
          omega
        · rw [egressPasses_succ_of_not h, hpass]
          omega

/-- **The lookup that marks a program** is the last one of its packet. -/
theorem Carries.carried_of_marked (h : Carries sw pkt p)
    (he : (process env sw pkt).1[p.length - 1]? = some e) (hmark : e.after.flagDone = true) :
    Carried e.after (process env sw pkt).2 := by
  have hpos := h.program.length_pos
  have hlength := h.length_ingressPass env
  have hlen := h.length_le
  refine (process_threads env sw pkt).last he ?_
  rcases process_cases env sw pkt with hp | hp
  · have hlt := (List.getElem?_eq_some_iff.1 he).1
    rw [hp] at hlt ⊢
    omega
  · rcases Nat.lt_or_ge 10 p.length with hten | hten
    · have hdrop : (p.drop 10).length = p.length - 10 := List.length_drop
      have hindex : p.length - 1 - (ingressPass env sw pkt).1.length = (p.drop 10).length - 1 := by omega
      rw [hp, List.getElem?_append_right (by omega), h.egressWords_eq, hindex] at he
      have hrest := length_egressPasses_marked (h.program.drop hten) (by omega) he hmark
      rw [hp, List.length_append, h.egressWords_eq, hrest, hlength]
      omega
    · have he' : (ingressPass env sw pkt).1[p.length - 1]? = some e := by
        rwa [hp, List.getElem?_append_left (by omega)] at he
      have hlast : (ingressPass env sw pkt).2 = ingressEnd env sw pkt e.after := by
        rw [ingressPass]
        dsimp only
        rw [runSlots_last he']
        rw [h.ingressStack_eq, List.length_take]
        omega
      have hdone : (ingressPass env sw pkt).2.flagDone = true := by
        rw [hlast]
        exact hmark
      rw [hp, egressPasses_done hdone, List.append_nil, hlength]
      omega

end Ends

/-! ### Programs -/

/-- **The meaning of a program of a function**, with this stage for each position. -/
def meaning (env : Environment) (sw : Switch) (fid : BitVec 16) (site : ℕ → Stage) (p : List ActiveInstr) :
    EStateM Unit Machine PUnit :=
  (sites site p).forM (perform env.crc16 (sw.Cell fid))

/-- **A packet that is served to its end**: its program is one of the language, its passes are covered,
there is a route for it, and nothing has stopped it. -/
structure Ready (env : Environment) (sw : Switch) (pkt : Arrival) (p : List ActiveInstr) : Prop where
  carries : Carries sw pkt p
  language : ∀ c ∈ p, c.inLanguage = true
  quota : QuotaCovers sw pkt p
  routed : ∀ addr, env.ipv4Host addr ≠ some none
  complete : pkt.state.complete = false
  dropped : pkt.state.dropped = false
  bypassEgress : pkt.state.bypassEgress = false

section Process

variable {env : Environment} {sw : Switch} {pkt : Arrival} {p : List ActiveInstr} {m : Machine}

/-- **A position that the program reaches** is looked up with what the program means up to there. -/
theorem Serves.reaches (h : Serves sw pkt.state.fid) (hr : Ready env sw pkt p) {r : ℕ} (hlt : r < p.length)
    (hm : ((sites stageOf p).take r).forM (perform env.crc16 (sw.Cell pkt.state.fid))
      (ingressStart env pkt).machine = .ok ⟨⟩ m) :
    ∃ e, (process env sw pkt).1[r]? = some e ∧ Runs pkt.state.fid e.before ∧ e.before.machine = m := by
  have hdrop : 10 < p.length → ∀ e, (process env sw pkt).1[9]? = some e → e.after.dropped = false :=
    fun hten e he => hr.carries.not_dropped hr.dropped
      (fun hc hσ => h.slot_dropped (hr.language _ hc) hσ) hten he
  -- what is left of the program up to there leads to its machine
  obtain ⟨e, he, hruns, hrest⟩ := hr.carries.reaches_with (r := r)
    (fun k σ => Runs pkt.state.fid σ ∧ (((sites stageOf p).take r).drop k).forM
      (perform env.crc16 (sw.Cell pkt.state.fid)) σ.machine = .ok ⟨⟩ m)
    hr.quota hr.routed hdrop hlt
    (fun hc h => ⟨h.1.carried hc, by rw [hc.machine]; exact h.2⟩)
    (fun h => ⟨h.1.complete, h.1.flagDone, h.1.bypassEgress⟩)
    ⟨⟨hr.complete, hr.carries.notDone, hr.bypassEgress, rfl⟩, hm⟩
    (fun {k c σ} hk hc hgood => by
      obtain ⟨hσ, hrun⟩ := hgood
      have hsite : ((sites stageOf p).take r)[k]? = some (stageOf k, c) := by
        rw [List.getElem?_take_of_lt hk, getElem?_sites, hc, Option.map_some]
      obtain ⟨hlt', hget⟩ := List.getElem?_eq_some_iff.1 hsite
      rw [List.drop_eq_getElem_cons hlt', hget] at hrun
      have h0 : c.opcode ≠ 0 := mt (hr.carries.program.opcode_eq_zero_iff hc).1 (by omega)
      rcases h.slot_performs env (stageOf k) hσ (hr.language c (List.mem_of_getElem? hc)) h0 with
        ⟨hperform, hruns⟩ | ⟨hperform, -, -⟩
      · rw [forM_cons_ok hperform] at hrun
        exact ⟨hruns, hrun⟩
      · rw [forM_cons_error hperform] at hrun
        cases hrun)
  have hnil : ([] : List (Stage × ActiveInstr)).forM (perform env.crc16 (sw.Cell pkt.state.fid))
      e.before.machine = .ok PUnit.unit e.before.machine := rfl
  rw [List.drop_eq_nil_of_le (by simp), hnil] at hrest
  obtain ⟨-, rfl⟩ := EStateM.Result.ok.inj hrest
  exact ⟨e, he, hruns, rfl⟩

/-- **A program that returns**: its packet leaves with what it means. -/
theorem Serves.process_returns (h : Serves sw pkt.state.fid) (hr : Ready env sw pkt p)
    (hm : meaning env sw pkt.state.fid stageOf p (ingressStart env pkt).machine = .error ⟨⟩ m) :
    (process env sw pkt).2.machine = m ∧ (process env sw pkt).2.complete = true := by
  obtain ⟨l₁, ⟨i, c⟩, l₂, u, hsplit, hl₁, hx⟩ := exists_of_forM_error hm
  have htake : (sites stageOf p).take l₁.length = l₁ := by rw [hsplit, List.take_left']; rfl
  have hsite : (sites stageOf p)[l₁.length]? = some (i, c) := by rw [hsplit]; simp
  rw [getElem?_sites] at hsite
  obtain ⟨c', hc, heq⟩ := Option.map_eq_some_iff.1 hsite
  obtain ⟨rfl, rfl⟩ := Prod.mk.inj heq
  have hlt := (List.getElem?_eq_some_iff.1 hc).1
  obtain ⟨e, he, hruns, rfl⟩ := h.reaches hr hlt (by rw [htake]; exact hl₁)
  obtain ⟨hs, hi⟩ := hr.carries.process_lookup hlt he
  obtain rfl : c' = e.instr := Option.some.inj (hc.symm.trans hi)
  have hthreads := process_threads env sw pkt
  have hlang := hr.language _ (List.mem_of_getElem? hc)
  have h0 : e.instr.opcode ≠ 0 := fun h0 => by
    obtain ⟨act, hdecode, -, hgoto⟩ := exists_of_inLanguage hlang
    have hop : act.opcode = 0 := by rw [← (opcode_of_decode hdecode).2.2, h0]; rfl
    have hidle : perform env.crc16 (sw.Cell pkt.state.fid) (stageOf l₁.length, e.instr) e.before.machine =
        .ok PUnit.unit e.before.machine := by
      rw [perform_eof _ h0 (hgoto (.inr hop))]
      rfl
    cases hidle.symm.trans hx
  -- there it completes, and stays as it is
  rcases h.slot_performs env (stageOf l₁.length) hruns hlang h0 with
    ⟨hperform, -⟩ | ⟨hperform, hdisabled, hslot⟩
  · cases hperform.symm.trans hx
  · obtain ⟨-, rfl⟩ := EStateM.Result.error.inj (hperform.symm.trans hx)
    have hafter : e.after = exec env e.stage e.instr.goto (.complete, none) e.before := by
      rw [hthreads.after_eq (List.mem_of_getElem? he), hs, hslot]
    have hstart : e.after.complete = true ∧ e.after.disabled = false ∧ e.after.fid = pkt.state.fid ∧
        e.after.machine = e.before.machine := by
      rw [hafter]
      unfold exec
      dsimp only
      split_ifs
      · exact ⟨rfl, hdisabled, hruns.fid_eq, rfl⟩
      · exact ⟨rfl, hdisabled, hruns.fid_eq, rfl⟩
    have hfinal := ((hthreads.drop he).keeps
      (P := fun σ => σ.complete = true ∧ σ.disabled = false ∧ σ.fid = pkt.state.fid ∧
        σ.machine = e.before.machine)
      (fun hc h => ⟨hc.complete.trans h.1, hc.disabled.trans h.2.1, hc.fid.trans h.2.2.1,
        hc.machine.trans h.2.2.2⟩)
      (fun {i instr σ} hσ => by
        rw [slot_completed h.equipped hσ.1 hσ.2.1 (by rw [hσ.2.2.1]; exact h.common)]
        exact hσ) hstart).1
    exact ⟨hfinal.2.2.2, hfinal.1⟩

/-- **A program that reaches its end**, enabled: its packet leaves with what it means, and is marked. -/
theorem Serves.process_ends (h : Serves sw pkt.state.fid) (hr : Ready env sw pkt p)
    (hm : meaning env sw pkt.state.fid stageOf p (ingressStart env pkt).machine = .ok ⟨⟩ m)
    (henabled : m.disabled = false) :
    (process env sw pkt).2.machine = m ∧ (process env sw pkt).2.flagDone = true := by
  have hpos := hr.carries.program.length_pos
  have hlast : p[p.length - 1]? = some p[p.length - 1] := List.getElem?_eq_getElem (by omega)
  generalize p[p.length - 1] = c at hlast
  have h0 : c.opcode = 0 := (hr.carries.program.opcode_eq_zero_iff hlast).2 (by omega)
  have hlang := hr.language c (List.mem_of_getElem? hlast)
  obtain ⟨act, hdecode, hlang', hgoto⟩ := exists_of_inLanguage hlang
  obtain rfl : act = eofInstruction := by
    have hrow : c.decode = some eofInstruction := by
      rw [ActiveInstr.decode, h0]
      decide +kernel
    exact Option.some.inj (hdecode.symm.trans hrow)
  have hgoto : c.goto = false := hgoto (.inr rfl)
  -- the end does nothing to the machine
  have hprefix : ((sites stageOf p).take (p.length - 1)).forM (perform env.crc16 (sw.Cell pkt.state.fid))
      (ingressStart env pkt).machine = .ok ⟨⟩ m := by
    have hsplit : sites stageOf p = (sites stageOf p).take (p.length - 1) ++ [(stageOf (p.length - 1), c)] := by
      conv_lhs => rw [← List.take_append_drop (p.length - 1) (sites stageOf p)]
      congr 1
      have hsite : (sites stageOf p)[p.length - 1]? = some (stageOf (p.length - 1), c) := by
        rw [getElem?_sites, hlast, Option.map_some]
      obtain ⟨hlt, hget⟩ := List.getElem?_eq_some_iff.1 hsite
      rw [List.drop_eq_getElem_cons hlt, hget, List.drop_eq_nil_of_le (by rw [length_sites]; omega)]
    unfold meaning at hm
    rw [hsplit] at hm
    simpa [perform_eof _ h0 hgoto] using hm
  obtain ⟨e, he, hruns, rfl⟩ := h.reaches hr (by omega) hprefix
  obtain ⟨hs, hi⟩ := hr.carries.process_lookup (by omega) he
  obtain rfl : c = e.instr := Option.some.inj (hlast.symm.trans hi)
  have hafter : e.after = { e.before with flagDone := true } := by
    have hserves : Serves sw e.before.fid := hruns.fid_eq.symm ▸ h
    have hdisabled : ¬ e.before.disabled = true := fun hd => Bool.false_ne_true (henabled.symm.trans hd)
    have hcond : CondHolds eofInstruction e.before.mbr := trivial
    rw [(process_threads env sw pkt).after_eq (List.mem_of_getElem? he),
      hserves.slot_eq hdecode hlang' (fun _ => hgoto) rfl hruns.complete,
      if_neg (fun hand => Bool.false_ne_true hand.1), if_neg hdisabled, if_neg (not_not.2 hcond)]
    rfl
  have hcarried := hr.carries.carried_of_marked he (by rw [hafter])
  exact ⟨hcarried.machine.trans (by rw [hafter]; rfl), hcarried.flagDone.trans (by rw [hafter])⟩

end Process

/-- **A mutant means what its program means**, at the stages of the cells. -/
theorem meaning_of_places {env : Environment} {sw : Switch} {fid : BitVec 16} {site : ℕ → Stage}
    {code mutant : List ActiveInstr} {dst : ℕ → ℕ} (h : Places .nop code mutant dst) :
    meaning env sw fid site mutant = meaning env sw fid (fun k => site (dst k)) code :=
  forM_sites_of_places perform_nop h

/-- A program is where it is. -/
theorem places_self (code : List ActiveInstr) : Places .nop code code id :=
  ⟨fun _ _ hij _ => hij, fun _ hi => hi, fun _ _ => rfl, fun p hp hne => absurd rfl (hne p hp)⟩

/-- **The mutation moves each access to its stage** of the allocation. -/
theorem exists_places_moved {ap4 : ActiveProgramDef ActiveInstr} {validStages : Stage → Bool}
    {mutant : List ActiveInstr} (hacc : ap4.accessIdx = accesses ActiveInstr.isMemaccess 0 ap4.code)
    (hmutant : mutateActiveProgram ActiveInstr.isMemaccess .nop ap4 validStages = some mutant)
    (horiginal : isOriginal validStages ap4.accessIdx = false)
    (h : Aligned ap4.accessIdx (accessIdxAllocated validStages)) :
    (accessIdxAllocated validStages).length = ap4.accessIdx.length ∧ ∃ dst, Places .nop ap4.code mutant dst ∧
      ∀ z ∈ ap4.accessIdx.zip (accessIdxAllocated validStages), (stageOf (dst z.1) : ℕ) = z.2 := by
  obtain ⟨hlen, hfit, -⟩ := (mutateActiveProgram_eq_some_iff horiginal).1 hmutant
  have hgrowth : increasePass ActiveInstr.isMemaccess ap4.code 0 (accessIdxAllocated validStages) 0 =
      growth ap4.accessIdx (accessIdxAllocated validStages) := by
    rw [increasePass_eq, ← hacc]
    exact foldl_shift_eq h.ascending le_rfl fun p hp => h.nonneg hp
  obtain ⟨mutant', hmutant', hplaces, -⟩ := mutateActiveProgram_aligned hacc horiginal hlen h (hgrowth ▸ hfit)
  obtain rfl := Option.some.inj (hmutant.symm.trans hmutant')
  refine ⟨hlen, _, hplaces, fun z hz => ?_⟩
  have hsorted : ap4.accessIdx.Pairwise (· < ·) := hacc ▸ pairwise_accesses 0 ap4.code
  obtain ⟨s, -, hs⟩ := mem_accessIdxAllocated.1 (List.of_mem_zip hz).2
  rw [← getMemoryStageId_eq, cellOf_access hsorted hlen hz, getMemoryStageId_moved (hs ▸ s.isLt), if_neg]
  -- an ingress stage is not before its access
  rintro ⟨hlow, hbefore⟩
  have := h.ingress z hz hlow
  omega

/-- The mutation puts the accesses at the stages of the allocation. -/
theorem exists_places {ap4 : ActiveProgramDef ActiveInstr} {validStages : Stage → Bool} {mutant : List ActiveInstr}
    (hacc : ap4.accessIdx = accesses ActiveInstr.isMemaccess 0 ap4.code) (hcode : ap4.mutant = ap4.code)
    (hmutant : mutateActiveProgram ActiveInstr.isMemaccess .nop ap4 validStages = some mutant)
    (haligned : isOriginal validStages ap4.accessIdx = false →
      Aligned ap4.accessIdx (accessIdxAllocated validStages)) :
    ∃ dst, Places .nop ap4.code mutant dst ∧ ∀ y ∈ ap4.accessIdx, validStages (stageOf (dst y)) = true := by
  cases horiginal : isOriginal validStages ap4.accessIdx with
  | true =>
      rw [mutateActiveProgram, if_pos horiginal] at hmutant
      obtain rfl := Option.some.inj hmutant
      rw [hcode]
      exact ⟨id, places_self ap4.code, fun y hy => List.all_eq_true.1 horiginal y hy⟩
  | false =>
      obtain ⟨hlen, dst, hplaces, hstages⟩ := exists_places_moved hacc hmutant horiginal (haligned horiginal)
      refine ⟨dst, hplaces, fun y hy => ?_⟩
      -- the stage that the access is moved to
      obtain ⟨k, hk, rfl⟩ := List.mem_iff_getElem.1 hy
      have hz : (ap4.accessIdx[k], (accessIdxAllocated validStages)[k]) ∈
          ap4.accessIdx.zip (accessIdxAllocated validStages) :=
        List.mem_iff_getElem.2 ⟨k, by simp [hlen, hk], by simp⟩
      obtain ⟨s, hvalid, hs⟩ := mem_accessIdxAllocated.1 (List.getElem_mem (h := hlen ▸ hk))
      rw [Fin.ext ((hstages _ hz).trans hs)]
      exact hvalid

/-- `cacheread.ap4`, compiled with preloaded registers: the words of the key are compared with those at the
first two accesses, and the third one is the value. -/
def cacheread : List ActiveInstr :=
  [.memRead, .mbrEqualsData1, .cret, .memRead, .mbrEqualsData2, .cret, .rts, .memRead, .mbrStore, .nop, .nop,
    .return_, .eof].map instrOf

theorem eofTerminated_cacheread : EofTerminated cacheread :=
  ⟨cacheread.take 12, instrOf .eof, by decide +kernel, by decide +kernel, by decide +kernel⟩

theorem inLanguage_cacheread : ∀ c ∈ cacheread, c.inLanguage = true := by decide +kernel

theorem inLanguage_nop : ActiveInstr.nop.inLanguage = true := by decide +kernel

theorem accesses_cacheread : ([0, 3, 7] : List ℕ) = accesses ActiveInstr.isMemaccess 0 cacheread := by
  decide +kernel

/-- A packet of a client, with preloaded registers. -/
def clientPacket (f : BitVec 16) (args : Fin 4 → Word) (heap : Stages) (code : List ActiveInstr) : Arrival where
  state := { blankState f with data := args, heap := heap }
  words := code
  flagPreload := true
  flagAllocated := false
  flagInitiated := false

theorem ready_clientPacket {f : BitVec 16} {args : Fin 4 → Word} {heap : Stages} {sw : Switch}
    {code : List ActiveInstr} (hcode : EofTerminated code) (hlen : code.length ≤ 20)
    (hlang : ∀ c ∈ code, c.inLanguage = true) :
    Ready quietEnvironment sw (clientPacket f args heap code) code where
  carries := ⟨hcode, by omega, ⟨[], (List.append_nil _).symm⟩, rfl, rfl⟩
  language := hlang
  quota := by
    unfold QuotaCovers
    omega
  routed := fun _ => by simp [quietEnvironment]
  complete := rfl
  dropped := rfl
  bypassEgress := rfl

/-- A packet that looks up a key. -/
def lookupPacket (f : BitVec 16) (heap : Stages) (code : List ActiveInstr) : Arrival :=
  clientPacket f ![5, 11, 22, 0] heap code

/-- A memory with the words of a key and its value, from this stage on. -/
def entryFrom (s : ℕ) : Stages := fun i _ =>
  if i.val = s then 11 else if i.val = s + 3 then 22 else if i.val = s + 7 then 33 else 0

namespace Controller

variable {cfg : ControllerConfig} {c : Controller} {es : List Event} {env : Environment} {pkt : Arrival}

/-- **The tables serve every function** that has common entries. -/
theorem Secure.serves (h : Secure cfg c.switch c.allocator) {fid : BitVec 16} (hfid : fid.toNat ≤ 255) :
    Serves c.switch fid where
  equipped := by
    obtain ⟨g, hg, -⟩ := h
    exact hg.toEquipped
  common := hfid
  granted i a hcell := by
    obtain ⟨-, -, -, -, -, lo, hi, -, -, hgrants, haddr⟩ := h.exists_range (h.inBlock hcell).1
    exact ⟨lo, hi, hgrants, (haddr _).1 hcell⟩

/-- Two functions with this program arrive: the accesses of the first stay where they are, and those of the
second move on by a stage. -/
def twoCaches : List Event :=
  let cache (f : Fid) (d : ℕ) : MallocDigest :=
    ⟨f, 13, 7, fun k =>
      if k.val = 0 then (0, d) else if k.val = 1 then (3, d) else if k.val = 2 then (7, d) else (0, 0)⟩
  [.malloc (cache 1 1), .take, .finish, .malloc (cache 2 2), .take, .remapAck (acknowledgement 1), .finish]

/-- Both have their memory, and what the program of the first function means is that the value is found. -/
theorem run_twoCaches :
    ∃ c, Run (fun c e c' => Step smallConfig c e c' ∧ c.Calm e) (init smallConfig) twoCaches c ∧
      c.mutex = false ∧ (match meaning quietEnvironment c.switch 1 stageOf cacheread
          (ingressStart quietEnvironment (lookupPacket 1 (entryFrom 0) cacheread)).machine with
        | .error _ m => decide (m.data 3 = 33)
        | .ok _ _ => false) = true := by
  have hrun : (twoCaches.foldlM
      (fun c e => if Calm c e then execute smallConfig [e] c else none) (init smallConfig)).map
        (fun c => decide (c.mutex = false) && match meaning quietEnvironment c.switch 1 stageOf cacheread
          (ingressStart quietEnvironment (lookupPacket 1 (entryFrom 0) cacheread)).machine with
            | .error _ m => decide (m.data 3 = 33)
            | .ok _ _ => false) = some true := by decide +kernel
  obtain ⟨c, hc, hend⟩ := Option.map_eq_some_iff.1 hrun
  obtain ⟨hm, hvalue⟩ := Bool.and_eq_true_iff.1 hend
  exact ⟨c, (run_of_foldlM hc).mono fun _ _ _ h => ⟨step_of_execute h.1, h.2⟩, of_decide_eq_true hm, hvalue⟩

end Controller

end ActiveRmt
