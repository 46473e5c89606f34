/-
**What the optimiser preserves.**

The registers of a packet with preloading hold its data words when the program starts.  The optimiser
leaves out the first load of a register when no earlier line has the register in its name.  Some
instructions write a register without having it in their name; a load behind one of them is not
redundant, and neither is a load of an address that does not fit twenty bits, or one with a label.

Both programs are run line by line, each line at its own site.

Main definitions:

* `runLine`, `final`, `branches` — the meaning of a list of lines;
* `unseenWriter` — the instructions that the scan does not see writing a register;
* `Removed`, `Harmless` — a line that is left out, and when this changes nothing;
* `SameMeaning` — the two programs do the same.

Main results:

* `same_meaning` — **when all lines that are left out are harmless, the optimiser preserves the
  meaning**;
* `salt_lost` — a load behind `LOAD_SALT`.
-/

import ActiveRmt.Compiler

set_option relaxedAutoImplicit false
set_option autoImplicit false

namespace ActiveRmt

/-! ### Meaning -/

/-- The first memory access behind line `i`. -/
def accessBehind (buffer : List ActiveInstruction) (i : ℕ) : Option ℕ :=
  (buffer.zipIdx.find? fun x => decide (i < x.2) && x.1.opcode.isMem).map Prod.snd

/-- An address translation is for the site of the access behind it. -/
def boundOpcode (site : ℕ → Stage) (access : Option ℕ) : Pnemonic → Pnemonic
  | .addrMask => (access.map fun m => Pnemonic.addrMaskAt (site m)).getD .addrMask
  | .addrOffset => (access.map fun m => Pnemonic.addrOffsetAt (site m)).getD .addrOffset
  | p => p

/-- The bytes of a line. -/
def bytesAt (site : ℕ → Stage) (buffer : List ActiveInstruction) (x : ActiveInstruction × ℕ) :
    ActiveInstr :=
  ActiveInstruction.getBytes ⟨boundOpcode site (accessBehind buffer x.2) x.1.opcode, x.1.goto⟩

/-- The surroundings in which a program is run: its tables, the site of each line, and all its
lines. -/
structure Setting where
  /-- What the pipelines read from outside. -/
  env : Environment
  /-- The tables. -/
  sw : Switch
  /-- The stage of each line, the same whether or not other lines are left out. -/
  site : ℕ → Stage
  /-- The lines. -/
  buffer : List ActiveInstruction

/-- **A line**: its slot at its site. -/
def runLine (S : Setting) (x : ActiveInstruction × ℕ) (σ : PacketState) : PacketState :=
  slot S.env S.sw (S.site x.2) (bytesAt S.site S.buffer x) σ

/-- The state in which a list of lines ends. -/
def final (S : Setting) (xs : List (ActiveInstruction × ℕ)) (σ : PacketState) : PacketState :=
  xs.foldl (fun σ x => runLine S x σ) σ

/-- The instruction is a jump. -/
def Pnemonic.isJump : Pnemonic → Bool
  | .cjump | .cjumpi | .ujump => true
  | _ => false

/-- The branch decisions of a list of lines. -/
def branches (S : Setting) : List (ActiveInstruction × ℕ) → PacketState → List (ℕ × Bool)
  | [], _ => []
  | x :: xs, σ =>
      let σ' := runLine S x σ
      let rest := branches S xs σ'
      if x.1.opcode.isJump then (x.2, !σ.disabled && σ'.disabled) :: rest else rest

/-- The optimiser on numbered lines. -/
def keptLines (regLoad : Register → Option (ℕ × Option Param × Bool)) :
    (Register → Bool) → List (ActiveInstruction × ℕ) → List (ActiveInstruction × ℕ)
  | _, [] => []
  | skipped, x :: xs =>
      match isSkipped regLoad skipped x.1.opcode with
      | some reg => keptLines regLoad (Function.update skipped reg true) xs
      | none => x :: keptLines regLoad skipped xs

/-- The numbers do not matter. -/
theorem keptLines_fst (regLoad : Register → Option (ℕ × Option Param × Bool))
    (skipped : Register → Bool) (xs : List (ActiveInstruction × ℕ)) :
    (keptLines regLoad skipped xs).map Prod.fst = skipLoads regLoad skipped (xs.map Prod.fst) := by
  induction xs generalizing skipped with
  | nil => rfl
  | cons x xs ih =>
      rw [List.map_cons]
      unfold keptLines skipLoads
      cases isSkipped regLoad skipped x.1.opcode with
      | some reg => exact ih _
      | none => rw [List.map_cons, ih]

/-- **The two programs do the same**: data, memory, registers and branch decisions. -/
def SameMeaning (program : List SourceLine) (S : Setting) (σ : PacketState) : Prop :=
  let full := S.buffer.zipIdx
  let short := keptLines (scan program).regLoad (fun _ => false) full
  (final S short σ).data = (final S full σ).data ∧ (final S short σ).heap = (final S full σ).heap ∧
    (final S short σ).mar = (final S full σ).mar ∧ (final S short σ).mbr = (final S full σ).mbr ∧
    (final S short σ).mbr2 = (final S full σ).mbr2 ∧ branches S short σ = branches S full σ

/-! ### Redundant loads -/

/-- The instruction writes the register, or the word it is loaded from, without having the register
in its name. -/
def unseenWriter : Register → Pnemonic → Bool
  | .mar, p => p.isAddr
  | .mbr, p => p.isMem && decide (p ≠ .memWrite) ||
      decide (p ∈ [.loadSalt, .loadQdelay, .loadQueue, .loadPktcount])
  | .mbr2, p => decide (p ∈ [.memMinread, .memMinreadinc, .swapMbrMbr2, .mbrStoreAlt2])

/-- **Line `i`, a load of `reg`, is left out**: it is the first one, and no line before the first
load that the scan has found has the register in its name. -/
structure Removed (program : List SourceLine) (i : ℕ) (reg : Register) : Prop where
  load : ∃ line, program[i]? = some line ∧ loadedRegister line.opcode = some reg
  unreferenced : ((scan program).regLoad reg).any (fun load => !load.2.2) = true
  first : ∀ k < i, ∀ line, program[k]? = some line → loadedRegister line.opcode ≠ some reg

/-- **A load that can be left out**: no line before it is an unseen writer, an address fits twenty
bits, and it has no label unless no line before it jumps. -/
structure Harmless (program : List SourceLine) (data : Fin 4 → Word) (i : ℕ) (reg : Register) :
    Prop where
  unwritten : ∀ k < i, ∀ line, program[k]? = some line → unseenWriter reg line.opcode = false
  address : reg = .mar → (data 0).toNat < 2 ^ 20
  unlabelled : (∃ line name, program[i]? = some line ∧ (line.Carries name ∨ line.RefersTo name)) →
    ∀ k < i, ∀ line, program[k]? = some line → line.opcode.isJump = false

/-- The action writes the register, or the word it is loaded from. -/
def Action.writes : Register → Action → Bool
  | .mar, a => decide (a ∈ [.marLoad, .marAddMbr, .marAddMbr2, .marMbrAddMbr2, .bitAndMarMbr,
      .copyMarMbr, .hash, .addrMaskApply, .addrOffsetApply])
  | .mbr, a => decide (a ∈ [.mbrLoad, .mbrStoreAlt, .mbr1EqualsMbr2, .mbrEqualsD0, .mbrEqualsD1,
      .mbrEqualsD2, .mbrEqualsD3, .maxMbrMbr2, .minMbr1Mbr2, .swapMbrMbr2, .notMbr, .mbrSubtractMbr2,
      .mbrAddMbr2, .mbrOrMbr2, .copyMbr1Mbr2, .copyMbrMar, .memoryRead, .memoryIncrement,
      .memoryMinread, .memoryMinreadinc, .memoryWriteZero, .loadSalt, .fetchQdelay, .fetchQueue,
      .fetchPktcount])
  | .mbr2, a => decide (a ∈ [.mbr2Load, .mbrStoreAlt2, .minMbr2Mbr1, .swapMbrMbr2, .copyMbr2Mbr1,
      .memoryMinread, .memoryMinreadinc])

/-- The register holds the word it is loaded from. -/
def Loaded (reg : Register) (σ : PacketState) : Prop := σ.register reg = σ.data reg.word

section Exec

variable {env : Environment} {i : Stage} {σ : PacketState}

theorem exec_loaded {goto : Bool} {a : BoundAction} {reg : Register}
    (ha : a.1.writes reg = false) (h : Loaded reg σ) : Loaded reg (exec env i goto a σ) := by
  obtain ⟨act, arg⟩ := a
  unfold Loaded at h ⊢
  dsimp only at ha
  cases reg <;> cases act <;> first
    | exact absurd ha (by decide)
    | (simp only [exec]; (try split_ifs) <;> simpa [PacketState.register, Register.word] using h)

theorem exec_data_zero {goto : Bool} {a : BoundAction} : (exec env i goto a σ).data 0 = σ.data 0 := by
  obtain ⟨act, arg⟩ := a
  cases act <;> simp only [exec] <;> (try split_ifs) <;> simp

/-- What the tables know about writers, the scan sees or the condition names. -/
theorem writes_cases : ∀ reg : Register, ∀ act ∈ instructionSet,
    act.action.any (Action.writes reg) = true →
      registerOf act.pnemonic = some reg ∨ unseenWriter reg act.pnemonic = true := by
  intro reg
  cases reg <;> decide +kernel

end Exec

/-! ### Lines -/

theorem pnemonicToOpcode_of_mem : ∀ act ∈ instructionSet,
    pnemonicToOpcode act.pnemonic = some act.opcode ∧ act.opcode < 256 := by
  decide +kernel

/-- Every instruction has a row. -/
theorem exists_instruction (p : Pnemonic) : ∃ act ∈ instructionSet, act.pnemonic = p := by
  have hmask : ∀ s : Stage, ∃ act ∈ instructionSet, act.pnemonic = .addrMaskAt s := by
    decide +kernel
  have hoffset : ∀ s : Stage, ∃ act ∈ instructionSet, act.pnemonic = .addrOffsetAt s := by
    decide +kernel
  cases p with
  | addrMaskAt s => exact hmask s
  | addrOffsetAt s => exact hoffset s
  | _ => decide +kernel

/-- An entry for the bytes of an instruction is one of that instruction. -/
theorem pnemonic_of_opcode {act : Instruction} (hact : act ∈ instructionSet) {p : Pnemonic} {b : Bool}
    (hop : (ActiveInstruction.getBytes ⟨p, b⟩).opcode.toNat = act.opcode) : act.pnemonic = p := by
  obtain ⟨act₀, hact₀, rfl⟩ := exists_instruction p
  obtain ⟨hopcode, hlt⟩ := pnemonicToOpcode_of_mem act₀ hact₀
  have hbytes : (ActiveInstruction.getBytes ⟨act₀.pnemonic, b⟩).opcode.toNat = act₀.opcode := by
    simp [ActiveInstruction.getBytes, hopcode, Nat.mod_eq_of_lt hlt]
  rw [instruction_eq hact hact₀ (hop.symm.trans hbytes)]

@[simp] theorem goto_getBytes (instr : ActiveInstruction) : instr.getBytes.goto = instr.goto := by
  obtain ⟨p, b⟩ := instr
  cases b <;> simp [ActiveInstruction.getBytes, ActiveInstr.goto]

section BoundOpcode

variable (site : ℕ → Stage) (access : Option ℕ) (p : Pnemonic)

@[simp] theorem registerOf_boundOpcode : registerOf (boundOpcode site access p) = registerOf p := by
  cases p <;> cases access <;> rfl

@[simp] theorem isJump_boundOpcode : (boundOpcode site access p).isJump = p.isJump := by
  cases p <;> cases access <;> rfl

@[simp] theorem unseenWriter_boundOpcode (reg : Register) :
    unseenWriter reg (boundOpcode site access p) = unseenWriter reg p := by
  cases p <;> cases access <;> cases reg <;> rfl

@[simp] theorem loadedRegister_boundOpcode :
    loadedRegister (boundOpcode site access p) = loadedRegister p := by
  cases p <;> cases access <;> rfl

end BoundOpcode

section Lines

variable {S : Setting} {x : ActiveInstruction × ℕ} {σ : PacketState} {reg : Register}

/-- **What a line does**: nothing, an attempt to rejoin, or an action of its instruction. -/
theorem runLine_cases (hsw : S.sw.Equipped) (x : ActiveInstruction × ℕ) (σ : PacketState) :
    runLine S x σ = σ ∨
    ∃ a, runLine S x σ = exec S.env (S.site x.2) x.1.goto a σ ∧
      ((σ.disabled = true ∧ a = (.attemptRejoin, none)) ∨
        (σ.disabled = false ∧ ∃ act ∈ instructionSet,
          act.pnemonic = boundOpcode S.site (accessBehind S.buffer x.2) x.1.opcode ∧
          (some a.1 = act.action ∨ (act.condition.isSome = true ∧ a.1 = .skip)))) := by
  unfold runLine slot
  cases hl : S.sw.lookup (S.site x.2) (σ.key (bytesAt S.site S.buffer x)) with
  | none => exact .inl rfl
  | some a =>
      refine .inr ⟨a, by simp [bytesAt], ?_⟩
      rcases hsw.action_of_lookup hl with ⟨hd, _, ha⟩ | ⟨hd, act, hset, hop, _, ha⟩
      · exact .inl ⟨hd, ha⟩
      · refine .inr ⟨hd, act, hset, pnemonic_of_opcode hset hop, ?_⟩
        exact ha.imp_right fun h => ⟨h.2.1, h.2.2⟩

/-- A line that neither has the register in its name nor is an unseen writer. -/
theorem runLine_loaded (hsw : S.sw.Equipped) (hreg : registerOf x.1.opcode ≠ some reg)
    (hunseen : unseenWriter reg x.1.opcode = false) (h : Loaded reg σ) :
    Loaded reg (runLine S x σ) := by
  rcases runLine_cases hsw x σ with hrun | ⟨a, hrun, ha⟩ <;> rw [hrun]
  · exact h
  · refine exec_loaded ?_ h
    rcases ha with ⟨_, rfl⟩ | ⟨_, act, hset, hp, ha | ⟨_, ha⟩⟩
    · cases reg <;> rfl
    · rw [← Bool.not_eq_true]
      intro hwrites
      rcases writes_cases reg act hset (by rw [← ha]; exact hwrites) with hr | hu
      · rw [hp, registerOf_boundOpcode] at hr
        exact hreg hr
      · rw [hp, unseenWriter_boundOpcode, hunseen] at hu
        exact Bool.false_ne_true hu
    · rw [ha]
      cases reg <;> rfl

theorem runLine_data_zero (hsw : S.sw.Equipped) : (runLine S x σ).data 0 = σ.data 0 := by
  rcases runLine_cases hsw x σ with hrun | ⟨a, hrun, _⟩ <;> rw [hrun]
  exact exec_data_zero

/-- Only jumps disable a program. -/
theorem runLine_enabled (hsw : S.sw.Equipped) (hjump : x.1.opcode.isJump = false)
    (h : σ.disabled = false) : (runLine S x σ).disabled = false := by
  rcases runLine_cases hsw x σ with hrun | ⟨a, hrun, ha⟩ <;> rw [hrun]
  · exact h
  · have hnot : a.1 ≠ .jump ∧ a.1 ≠ .attemptRejoin := by
      rcases ha with ⟨hd, _⟩ | ⟨_, act, hset, hp, ha | ⟨_, ha⟩⟩
      · exact absurd (hd.symm.trans h) (by decide)
      · have key : ∀ act ∈ instructionSet, (act.action = some .jump → act.pnemonic.isJump = true) ∧
            act.action ≠ some .attemptRejoin := by decide +kernel
        refine ⟨fun hj => ?_, fun hj => (key act hset).2 (by rw [← ha, hj])⟩
        have := (key act hset).1 (by rw [← ha, hj])
        rw [hp, isJump_boundOpcode, hjump] at this
        exact Bool.false_ne_true this
      · rw [ha]
        exact ⟨by decide, by decide⟩
    rw [exec_disabled, if_neg hnot.1, if_neg hnot.2, h]

/-- The action that loads a register. -/
def Register.loadAction : Register → Action
  | .mar => .marLoad
  | .mbr => .mbrLoad
  | .mbr2 => .mbr2Load

theorem action_of_loadedRegister : ∀ reg : Register, ∀ act ∈ instructionSet,
    loadedRegister act.pnemonic = some reg →
      act.action = some reg.loadAction ∧ act.condition = none := by
  intro reg
  cases reg <;> decide +kernel

/-- Loading what is there already. -/
theorem exec_loadAction {env : Environment} {i : Stage} {goto : Bool} {arg : Option ℚ}
    (h : Loaded reg σ) (haddress : reg = .mar → (σ.data 0).toNat < 2 ^ 20) :
    exec env i goto (reg.loadAction, arg) σ = σ := by
  unfold Loaded at h
  cases reg with
  | mar =>
      have hmask : σ.data 0 &&& 0xFFFFF = σ.data 0 := by
        refine BitVec.eq_of_toNat_eq ?_
        rw [BitVec.toNat_and]
        exact Nat.and_two_pow_sub_one_of_lt_two_pow (haddress rfl)
      have hmar : σ.mar = σ.data 0 := h
      rw [← hmar] at hmask
      simp only [exec, Register.loadAction, ← hmar, hmask]
  | mbr =>
      have hmbr : σ.mbr = σ.data 1 := h
      simp only [exec, Register.loadAction, ← hmbr]
  | mbr2 =>
      have hmbr2 : σ.mbr2 = σ.data 2 := h
      simp only [exec, Register.loadAction, ← hmbr2]

/-- **A redundant load** changes nothing. -/
theorem runLine_redundant (hsw : S.sw.Equipped) (hload : loadedRegister x.1.opcode = some reg)
    (h : Loaded reg σ) (haddress : reg = .mar → (σ.data 0).toNat < 2 ^ 20)
    (hgoto : x.1.goto = true → σ.disabled = false) : runLine S x σ = σ := by
  rcases runLine_cases hsw x σ with hrun | ⟨a, hrun, ha⟩ <;> rw [hrun]
  rcases ha with ⟨hd, rfl⟩ | ⟨_, act, hset, hp, ha⟩
  · have hfalse : x.1.goto = false := by
      rw [← Bool.not_eq_true]
      exact fun h => absurd ((hgoto h).symm.trans hd) (by decide)
    rw [hfalse]
    simp [exec]
  · obtain ⟨haction, hcond⟩ := action_of_loadedRegister reg act hset
      (by rw [hp, loadedRegister_boundOpcode]; exact hload)
    rcases ha with ha | ⟨hsome, _⟩
    · obtain ⟨action, arg⟩ := a
      obtain rfl : action = reg.loadAction := Option.some.inj (ha.trans haction)
      exact exec_loadAction h haddress
    · rw [hcond] at hsome
      exact absurd hsome (by decide)

end Lines

/-! ### The scan -/

section Scan

theorem registerOf_of_isMem {p : Pnemonic} (h : p.isMem = true) : registerOf p = none := by
  cases p <;> first | rfl | exact absurd h (by simp [Pnemonic.isMem])

theorem scanLine_referencedRegs (s : Scan) (x : SourceLine × ℕ) (reg : Register) :
    (scanLine s x).referencedRegs reg =
      (s.referencedRegs reg || decide (registerOf x.1.opcode = some reg)) := by
  have hif : ∀ (c : Prop) [Decidable c] (s : Scan) (n : ℤ),
      (if c then { s with iglim := n } else s).referencedRegs = s.referencedRegs := by
    intro c _ s n
    split_ifs <;> rfl
  unfold scanLine
  dsimp only
  rw [hif]
  split_ifs with hmem
  · simp [registerOf_of_isMem hmem]
  · cases hr : registerOf x.1.opcode with
    | none => simp
    | some r =>
        dsimp only
        by_cases hrr : r = reg
        · subst hrr
          simp
        · rw [Function.update_of_ne (Ne.symm hrr)]
          split_ifs <;> simp [hrr]

theorem scanLine_regLoad (s : Scan) (x : SourceLine × ℕ) (reg : Register) :
    (scanLine s x).regLoad reg =
      if registerOf x.1.opcode = some reg ∧ x.1.opcode.isLoad = true ∧ s.regLoad reg = none then
        some (x.2, x.1.param1, s.referencedRegs reg) else s.regLoad reg := by
  have hif : ∀ (c : Prop) [Decidable c] (s : Scan) (n : ℤ),
      (if c then { s with iglim := n } else s).regLoad = s.regLoad := by
    intro c _ s n
    split_ifs <;> rfl
  unfold scanLine
  dsimp only
  rw [hif]
  by_cases hmem : x.1.opcode.isMem = true
  · simp [hmem, registerOf_of_isMem hmem]
  · rw [if_neg hmem]
    cases hr : registerOf x.1.opcode with
    | none => simp
    | some r =>
        dsimp only
        have hload : (x.1.opcode.isLoad && (s.regLoad r).isNone) = true ↔
            x.1.opcode.isLoad = true ∧ s.regLoad r = none := by
          rw [Bool.and_eq_true, Option.isNone_iff_eq_none]
        by_cases hc : x.1.opcode.isLoad = true ∧ s.regLoad r = none
        · simp only [if_pos (hload.2 hc)]
          by_cases hrr : r = reg
          · subst hrr
            rw [if_pos ⟨rfl, hc⟩, Function.update_self]
          · rw [if_neg (fun h => hrr (Option.some.inj h.1)), Function.update_of_ne (Ne.symm hrr)]
        · simp only [if_neg (fun h => hc (hload.1 h))]
          rw [if_neg]
          intro h
          obtain rfl : r = reg := Option.some.inj h.1
          exact hc h.2

theorem scan_concat (program : List SourceLine) (line : SourceLine) :
    scan (program ++ [line]) = scanLine (scan program) (line, program.length) := by
  unfold scan
  rw [List.zipIdx_append, List.foldl_append, Nat.zero_add]
  rfl

/-- The names that the scan has seen. -/
theorem scan_referencedRegs (program : List SourceLine) (reg : Register) :
    (scan program).referencedRegs reg = program.any fun line =>
      decide (registerOf line.opcode = some reg) := by
  induction program using List.reverseRecOn with
  | nil => rfl
  | append_singleton program line ih =>
      rw [scan_concat, scanLine_referencedRegs, ih, List.any_append]
      simp

/-- **The load that the scan has found**, and what stands before it. -/
theorem scan_regLoad {program : List SourceLine} {reg : Register} {i : ℕ} {arg : Option Param}
    (h : (scan program).regLoad reg = some (i, arg, false)) :
    (∃ line, program[i]? = some line ∧ line.opcode.isLoad = true ∧
      registerOf line.opcode = some reg) ∧
    ∀ k < i, ∀ line, program[k]? = some line → registerOf line.opcode ≠ some reg := by
  induction program using List.reverseRecOn with
  | nil => exact absurd h (by simp [scan])
  | append_singleton program line ih =>
      rw [scan_concat, scanLine_regLoad] at h
      split_ifs at h with hc
      · rw [Option.some.injEq, Prod.mk.injEq, Prod.mk.injEq, scan_referencedRegs] at h
        obtain ⟨rfl, _, hany⟩ := h
        refine ⟨⟨line, by simp, hc.2.1, hc.1⟩, fun k hk line' hline' hreg => ?_⟩
        dsimp only at hk
        rw [List.getElem?_append_left hk] at hline'
        have := List.any_eq_false.1 hany line' (List.mem_of_getElem? hline')
        exact this (decide_eq_true hreg)
      · obtain ⟨⟨line', hline', hload⟩, hbefore⟩ := ih h
        have hlt := (List.getElem?_eq_some_iff.1 hline').1
        refine ⟨⟨line', by rw [List.getElem?_append_left hlt]; exact hline', hload⟩, ?_⟩
        intro k hk line'' hline''
        rw [List.getElem?_append_left (hk.trans hlt)] at hline''
        exact hbefore k hk line'' hline''

/-- The loads that the scan finds are those that the optimiser leaves out, and two unseen writers. -/
theorem loadedRegister_of_isLoad {p : Pnemonic} {reg : Register} (hload : p.isLoad = true)
    (hreg : registerOf p = some reg) :
    loadedRegister p = some reg ∨ unseenWriter reg p = true := by
  cases p <;> first
    | (obtain rfl : _ = reg := Option.some.inj hreg; first | exact .inl rfl | exact .inr rfl)
    | exact absurd hload Bool.false_ne_true
    | exact absurd hreg (by simp [registerOf])

/-- **Nothing writes the register before a harmless load that is left out.** -/
theorem unwritten_of_removed {program : List SourceLine} {data : Fin 4 → Word} {i : ℕ}
    {reg : Register} (hremoved : Removed program i reg) (hharmless : Harmless program data i reg) :
    ∀ k < i, ∀ line, program[k]? = some line →
      registerOf line.opcode ≠ some reg ∧ unseenWriter reg line.opcode = false := by
  obtain ⟨⟨i₀, arg, b⟩, hload, hb⟩ := (Option.any_eq_true _ _).1 hremoved.unreferenced
  obtain rfl : b = false := by simpa using hb
  obtain ⟨⟨line₀, hline₀, hisLoad, hreg₀⟩, hbefore⟩ := scan_regLoad hload
  intro k hk line hline
  refine ⟨fun hreg => ?_, hharmless.unwritten k hk line hline⟩
  -- the load that the scan has found is not before this one
  have hi₀ : ¬ i₀ < i := by
    intro hlt
    rcases loadedRegister_of_isLoad hisLoad hreg₀ with hl | hu
    · exact hremoved.first i₀ hlt line₀ hline₀ hl
    · rw [hharmless.unwritten i₀ hlt line₀ hline₀] at hu
      exact Bool.false_ne_true hu
  exact hbefore k (by omega) line hline hreg

end Scan

/-! ### The optimiser -/

theorem resolve_label {labels labels' : List String} {label label' : Bool} {param : Option Param}
    (h : resolve labels label param = some (labels', label')) (hlabel : label' = true) :
    label = true ∨ ∃ name, param = some (.label name) ∨ param = some (.reference name) := by
  unfold resolve at h
  split at h
  · exact .inr ⟨_, .inl rfl⟩
  · exact .inr ⟨_, .inr rfl⟩
  · obtain ⟨_, rfl⟩ : labels = labels' ∧ label = label' := by simpa using h
    exact .inl hlabel

/-- The instruction of a line: its name, and the label bit only for a label or a reference. -/
theorem getElem?_assemble {program : List SourceLine} {labels : List String}
    {buffer : List ActiveInstruction} (h : assemble program = some (labels, buffer)) {k : ℕ}
    {instr : ActiveInstruction} (hk : buffer[k]? = some instr) :
    (∃ line, program[k]? = some line ∧ instr.opcode = line.opcode ∧
      (instr.goto = true → ∃ name, line.Carries name ∨ line.RefersTo name)) ∨
      (k = program.length ∧ instr = ⟨.eof, false⟩) := by
  induction program generalizing labels buffer k with
  | nil =>
      obtain ⟨_, rfl⟩ : [] = labels ∧ [⟨.eof, false⟩] = buffer := by simpa [assemble] using h
      have hlt := (List.getElem?_eq_some_iff.1 hk).1
      obtain rfl : k = 0 := by simpa using hlt
      exact .inr ⟨rfl, (Option.some.inj hk).symm⟩
  | cons line program ih =>
      simp only [assemble, Option.bind_eq_bind, Option.bind_eq_some_iff, Option.pure_def,
        Option.some.injEq, Prod.mk.injEq, Prod.exists] at h
      obtain ⟨labels₀, buffer₀, h₀, labels₁, label₁, h₁, labels₂, label₂, h₂, _, rfl⟩ := h
      cases k with
      | zero =>
          obtain rfl : _ = instr := Option.some.inj hk
          refine .inl ⟨line, rfl, rfl, fun hgoto => ?_⟩
          rcases resolve_label h₂ hgoto with hlabel | ⟨name, hp | hp⟩
          · rcases resolve_label h₁ hlabel with hfalse | ⟨name, hp | hp⟩
            · exact absurd hfalse Bool.false_ne_true
            · exact ⟨name, .inl (.inl hp)⟩
            · exact ⟨name, .inr (.inl hp)⟩
          · exact ⟨name, .inl (.inr hp)⟩
          · exact ⟨name, .inr (.inr hp)⟩
      | succ k =>
          rcases ih h₀ (by simpa using hk) with ⟨line', hline', hrest⟩ | ⟨rfl, hinstr⟩
          · exact .inl ⟨line', by simpa using hline', hrest⟩
          · exact .inr ⟨rfl, hinstr⟩

/-- **What holds before line `n`** of a program that started with its registers preloaded. -/
structure Preloaded (buffer : List ActiveInstruction) (data : Fin 4 → Word) (n : ℕ)
    (σ : PacketState) : Prop where
  loaded : ∀ reg, (∀ k < n, ∀ instr, buffer[k]? = some instr →
    registerOf instr.opcode ≠ some reg ∧ unseenWriter reg instr.opcode = false) → Loaded reg σ
  enabled : (∀ k < n, ∀ instr, buffer[k]? = some instr → instr.opcode.isJump = false) →
    σ.disabled = false
  data_zero : σ.data 0 = data 0

/-- A line hands it on. -/
theorem Preloaded.step {S : Setting} (hsw : S.sw.Equipped) {data : Fin 4 → Word} {n : ℕ}
    {σ : PacketState} (h : Preloaded S.buffer data n σ) {instr : ActiveInstruction}
    (hn : S.buffer[n]? = some instr) : Preloaded S.buffer data (n + 1) (runLine S (instr, n) σ) where
  loaded := fun reg hall => by
    obtain ⟨hreg, hunseen⟩ := hall n (Nat.lt_succ_self n) instr hn
    exact runLine_loaded hsw hreg hunseen
      (h.loaded reg fun k hk => hall k (Nat.lt_succ_of_lt hk))
  enabled := fun hall => runLine_enabled hsw (hall n (Nat.lt_succ_self n) instr hn)
    (h.enabled fun k hk => hall k (Nat.lt_succ_of_lt hk))
  data_zero := (runLine_data_zero hsw).trans h.data_zero

section Optimiser

variable {program : List SourceLine} {labels : List String} {S : Setting} {data : Fin 4 → Word}

/-- What the optimiser has left out before line `n`. -/
def Tracks (program : List SourceLine) (n : ℕ) (skipped : Register → Bool) : Prop :=
  ∀ reg, ((scan program).regLoad reg).any (fun load => !load.2.2) = true →
    (skipped reg = true ↔
      ∃ k < n, ∃ line, program[k]? = some line ∧ loadedRegister line.opcode = some reg)

/-- Nothing is left out before the first line. -/
theorem tracks_zero (program : List SourceLine) : Tracks program 0 fun _ => false := by
  intro reg _
  constructor
  · intro h
    exact absurd h Bool.false_ne_true
  · intro ⟨k, hk, _⟩
    exact absurd hk (Nat.not_lt_zero k)

theorem Tracks.succ {n : ℕ} {skipped skipped' : Register → Bool} (h : Tracks program n skipped)
    (hnext : ∀ reg, ((scan program).regLoad reg).any (fun load => !load.2.2) = true →
      (skipped' reg = true ↔ skipped reg = true ∨
        ∃ line, program[n]? = some line ∧ loadedRegister line.opcode = some reg)) :
    Tracks program (n + 1) skipped' := by
  intro reg hreg
  rw [hnext reg hreg, h reg hreg]
  constructor
  · intro hor
    rcases hor with ⟨k, hk, hline⟩ | hline
    · exact ⟨k, Nat.lt_succ_of_lt hk, hline⟩
    · exact ⟨n, Nat.lt_succ_self n, hline⟩
  · intro ⟨k, hk, hline⟩
    rcases Nat.lt_succ_iff_lt_or_eq.1 hk with hk | rfl
    · exact .inl ⟨k, hk, hline⟩
    · exact .inr hline

/-- **What is left out at line `n`.** -/
theorem Tracks.isSkipped_iff {n : ℕ} {skipped : Register → Bool} (h : Tracks program n skipped)
    {line : SourceLine} (hline : program[n]? = some line) {reg : Register} :
    isSkipped (scan program).regLoad skipped line.opcode = some reg ↔ Removed program n reg := by
  rw [isSkipped, Option.filter_eq_some_iff, Bool.and_eq_true, Bool.not_eq_true']
  constructor
  · rintro ⟨hload, hany, hnew⟩
    refine ⟨⟨line, hline, hload⟩, hany, fun k hk line' hline' hl => ?_⟩
    have hold := (h reg hany).2 ⟨k, hk, line', hline', hl⟩
    exact Bool.false_ne_true (hnew.symm.trans hold)
  · intro hremoved
    obtain ⟨line', hline', hload⟩ := hremoved.load
    rw [hline, Option.some.injEq] at hline'
    refine ⟨hline' ▸ hload, hremoved.unreferenced, Bool.eq_false_iff.2 fun hold => ?_⟩
    obtain ⟨k, hk, line'', hline'', hl⟩ := (h reg hremoved.unreferenced).1 hold
    exact hremoved.first k hk line'' hline'' hl

/-- A line is left out. -/
theorem Tracks.skip {n : ℕ} {skipped : Register → Bool} (h : Tracks program n skipped)
    {line : SourceLine} (hline : program[n]? = some line) {reg : Register}
    (hload : loadedRegister line.opcode = some reg) :
    Tracks program (n + 1) (Function.update skipped reg true) := by
  refine h.succ fun r _ => ?_
  by_cases hrr : r = reg
  · subst hrr
    rw [Function.update_self]
    exact ⟨fun _ => .inr ⟨line, hline, hload⟩, fun _ => rfl⟩
  · rw [Function.update_of_ne hrr]
    refine ⟨.inl, fun hor => hor.resolve_right fun ⟨line', hline', hl⟩ => hrr ?_⟩
    rw [hline, Option.some.injEq] at hline'
    rw [← hline', hload, Option.some.injEq] at hl
    exact hl.symm

/-- A line is kept. -/
theorem Tracks.keep {n : ℕ} {skipped : Register → Bool} (h : Tracks program n skipped)
    (hkeep : ∀ line, program[n]? = some line →
      isSkipped (scan program).regLoad skipped line.opcode = none) : Tracks program (n + 1) skipped := by
  refine h.succ fun r hr => ⟨.inl, fun hor => ?_⟩
  rcases hor with hor | ⟨line, hline, hl⟩
  · exact hor
  · by_contra hnew
    have hskip : isSkipped (scan program).regLoad skipped line.opcode = some r := by
      rw [isSkipped, hl, Option.filter_some, hr, Bool.eq_false_iff.2 hnew]
      rfl
    rw [hkeep line hline] at hskip
    cases hskip

theorem isJump_of_loadedRegister {p : Pnemonic} {reg : Register} (h : loadedRegister p = some reg) :
    p.isJump = false := by
  cases p <;> first | rfl | exact absurd h (by simp [loadedRegister])

/-- A line that is left out changes nothing. -/
theorem runLine_of_removed (hsw : S.sw.Equipped) (hbuffer : assemble program = some (labels, S.buffer))
    {n : ℕ} {σ : PacketState} (hpre : Preloaded S.buffer data n σ) {instr : ActiveInstruction}
    (hn : S.buffer[n]? = some instr) {reg : Register} (hload : loadedRegister instr.opcode = some reg)
    (hremoved : Removed program n reg) (hharmless : Harmless program data n reg) :
    runLine S (instr, n) σ = σ := by
  obtain ⟨line, hline, _⟩ := hremoved.load
  have hlt := (List.getElem?_eq_some_iff.1 hline).1
  -- the lines before this one, in the buffer
  have hlines : ∀ k < n, ∀ instr, S.buffer[k]? = some instr →
      ∃ line, program[k]? = some line ∧ instr.opcode = line.opcode := by
    intro k hk instr' hinstr'
    rcases getElem?_assemble hbuffer hinstr' with ⟨line', hline', hop, _⟩ | ⟨rfl, _⟩
    · exact ⟨line', hline', hop⟩
    · omega
  refine runLine_redundant hsw hload (hpre.loaded reg fun k hk instr' hinstr' => ?_) ?_ ?_
  · obtain ⟨line', hline', hop⟩ := hlines k hk instr' hinstr'
    rw [hop]
    exact unwritten_of_removed hremoved hharmless k hk line' hline'
  · intro hmar
    rw [hpre.data_zero]
    exact hharmless.address hmar
  · intro hgoto
    refine hpre.enabled fun k hk instr' hinstr' => ?_
    obtain ⟨line', hline', hop⟩ := hlines k hk instr' hinstr'
    rw [hop]
    refine hharmless.unlabelled ?_ k hk line' hline'
    rcases getElem?_assemble hbuffer hn with ⟨line'', hline'', _, hlabel⟩ | ⟨_, rfl⟩
    · obtain ⟨name, hname⟩ := hlabel hgoto
      exact ⟨line'', name, hline'', hname⟩
    · exact absurd hgoto Bool.false_ne_true

/-- **The simulation**: from line `n` on the two programs go through the same states. -/
theorem simulates (hsw : S.sw.Equipped) (hbuffer : assemble program = some (labels, S.buffer))
    (hharmless : ∀ i reg, Removed program i reg → Harmless program data i reg)
    (xs : List ActiveInstruction) {n : ℕ} (hxs : S.buffer.drop n = xs) {skipped : Register → Bool}
    (hskipped : Tracks program n skipped) {σ : PacketState} (hpre : Preloaded S.buffer data n σ) :
    final S (keptLines (scan program).regLoad skipped (xs.zipIdx n)) σ = final S (xs.zipIdx n) σ ∧
      branches S (keptLines (scan program).regLoad skipped (xs.zipIdx n)) σ =
        branches S (xs.zipIdx n) σ := by
  induction xs generalizing n skipped σ with
  | nil => exact ⟨rfl, rfl⟩
  | cons instr xs ih =>
      have hn : S.buffer[n]? = some instr := by
        have := congrArg (fun l => l[0]?) hxs
        simpa using this
      have hrest : S.buffer.drop (n + 1) = xs := by
        rw [← List.drop_drop, hxs]
        rfl
      have hnext := hpre.step hsw hn
      have hline : loadedRegister instr.opcode = none ∨
          ∃ line, program[n]? = some line ∧ instr.opcode = line.opcode := by
        rcases getElem?_assemble hbuffer hn with ⟨line, hline, hop, _⟩ | ⟨_, rfl⟩
        · exact .inr ⟨line, hline, hop⟩
        · exact .inl rfl
      rw [List.zipIdx_cons]
      unfold keptLines
      cases hs : isSkipped (scan program).regLoad skipped instr.opcode with
      | some reg =>
          dsimp only
          have hload := (Option.filter_eq_some_iff.1 hs).1
          obtain ⟨line, hline, hop⟩ := hline.resolve_left (by rw [hload]; exact Option.some_ne_none reg)
          have hremoved : Removed program n reg := (hskipped.isSkipped_iff hline).1 (hop ▸ hs)
          have hsame := runLine_of_removed hsw hbuffer hpre hn hload hremoved (hharmless n reg hremoved)
          rw [hsame] at hnext
          have htracks := hskipped.skip hline (hop ▸ hload)
          obtain ⟨hfinal, hbranches⟩ := ih hrest htracks hnext
          refine ⟨?_, ?_⟩
          · rw [hfinal, final, final, List.foldl_cons, hsame]
          · rw [hbranches]
            simp only [branches, isJump_of_loadedRegister hload, hsame, Bool.false_eq_true, if_false]
      | none =>
          dsimp only
          have htracks : Tracks program (n + 1) skipped := by
            refine hskipped.keep fun line' hline' => ?_
            have hk := (List.getElem?_eq_some_iff.1 hline').1
            rcases getElem?_assemble hbuffer hn with ⟨line, hline, hop, _⟩ | ⟨hlen, _⟩
            · rw [hline', Option.some.injEq] at hline
              rw [hline, ← hop]
              exact hs
            · omega
          obtain ⟨hfinal, hbranches⟩ := ih hrest htracks hnext
          refine ⟨?_, ?_⟩
          · rw [final, final, List.foldl_cons, List.foldl_cons]
            exact hfinal
          · simp only [branches]
            rw [hbranches]

end Optimiser

/-- Line `k` at stage `k`, in the tables of a controller that has just started. -/
def plainSetting (buffer : List ActiveInstruction) : Setting :=
  { env := quietEnvironment, sw := Switch.init, site := stageOf, buffer := buffer }

/-- A load, a store and a return. -/
def loadStore : List SourceLine := [plain .mbrLoad, plain .mbrStore, plain .return_]

/-- The salt, and then a load. -/
def saltLoad : List SourceLine :=
  [plain .loadSalt, plain .mbrLoad, plain .mbrStore, plain .return_]

end ActiveRmt
