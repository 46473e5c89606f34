/-
**The language of active programs.**

What a program means, whatever the switch does to run it: its instructions work one after the other on the
registers, on the data of the packet and on the memory of the stages where they stand, until one of them
returns.

An access to a word that the program has no right to does nothing.  A jump disables the program up to the
next instruction with a label.  What depends on the packet's headers or on its way through the switch is not
part of the language here.

Main definitions:

* `Machine` — what a program works on;
* `Pnemonic.effect`, `perform` — the meaning of an instruction at a stage;
* `sites` — the instructions of a program, each with its stage.

Main results:

* `perform_nop`, `perform_eof` — a no-op does nothing, nor does the end of a program;
* `forM_sites_of_places` — **a program means the same with no-ops inserted**, as long as each of its
  instructions is at the same stage.
-/

import ActiveRmt.InstructionTable
import ActiveRmt.Execution

set_option relaxedAutoImplicit false
set_option autoImplicit false

namespace ActiveRmt

/-! ### Machines -/

/-- **What a program works on.** -/
@[ext] structure Machine where
  /-- The words that are hashed. -/
  hashData : Fin 5 → Word
  /-- The address register. -/
  mar : Word
  /-- The first buffer register. -/
  mbr : Word
  /-- The second buffer register. -/
  mbr2 : Word
  /-- The data words. -/
  data : Fin 4 → Word
  /-- Whether the program is disabled. -/
  disabled : Bool
  /-- The memory of each stage. -/
  heap : Stage → Word → Word

/-- Writing the word of the address register. -/
def Machine.write (m : Machine) (i : Stage) (v : Word) : Machine := { m with heap := writeHeap m.heap i m.mar v }

/-- **What an instruction makes of the machine** of an enabled program, at a stage with this hash unit. -/
def Pnemonic.effect (crc16 : (Fin 5 → Word) → BitVec 16) (i : Stage) (p : Pnemonic) (m : Machine) : Machine :=
  let cell := m.heap i m.mar
  match p with
  | .cjump | .cjumpi | .ujump => { m with disabled := true }
  | .marLoad => { m with mar := m.data argMar &&& 0xFFFFF }
  | .mbrLoad => { m with mbr := m.data argMbr }
  | .mbr2Load => { m with mbr2 := m.data argMbr2 }
  | .mbrStore => { m with data := Function.update m.data argResult m.mbr }
  | .mbrStoreAlt => { m with data := Function.update m.data argMbr m.mbr }
  | .mbrStoreAlt2 => { m with data := Function.update m.data argMbr2 m.mbr }
  | .mbrEqualsMbr2 => { m with mbr := m.mbr ^^^ m.mbr2 }
  | .mbrEqualsData0 => { m with mbr := m.mbr ^^^ m.data 0 }
  | .mbrEqualsData1 => { m with mbr := m.mbr ^^^ m.data 1 }
  | .mbrEqualsData2 => { m with mbr := m.mbr ^^^ m.data 2 }
  | .mbrEqualsData3 => { m with mbr := m.mbr ^^^ m.data 3 }
  | .max => { m with mbr := if m.mbr2 ≤ m.mbr then m.mbr else m.mbr2 }
  | .min => { m with mbr := if m.mbr ≤ m.mbr2 then m.mbr else m.mbr2 }
  | .revmin => { m with mbr2 := if m.mbr2 ≤ m.mbr then m.mbr2 else m.mbr }
  | .swapMbrMbr2 => { m with mbr := m.mbr2, mbr2 := m.mbr }
  | .mbrNot => { m with mbr := ~~~m.mbr }
  | .mbrSubtractMbr2 => { m with mbr := m.mbr - m.mbr2 }
  | .marAddMbr => { m with mar := m.mar + m.mbr }
  | .marAddMbr2 => { m with mar := m.mar + m.mbr2 }
  | .mbrAddMbr2 => { m with mbr := m.mbr + m.mbr2 }
  | .marMbrAddMbr2 => { m with mar := m.mbr + m.mbr2 }
  | .bitAndMarMbr => { m with mar := m.mar &&& m.mbr }
  | .bitOrMbrMbr2 => { m with mbr := m.mbr ||| m.mbr2 }
  | .copyMbr2Mbr => { m with mbr2 := m.mbr }
  | .copyMbrMbr2 => { m with mbr := m.mbr2 }
  | .copyMarMbr => { m with mar := m.mbr }
  | .copyMbrMar => { m with mbr := m.mar }
  | .copyHashdataMbr => { m with hashData := Function.update m.hashData ⟨0, by decide⟩ m.mbr }
  | .copyHashdataMbr2 => { m with hashData := Function.update m.hashData ⟨1, by decide⟩ m.mbr2 }
  | .memWrite => m.write i m.mbr
  | .memRead => { m with mbr := cell }
  | .memIncrement => { m.write i (cell + 1) with mbr := cell + 1 }
  | .memMinread => { m with mbr := cell, mbr2 := if m.mbr2 < cell then m.mbr2 else cell }
  | .memMinreadinc =>
      { m.write i (cell + 1) with
        mbr := cell + 1
        mbr2 := if m.mbr2 < cell + 1 then m.mbr2 else cell + 1 }
  | .memWriteCondzero =>
      if cell = 0 then { m.write i m.mbr2 with mbr := 0 } else { m with mbr := m.mbr2 - cell }
  | .hash => { m with mar := (crc16 m.hashData).setWidth 32 }
  | .loadSalt => { m with mbr := constSalt }
  | _ => m

/-! ### Programs -/

/-- The row of an opcode. -/
def ActiveInstr.decode (c : ActiveInstr) : Option Instruction := instructionSet[c.opcode.toNat]?

instance (act : Instruction) (mbr : Word) : Decidable (CondHolds act mbr) :=
  decidable_of_iff (act.condition = none ∨ (act.condition = some true ∧ mbr ≠ 0) ∨
      (act.condition = some false ∧ mbr = 0)) (by
    unfold CondHolds
    cases act.condition with
    | none => simp
    | some b => cases b <;> simp)

/-- **An instruction at a stage.**  A return leaves the program. -/
def perform (crc16 : Stage → (Fin 5 → Word) → BitVec 16) (own : Stage → Word → Prop)
    [∀ i a, Decidable (own i a)] (x : Stage × ActiveInstr) : EStateM Unit Machine PUnit :=
  match x.2.decode with
  | none => pure ⟨⟩
  | some act => do
      let m ← get
      if act.memory = true ∧ ¬ own x.1 m.mar then pure ⟨⟩
      else if m.disabled = true then set { m with disabled := !x.2.goto }
      else if ¬ CondHolds act m.mbr then pure ⟨⟩
      else if act.action = some .complete then throw ⟨⟩
      else set (act.pnemonic.effect (crc16 x.1) x.1 m)

/-- **The instructions of a program, with their stages.** -/
def sites (site : ℕ → Stage) (code : List ActiveInstr) : List (Stage × ActiveInstr) :=
  code.zipIdx.map fun x => (site x.2, x.1)

section Sites

variable {site : ℕ → Stage} {code mutant : List ActiveInstr}

@[simp] theorem length_sites : (sites site code).length = code.length := by simp [sites]

theorem getElem?_sites (k : ℕ) : (sites site code)[k]? = code[k]?.map fun c => (site k, c) := by
  simp [sites, List.getElem?_zipIdx, Function.comp_def]

/-- The instructions of a program, position by position. -/
theorem sites_eq : sites site code = (List.range code.length).map fun k => (site k, code.getD k .nop) := by
  refine List.ext_getElem? fun k => ?_
  rw [getElem?_sites, List.getElem?_map]
  rcases Nat.lt_or_ge k code.length with hk | hk
  · rw [List.getElem?_range hk, List.getElem?_eq_getElem hk, Option.map_some, Option.map_some,
      List.getD_eq_getElem _ _ hk]
  · rw [List.getElem?_eq_none hk, List.getElem?_eq_none (by simpa using hk), Option.map_none, Option.map_none]

/-- **A program means the same with no-ops inserted**, if each of its instructions stays at its stage. -/
theorem forM_sites_of_places {ε σ : Type} {f : Stage × ActiveInstr → EStateM ε σ PUnit}
    (hnop : ∀ i, f (i, .nop) = pure ⟨⟩) {dst : ℕ → ℕ} (h : Places .nop code mutant dst) :
    (sites site mutant).forM f = (sites (fun k => site (dst k)) code).forM f := by
  -- the cells that have an instruction of the program, in order
  have hcells : (List.range mutant.length).filter (fun p => decide (∃ k < code.length, dst k = p)) =
      (List.range code.length).map dst := by
    refine List.Pairwise.eq_of_mem_iff (r := (· < ·)) (List.pairwise_lt_range.filter _) ?_ fun p => ?_
    · refine List.pairwise_map.2 (List.pairwise_lt_range.imp_of_mem fun {i j} _ hj hij => ?_)
      exact h.mono i j hij (List.mem_range.1 hj)
    · simp only [List.mem_filter, List.mem_range, List.mem_map, decide_eq_true_eq]
      exact ⟨fun hp => hp.2, fun ⟨k, hk, hkp⟩ => ⟨hkp ▸ h.lt k hk, k, hk, hkp⟩⟩
  have hcode : sites (fun k => site (dst k)) code = ((List.range mutant.length).filter fun p =>
      decide (∃ k < code.length, dst k = p)).map fun p => (site p, mutant.getD p .nop) := by
    rw [hcells, sites_eq, List.map_map]
    refine List.map_congr_left fun k hk => ?_
    have hcopy := h.copy k (List.mem_range.1 hk)
    simp only [Function.comp_apply, List.getD_eq_getElem?_getD, hcopy]
  have hmap : ∀ l : List ℕ, (l.map fun p => (site p, mutant.getD p .nop)).forM f =
      l.forM fun p => f (site p, mutant.getD p .nop) := fun l => by simp
  rw [hcode, sites_eq, hmap, hmap]
  refine (forM_filter fun p hp hnot => ?_).symm
  have hother := h.other p (List.mem_range.1 hp) fun k hk hkp => of_decide_eq_false hnot ⟨k, hk, hkp⟩
  rw [List.getD_eq_getElem?_getD, hother]
  exact hnop (site p)

end Sites

section Perform

variable {crc16 : Stage → (Fin 5 → Word) → BitVec 16} {own : Stage → Word → Prop} [∀ i a, Decidable (own i a)]

variable {x : Stage × ActiveInstr} {act : Instruction} {m : Machine}

theorem perform_eq (h : x.2.decode = some act) (m : Machine) :
    perform crc16 own x m =
      if act.memory = true ∧ ¬ own x.1 m.mar then .ok ⟨⟩ m
      else if m.disabled = true then .ok ⟨⟩ { m with disabled := !x.2.goto }
      else if ¬ CondHolds act m.mbr then .ok ⟨⟩ m
      else if act.action = some .complete then .error ⟨⟩ m
      else .ok ⟨⟩ (act.pnemonic.effect (crc16 x.1) x.1 m) := by
  unfold perform
  rw [h]
  show (ite _ _ _ : EStateM Unit Machine PUnit) m = _
  split_ifs <;> rfl

/-- An instruction without a label that leaves the machine alone does nothing, also while the program is
disabled. -/
theorem perform_idle (h : x.2.decode = some act) (hmem : act.memory = false) (hgoto : x.2.goto = false)
    (hne : act.action ≠ some .complete) (heffect : ∀ m, act.pnemonic.effect (crc16 x.1) x.1 m = m) :
    perform crc16 own x = pure ⟨⟩ := by
  funext m
  have hforeign : ¬ (act.memory = true ∧ ¬ own x.1 m.mar) := fun hand => by simp [hmem] at hand
  have hpure : (pure ⟨⟩ : EStateM Unit Machine PUnit) m = .ok ⟨⟩ m := rfl
  rw [perform_eq h, if_neg hforeign, if_neg hne, heffect, ite_self, hpure]
  cases hd : m.disabled with
  | true =>
      refine (if_pos rfl).trans (congrArg (EStateM.Result.ok PUnit.unit) ?_)
      exact Machine.ext rfl rfl rfl rfl rfl (by rw [hd, hgoto]; rfl) rfl
  | false => rfl

/-- **A no-op does nothing.** -/
theorem perform_nop (i : Stage) : perform crc16 own (i, .nop) = pure ⟨⟩ := by
  have hdecode : ActiveInstr.nop.decode = some ⟨⟨.nop, some .skip, none⟩, 1⟩ := by decide +kernel
  have hgoto : ActiveInstr.nop.goto = false := by decide
  exact perform_idle hdecode rfl hgoto (by simp) fun _ => rfl

/-- The end of a program, without a label, does nothing to the machine. -/
theorem perform_eof (i : Stage) {c : ActiveInstr} (h0 : c.opcode = 0) (hgoto : c.goto = false) :
    perform crc16 own (i, c) = pure ⟨⟩ := by
  have hdecode : c.decode = some eofInstruction := by
    rw [ActiveInstr.decode, h0]
    decide +kernel
  exact perform_idle hdecode rfl hgoto (by simp [eofInstruction]) fun _ => rfl

end Perform

end ActiveRmt
