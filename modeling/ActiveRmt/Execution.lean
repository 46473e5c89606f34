/-
**Execution: the slots of all passes together run the program in order.**

No single place of the switch runs a program: the ingress slots take the first ten instructions off
the stack, the egress slots the next ten, and the mirrored packet starts over in the egress pipeline
with what is left.  This module puts the passes together.  The lookups of a packet, in the order in
which they happen, are those of its instructions: the `k`-th one is for the `k`-th instruction, at
the stage that the allocator and the client compute for position `k`, and what travels with the
packet from one pass to the next is what the program has left in the registers.

Main definitions:

* `EofTerminated` — a program: no end before its end;
* `Carried`, `Threads` — what is kept between two slots, and a list of lookups that follow each
  other;
* `Undisturbed` — the program has not completed, forked, been dropped or changed its port.

Main results:

* `process_threads`, `process_lookup` — the lookups of a packet follow each other, in program order;
* `stage_mapping` — **every instruction is looked up, at the stage of its position**, as long as the
  program is undisturbed; `stage_mapping_reported` — a packet that reports its allocation is not
  executed like that;
* `done_iff` — **exactly when a completed program is marked**, and `return_unmarked` — a program
  that completes in the last slot of a pass.
-/

import ActiveRmt.Dataplane

set_option relaxedAutoImplicit false
set_option autoImplicit false

namespace ActiveRmt

/-! ### Programs -/

/-- A program: it ends with `EOF`, and nowhere before. -/
def EofTerminated (p : List ActiveInstr) : Prop :=
  ∃ body eof, p = body ++ [eof] ∧ eof.opcode = 0 ∧ ∀ c ∈ body, c.opcode ≠ 0

namespace EofTerminated

variable {p : List ActiveInstr}

theorem length_pos (h : EofTerminated p) : 0 < p.length := by
  obtain ⟨body, eof, rfl, _, _⟩ := h
  simp

theorem untilEof_append (h : EofTerminated p) (rest : List ActiveInstr) :
    untilEof (p ++ rest) = p := by
  obtain ⟨body, eof, rfl, heof, hbody⟩ := h
  induction body with
  | nil => simp [untilEof, heof]
  | cons c body ih =>
      have hc := hbody c List.mem_cons_self
      simp only [List.cons_append, untilEof, if_neg hc]
      rw [ih fun d hd => hbody d (List.mem_cons_of_mem c hd)]

/-- A program is parsed as a whole. -/
theorem parseInstructions_append (h : EofTerminated p) (hlen : p.length ≤ 32)
    (rest : List ActiveInstr) : parseInstructions (p ++ rest) = p := by
  rw [parseInstructions, h.untilEof_append, List.take_of_length_le hlen]

/-- What is left of a program is a program. -/
theorem drop (h : EofTerminated p) {k : ℕ} (hk : k < p.length) : EofTerminated (p.drop k) := by
  obtain ⟨body, eof, rfl, heof, hbody⟩ := h
  have hk' : k ≤ body.length := by simpa [Nat.lt_succ_iff] using hk
  refine ⟨body.drop k, eof, ?_, heof, fun c hc => hbody c (List.mem_of_mem_drop hc)⟩
  rw [List.drop_append_of_le_length hk']

/-- Only the last instruction is the end. -/
theorem opcode_eq_zero_iff (h : EofTerminated p) {k : ℕ} {c : ActiveInstr} (hc : p[k]? = some c) :
    c.opcode = 0 ↔ k + 1 = p.length := by
  obtain ⟨body, eof, rfl, heof, hbody⟩ := h
  have hk : k < body.length + 1 := by
    have := (List.getElem?_eq_some_iff.1 hc).1
    simpa using this
  rw [List.length_append, List.length_singleton]
  rcases Nat.lt_succ_iff_lt_or_eq.1 hk with hk | rfl
  · rw [List.getElem?_append_left hk] at hc
    have := hbody c (List.mem_of_getElem? hc)
    exact ⟨fun h => absurd h this, fun h => by omega⟩
  · rw [List.getElem?_append_right le_rfl, Nat.sub_self, List.getElem?_singleton] at hc
    have hce : eof = c := by simpa using hc
    rw [← hce]
    exact ⟨fun _ => rfl, fun _ => heof⟩

end EofTerminated

/-! ### Lookups that follow each other -/

/-- **What is kept between two slots**, also across the boundaries of the pipelines. -/
structure Carried (σ τ : PacketState) : Prop where
  complete : τ.complete = σ.complete
  disabled : τ.disabled = σ.disabled
  hashData : τ.hashData = σ.hashData
  mar : τ.mar = σ.mar
  mbr : τ.mbr = σ.mbr
  mbr2 : τ.mbr2 = σ.mbr2
  fid : τ.fid = σ.fid
  flagDone : τ.flagDone = σ.flagDone
  bypassEgress : τ.bypassEgress = σ.bypassEgress
  data : τ.data = σ.data
  heap : τ.heap = σ.heap

namespace Carried

variable {σ τ ρ : PacketState}

theorem refl (σ : PacketState) : Carried σ σ :=
  ⟨rfl, rfl, rfl, rfl, rfl, rfl, rfl, rfl, rfl, rfl, rfl⟩

theorem trans (h : Carried σ τ) (h' : Carried τ ρ) : Carried σ ρ :=
  ⟨h'.complete.trans h.complete, h'.disabled.trans h.disabled, h'.hashData.trans h.hashData,
    h'.mar.trans h.mar, h'.mbr.trans h.mbr, h'.mbr2.trans h.mbr2, h'.fid.trans h.fid,
    h'.flagDone.trans h.flagDone, h'.bypassEgress.trans h.bypassEgress, h'.data.trans h.data,
    h'.heap.trans h.heap⟩

end Carried

/-- **A list of lookups from one state to another**: each starts with what the one before it has
left, and does what its slot does. -/
inductive Threads (env : Environment) (sw : Switch) :
    PacketState → List Lookup → PacketState → Prop
  | nil {σ τ : PacketState} : Carried σ τ → Threads env sw σ [] τ
  | cons {σ τ : PacketState} {e : Lookup} {t : List Lookup} : Carried σ e.before →
      e.after = slot env sw e.stage e.instr e.before → Threads env sw e.after t τ →
      Threads env sw σ (e :: t) τ

namespace Threads

variable {env : Environment} {sw : Switch} {σ τ ρ : PacketState} {t t' : List Lookup}

theorem carried (h : Threads env sw σ t τ) (hρ : Carried ρ σ) : Threads env sw ρ t τ := by
  cases h with
  | nil hc => exact .nil (hρ.trans hc)
  | cons hc he ht => exact .cons (hρ.trans hc) he ht

theorem append (h : Threads env sw σ t τ) (h' : Threads env sw τ t' ρ) :
    Threads env sw σ (t ++ t') ρ := by
  induction h with
  | nil hc => exact h'.carried hc
  | cons hc he _ ih => exact .cons hc he (ih h')

/-- A lookup does what its slot does. -/
theorem after_eq (h : Threads env sw σ t τ) {e : Lookup} (he : e ∈ t) :
    e.after = slot env sw e.stage e.instr e.before := by
  induction h with
  | nil _ => exact absurd he List.not_mem_nil
  | cons _ hslot _ ih =>
      rcases List.mem_cons.1 he with rfl | he
      · exact hslot
      · exact ih he

theorem head (h : Threads env sw σ t τ) {e : Lookup} (he : t[0]? = some e) :
    Carried σ e.before := by
  cases h with
  | nil _ => simp at he
  | cons hc _ _ =>
      obtain rfl : _ = e := by simpa using he
      exact hc

/-- A lookup starts with what the one before it has left. -/
theorem step (h : Threads env sw σ t τ) {k : ℕ} {e e' : Lookup} (he : t[k]? = some e)
    (he' : t[k + 1]? = some e') : Carried e.after e'.before := by
  induction h generalizing k with
  | nil _ => simp at he
  | cons _ _ ht ih =>
      cases k with
      | zero =>
          obtain rfl : _ = e := by simpa using he
          exact ht.head (by simpa using he')
      | succ k => exact ih (by simpa using he) (by simpa using he')

/-- The last lookup leaves the final state. -/
theorem last (h : Threads env sw σ t τ) {k : ℕ} {e : Lookup} (he : t[k]? = some e)
    (hk : k + 1 = t.length) : Carried e.after τ := by
  induction h generalizing k with
  | nil _ => simp at he
  | cons _ _ ht ih =>
      cases k with
      | zero =>
          obtain rfl : _ = e := by simpa using he
          cases ht with
          | nil hc => exact hc
          | cons _ _ _ => simp at hk
      | succ k => exact ih (by simpa using he) (by simpa using hk)

/-- What follows a lookup. -/
theorem drop (h : Threads env sw σ t τ) {k : ℕ} {e : Lookup} (he : t[k]? = some e) :
    Threads env sw e.after (t.drop (k + 1)) τ := by
  induction h generalizing k with
  | nil _ => simp at he
  | cons _ _ ht ih =>
      cases k with
      | zero =>
          obtain rfl : _ = e := by simpa using he
          exact ht
      | succ k => exact ih (by simpa using he)

/-- What every slot keeps is kept by a list of lookups. -/
theorem keeps {P : PacketState → Prop} (hcarried : ∀ {σ τ}, Carried σ τ → P σ → P τ)
    (hslot : ∀ {i instr σ}, P σ → P (slot env sw i instr σ)) (h : Threads env sw σ t τ) (hσ : P σ) :
    P τ ∧ ∀ e ∈ t, P e.before := by
  induction h with
  | nil hc => exact ⟨hcarried hc hσ, fun e he => absurd he List.not_mem_nil⟩
  | cons hc he _ ih =>
      have hbefore := hcarried hc hσ
      obtain ⟨h₁, h₂⟩ := ih (by rw [he]; exact hslot hbefore)
      exact ⟨h₁, List.forall_mem_cons.2 ⟨hbefore, h₂⟩⟩

/-- What the slots of the looked up instructions keep. -/
theorem keeps_of_mem {P : PacketState → Prop} (hcarried : ∀ {σ τ}, Carried σ τ → P σ → P τ)
    (h : Threads env sw σ t τ)
    (hslot : ∀ e ∈ t, ∀ σ, P σ → P (slot env sw e.stage e.instr σ)) (hσ : P σ) : P τ := by
  induction h with
  | nil hc => exact hcarried hc hσ
  | cons hc he _ ih =>
      refine ih (fun e he => hslot e (List.mem_cons_of_mem _ he)) ?_
      rw [he]
      exact hslot _ List.mem_cons_self _ (hcarried hc hσ)

end Threads

section Slots

variable {env : Environment} {sw : Switch} {stageAt : ℕ → Stage}

@[simp] theorem length_runSlots (k : ℕ) (stack : List ActiveInstr) (σ : PacketState) :
    (runSlots env sw stageAt k stack σ).1.length = stack.length := by
  induction stack generalizing k σ with
  | nil => rfl
  | cons c stack ih => simp [runSlots, ih]

theorem runSlots_threads (k : ℕ) (stack : List ActiveInstr) (σ : PacketState) :
    Threads env sw σ (runSlots env sw stageAt k stack σ).1 (runSlots env sw stageAt k stack σ).2 := by
  induction stack generalizing k σ with
  | nil => exact .nil (.refl σ)
  | cons c stack ih => exact .cons (.refl σ) rfl (ih _ _)

/-- The lookups of a pipeline are those of its stack, slot by slot. -/
theorem getElem?_runSlots {k j : ℕ} {stack : List ActiveInstr} {σ : PacketState} {e : Lookup}
    (he : (runSlots env sw stageAt k stack σ).1[j]? = some e) :
    e.stage = stageAt (k + j) ∧ stack[j]? = some e.instr := by
  induction stack generalizing k j σ with
  | nil => simp [runSlots] at he
  | cons c stack ih =>
      cases j with
      | zero =>
          simp only [runSlots, List.getElem?_cons_zero, Option.some.injEq] at he
          subst he
          exact ⟨rfl, rfl⟩
      | succ j =>
          obtain ⟨hs, hi⟩ := ih (by simpa [runSlots] using he)
          refine ⟨?_, by simpa using hi⟩
          rw [hs]
          congr 1
          omega

/-- The last lookup of a pipeline leaves its final state. -/
theorem runSlots_last {k j : ℕ} {stack : List ActiveInstr} {σ : PacketState} {e : Lookup}
    (he : (runSlots env sw stageAt k stack σ).1[j]? = some e) (hj : j + 1 = stack.length) :
    (runSlots env sw stageAt k stack σ).2 = e.after := by
  induction stack generalizing k j σ with
  | nil => simp [runSlots] at he
  | cons c stack ih =>
      cases j with
      | zero =>
          obtain rfl : stack = [] := List.eq_nil_of_length_eq_zero (by simpa using hj.symm)
          simp only [runSlots, List.getElem?_cons_zero, Option.some.injEq] at he
          subst he
          rfl
      | succ j => exact ih (by simpa [runSlots] using he) (by simpa using hj)

end Slots

/-! ### The passes of a packet -/

section Passes

variable {env : Environment} {sw : Switch}

/-- One pass through the egress pipeline. -/
def egressPass (env : Environment) (sw : Switch) (n : ℕ) (words : List ActiveInstr)
    (σ : PacketState) : List Lookup × PacketState :=
  runSlots env sw egressStage 0 ((egressStack words σ).take 10) (egressStart env n σ)

/-- The packet is mirrored after the pass. -/
def Mirrored (τ : PacketState) : Prop := τ.complete = false ∨ τ.portChange = true

instance (τ : PacketState) : Decidable (Mirrored τ) := inferInstanceAs (Decidable (_ ∨ _))

theorem egressPasses_zero (n : ℕ) (words : List ActiveInstr) (σ : PacketState) :
    egressPasses env sw 0 n words σ = egressPass env sw n words σ := rfl

theorem egressPasses_succ_of_not {iter n : ℕ} {words : List ActiveInstr} {σ : PacketState}
    (h : ¬ Mirrored (egressPass env sw n words σ).2) :
    egressPasses env sw (iter + 1) n words σ = egressPass env sw n words σ := by
  unfold egressPasses
  exact if_neg h

/-- What is left for the next pass. -/
def remaining (words : List ActiveInstr) (σ : PacketState) : List ActiveInstr :=
  words.drop (min 10 (egressStack words σ).length)

theorem egressPasses_succ {iter n : ℕ} {words : List ActiveInstr} {σ : PacketState}
    (h : Mirrored (egressPass env sw n words σ).2) :
    egressPasses env sw (iter + 1) n words σ =
      ((egressPass env sw n words σ).1 ++
        (egressPasses env sw iter (n + 1) (remaining words σ)
          (mirror (egressPass env sw n words σ).2)).1,
        (egressPasses env sw iter (n + 1) (remaining words σ)
          (mirror (egressPass env sw n words σ).2)).2) := by
  rw [egressPasses]
  exact if_pos h

theorem carried_egressStart (n : ℕ) (σ : PacketState) : Carried σ (egressStart env n σ) :=
  ⟨rfl, rfl, rfl, rfl, rfl, rfl, rfl, rfl, rfl, rfl, rfl⟩

theorem egressPass_threads (n : ℕ) (words : List ActiveInstr) (σ : PacketState) :
    Threads env sw σ (egressPass env sw n words σ).1 (egressPass env sw n words σ).2 :=
  (runSlots_threads 0 _ _).carried (carried_egressStart n σ)

/-- The lookups of a packet on its way out follow each other. -/
theorem egressPasses_threads (iter n : ℕ) (words : List ActiveInstr) (σ : PacketState) :
    Threads env sw σ (egressPasses env sw iter n words σ).1
      (egressPasses env sw iter n words σ).2 := by
  induction iter generalizing n words σ with
  | zero => exact egressPass_threads n words σ
  | succ iter ih =>
      by_cases h : Mirrored (egressPass env sw n words σ).2
      · rw [egressPasses_succ h]
        refine (egressPass_threads n words σ).append ((ih _ _ _).carried ?_)
        exact ⟨rfl, rfl, rfl, rfl, rfl, rfl, rfl, rfl, rfl, rfl, rfl⟩
      · rw [egressPasses_succ_of_not h]
        exact egressPass_threads n words σ

variable {q : List ActiveInstr}

theorem egressStack_program (hq : EofTerminated q) (hlen : q.length ≤ 32) {σ : PacketState}
    (hdone : σ.flagDone = false) (rest : List ActiveInstr) : egressStack (q ++ rest) σ = q := by
  rw [egressStack, hdone, if_neg Bool.false_ne_true, hq.parseInstructions_append hlen]

theorem egressStack_done {σ : PacketState} (hdone : σ.flagDone = true) (words : List ActiveInstr) :
    egressStack words σ = [] := by
  rw [egressStack, hdone, if_pos rfl]

theorem egressStage_add_ten (k : ℕ) : egressStage (10 + k) = egressStage k := by
  unfold egressStage
  simp

theorem egressPass_lookup (hq : EofTerminated q) (hlen : q.length ≤ 32) {n k : ℕ}
    {rest : List ActiveInstr} {σ : PacketState} {e : Lookup}
    (he : (egressPass env sw n (q ++ rest) σ).1[k]? = some e) :
    e.stage = egressStage k ∧ q[k]? = some e.instr := by
  obtain ⟨hs, hi⟩ := getElem?_runSlots he
  rw [Nat.zero_add] at hs
  refine ⟨hs, ?_⟩
  cases hdone : σ.flagDone with
  | true =>
      rw [egressStack_done hdone] at hi
      simp at hi
  | false =>
      rw [egressStack_program hq hlen hdone] at hi
      obtain ⟨hk, hi⟩ := List.getElem?_eq_some_iff.1 hi
      rw [List.getElem_take] at hi
      exact List.getElem?_eq_some_iff.2 ⟨_, hi⟩

theorem length_egressPass (hq : EofTerminated q) (hlen : q.length ≤ 32) {σ : PacketState}
    (hdone : σ.flagDone = false) (n : ℕ) (rest : List ActiveInstr) :
    (egressPass env sw n (q ++ rest) σ).1.length = min 10 q.length := by
  rw [egressPass, length_runSlots, egressStack_program hq hlen hdone, List.length_take]

theorem remaining_program (hq : EofTerminated q) (hlen : q.length ≤ 32) {σ : PacketState}
    (hdone : σ.flagDone = false) (hten : 10 ≤ q.length) (rest : List ActiveInstr) :
    remaining (q ++ rest) σ = q.drop 10 ++ rest := by
  rw [remaining, egressStack_program hq hlen hdone, min_eq_left hten,
    List.drop_append_of_le_length hten]

/-- A terminated program is not looked up any more. -/
theorem egressPasses_done {σ : PacketState} (hdone : σ.flagDone = true) (iter n : ℕ)
    (words : List ActiveInstr) : (egressPasses env sw iter n words σ).1 = [] := by
  have hpass : ∀ n words σ, σ.flagDone = true → (egressPass env sw n words σ).1 = [] ∧
      (egressPass env sw n words σ).2.flagDone = true := by
    intro n words σ hdone
    rw [egressPass, egressStack_done hdone]
    exact ⟨rfl, hdone⟩
  induction iter generalizing n words σ with
  | zero => exact (hpass n words σ hdone).1
  | succ iter ih =>
      obtain ⟨hnil, hdone'⟩ := hpass n words σ hdone
      by_cases h : Mirrored (egressPass env sw n words σ).2
      · rw [egressPasses_succ h, hnil, List.nil_append]
        have hmirror : (mirror (egressPass env sw n words σ).2).flagDone = true := hdone'
        exact ih hmirror _ _
      · rw [egressPasses_succ_of_not h]
        exact hnil

/-- **The lookups of the egress passes are those of the program**, in order and at the stages of the
positions. -/
theorem egressPasses_lookup (hq : EofTerminated q) (hlen : q.length ≤ 32) {iter n k : ℕ}
    {rest : List ActiveInstr} {σ : PacketState} {e : Lookup} (hk : k < q.length)
    (he : (egressPasses env sw iter n (q ++ rest) σ).1[k]? = some e) :
    e.stage = egressStage k ∧ q[k]? = some e.instr := by
  induction iter generalizing n k q σ with
  | zero => exact egressPass_lookup hq hlen he
  | succ iter ih =>
      by_cases h : Mirrored (egressPass env sw n (q ++ rest) σ).2
      · cases hdone : σ.flagDone with
        | true =>
            rw [egressPasses_done hdone] at he
            simp at he
        | false =>
            rw [egressPasses_succ h] at he
            have hlength : (egressPass env sw n (q ++ rest) σ).1.length = min 10 q.length :=
              length_egressPass hq hlen hdone n rest
            rcases Nat.lt_or_ge k (min 10 q.length) with hk' | hk'
            · rw [List.getElem?_append_left (by omega)] at he
              exact egressPass_lookup hq hlen he
            · -- ten instructions of the program are gone
              have hten : 10 < q.length := by omega
              obtain ⟨j, rfl⟩ := Nat.exists_eq_add_of_le (show 10 ≤ k by omega)
              rw [List.getElem?_append_right (by omega), hlength, min_eq_left hten.le,
                Nat.add_sub_cancel_left, remaining_program hq hlen hdone hten.le] at he
              obtain ⟨hs, hi⟩ := ih (hq.drop hten) (by rw [List.length_drop]; omega)
                (by rw [List.length_drop]; omega) he
              rw [List.getElem?_drop] at hi
              exact ⟨by rw [hs, egressStage_add_ten], hi⟩
      · rw [egressPasses_succ_of_not h] at he
        exact egressPass_lookup hq hlen he

/-- **Every instruction is reached** as long as the ones before it do not complete the program and
the quota lasts. -/
theorem egressPasses_reaches (hq : EofTerminated q) (hlen : q.length ≤ 32) {iter n k : ℕ}
    {rest : List ActiveInstr} {σ : PacketState} (hdone : σ.flagDone = false) (hk : k < q.length)
    (hiter : k / 10 ≤ iter)
    (hrun : ∀ j < k, ∀ e, (egressPasses env sw iter n (q ++ rest) σ).1[j]? = some e →
      e.after.complete = false ∧ e.after.flagDone = false) :
    ∃ e, (egressPasses env sw iter n (q ++ rest) σ).1[k]? = some e := by
  have hlength : (egressPass env sw n (q ++ rest) σ).1.length = min 10 q.length :=
    length_egressPass hq hlen hdone n rest
  have hpass : k < 10 → ∃ e, (egressPass env sw n (q ++ rest) σ).1[k]? = some e := fun hk' =>
    ⟨_, List.getElem?_eq_getElem (by omega)⟩
  induction iter generalizing n k q σ with
  | zero => exact hpass (by omega)
  | succ iter ih =>
      rcases Nat.lt_or_ge k 10 with hk' | hk'
      · by_cases h : Mirrored (egressPass env sw n (q ++ rest) σ).2
        · rw [egressPasses_succ h, List.getElem?_append_left (by omega)]
          exact hpass hk'
        · rw [egressPasses_succ_of_not h]
          exact hpass hk'
      · have hten : 10 < q.length := by omega
        -- the last slot of the pass leaves the program as it is
        obtain ⟨e, he⟩ : ∃ e, (egressPass env sw n (q ++ rest) σ).1[9]? = some e :=
          ⟨_, List.getElem?_eq_getElem (by omega)⟩
        have hlast : (egressPass env sw n (q ++ rest) σ).2 = e.after := by
          refine runSlots_last he ?_
          rw [egressStack_program hq hlen hdone, List.length_take]
          omega
        have hmem : (egressPasses env sw (iter + 1) n (q ++ rest) σ).1[9]? = some e := by
          by_cases h : Mirrored (egressPass env sw n (q ++ rest) σ).2
          · rw [egressPasses_succ h, List.getElem?_append_left (by omega)]
            exact he
          · rw [egressPasses_succ_of_not h]
            exact he
        obtain ⟨hcomplete, hdone'⟩ := hrun 9 (by omega) e hmem
        have h : Mirrored (egressPass env sw n (q ++ rest) σ).2 := .inl (by rw [hlast, hcomplete])
        obtain ⟨j, rfl⟩ := Nat.exists_eq_add_of_le hk'
        have hshift : ∀ j, (egressPasses env sw (iter + 1) n (q ++ rest) σ).1[10 + j]? =
            (egressPasses env sw iter (n + 1) (q.drop 10 ++ rest)
              (mirror (egressPass env sw n (q ++ rest) σ).2)).1[j]? := by
          intro j
          rw [egressPasses_succ h, List.getElem?_append_right (by omega), hlength,
            min_eq_left hten.le, Nat.add_sub_cancel_left, remaining_program hq hlen hdone hten.le]
        rw [hshift]
        have hdone₁ : (mirror (egressPass env sw n (q ++ rest) σ).2).flagDone = false := by
          rw [hlast]
          exact hdone'
        have hlen₁ : (q.drop 10).length ≤ 32 := by rw [List.length_drop]; omega
        refine ih (hq.drop hten) hlen₁ hdone₁ (by rw [List.length_drop]; omega) (by omega)
          (fun i hi e he => hrun (10 + i) (by omega) e (by rw [hshift]; exact he))
          (length_egressPass (hq.drop hten) hlen₁ hdone₁ (n + 1) rest) fun hj => ?_
        refine ⟨_, List.getElem?_eq_getElem ?_⟩
        rw [length_egressPass (hq.drop hten) hlen₁ hdone₁, List.length_drop]
        omega

theorem carried_ingressEnd (pkt : Arrival) (σ : PacketState) :
    Carried σ (ingressEnd env sw pkt σ) :=
  ⟨rfl, rfl, rfl, rfl, rfl, rfl, rfl, rfl, rfl, rfl, rfl⟩

theorem Threads.carried_right {σ τ ρ : PacketState} {t : List Lookup} (h : Threads env sw σ t τ)
    (hρ : Carried τ ρ) : Threads env sw σ t ρ := by
  have := h.append (.nil hρ)
  rwa [List.append_nil] at this

theorem ingressPass_threads (pkt : Arrival) :
    Threads env sw (ingressStart env pkt) (ingressPass env sw pkt).1 (ingressPass env sw pkt).2 :=
  (runSlots_threads 0 _ _).carried_right (carried_ingressEnd pkt _)

/-- What the egress pipeline finds behind the data words. -/
def egressWords (env : Environment) (sw : Switch) (pkt : Arrival) : List ActiveInstr :=
  allocHeaders sw pkt ++ (ingressStack pkt).drop 10 ++ env.trailer

theorem process_stopped {pkt : Arrival} (h : (ingressPass env sw pkt).2.dropped = true ∨
    (ingressPass env sw pkt).2.bypassEgress = true) :
    process env sw pkt = ingressPass env sw pkt := by
  unfold process
  exact if_pos (by simpa using h)

theorem process_goes_on {pkt : Arrival} (hdrop : (ingressPass env sw pkt).2.dropped = false)
    (hbypass : (ingressPass env sw pkt).2.bypassEgress = false) :
    process env sw pkt =
      ((ingressPass env sw pkt).1 ++ (egressPasses env sw (mirrorIter sw pkt) 0
          (egressWords env sw pkt) (ingressPass env sw pkt).2).1,
        (egressPasses env sw (mirrorIter sw pkt) 0 (egressWords env sw pkt)
          (ingressPass env sw pkt).2).2) := by
  unfold process
  exact if_neg (by simp [hdrop, hbypass])

/-- A packet skips the egress pipeline, or goes through it. -/
theorem process_cases (env : Environment) (sw : Switch) (pkt : Arrival) :
    process env sw pkt = ingressPass env sw pkt ∨
      process env sw pkt =
        ((ingressPass env sw pkt).1 ++ (egressPasses env sw (mirrorIter sw pkt) 0
            (egressWords env sw pkt) (ingressPass env sw pkt).2).1,
          (egressPasses env sw (mirrorIter sw pkt) 0 (egressWords env sw pkt)
            (ingressPass env sw pkt).2).2) := by
  cases hdrop : (ingressPass env sw pkt).2.dropped with
  | true => exact .inl (process_stopped (.inl hdrop))
  | false =>
      cases hbypass : (ingressPass env sw pkt).2.bypassEgress with
      | true => exact .inl (process_stopped (.inr hbypass))
      | false => exact .inr (process_goes_on hdrop hbypass)

/-- **The lookups of a packet follow each other**, from its arrival to its departure. -/
theorem process_threads (env : Environment) (sw : Switch) (pkt : Arrival) :
    Threads env sw (ingressStart env pkt) (process env sw pkt).1 (process env sw pkt).2 := by
  rcases process_cases env sw pkt with h | h <;> rw [h]
  · exact ingressPass_threads pkt
  · exact (ingressPass_threads pkt).append (egressPasses_threads _ _ _ _)

theorem mem_of_mem_untilEof {words : List ActiveInstr} {c : ActiveInstr} (h : c ∈ untilEof words) :
    c ∈ words := by
  induction words with
  | nil => exact h
  | cons d words ih =>
      unfold untilEof at h
      split_ifs at h
      · exact List.mem_singleton.1 h ▸ List.mem_cons_self
      · rcases List.mem_cons.1 h with rfl | h
        · exact List.mem_cons_self
        · exact List.mem_cons_of_mem _ (ih h)

theorem mem_of_mem_parseInstructions {words : List ActiveInstr} {c : ActiveInstr}
    (h : c ∈ parseInstructions words) : c ∈ words :=
  mem_of_mem_untilEof (List.mem_of_mem_take h)

/-- A pipeline looks up the instructions on its stack. -/
theorem instr_mem_of_runSlots {stageAt : ℕ → Stage} {k : ℕ} {stack : List ActiveInstr}
    {σ : PacketState} {e : Lookup} (he : e ∈ (runSlots env sw stageAt k stack σ).1) :
    e.instr ∈ stack := by
  obtain ⟨j, hj⟩ := List.mem_iff_getElem?.1 he
  exact List.mem_of_getElem? (getElem?_runSlots hj).2

theorem instr_mem_of_egressPasses {iter n : ℕ} {words : List ActiveInstr} {σ : PacketState}
    {e : Lookup} (he : e ∈ (egressPasses env sw iter n words σ).1) : e.instr ∈ words := by
  have hpass : ∀ {n words σ}, e ∈ (egressPass env sw n words σ).1 → e.instr ∈ words := by
    intro n words σ he
    have hmem := List.mem_of_mem_take (instr_mem_of_runSlots he)
    unfold egressStack at hmem
    split_ifs at hmem
    · exact absurd hmem List.not_mem_nil
    · exact mem_of_mem_parseInstructions hmem
  induction iter generalizing n words σ with
  | zero => exact hpass (by rwa [egressPasses_zero] at he)
  | succ iter ih =>
      by_cases hm : Mirrored (egressPass env sw n words σ).2
      · rw [egressPasses_succ hm] at he
        rcases List.mem_append.1 he with he | he
        · exact hpass he
        · exact List.mem_of_mem_drop (ih he)
      · rw [egressPasses_succ_of_not hm] at he
        exact hpass he

/-- **What is looked up** came with the packet. -/
theorem instr_mem_of_process {pkt : Arrival} {e : Lookup} (he : e ∈ (process env sw pkt).1) :
    e.instr ∈ pkt.words ∨ e.instr ∈ allocHeaders sw pkt ∨ e.instr ∈ env.trailer := by
  have hstack : ∀ {c}, c ∈ ingressStack pkt → c ∈ pkt.words := by
    intro c hc
    unfold ingressStack at hc
    split_ifs at hc
    · exact absurd hc List.not_mem_nil
    · exact mem_of_mem_parseInstructions hc
  have hingress : e ∈ (ingressPass env sw pkt).1 → e.instr ∈ pkt.words := fun he =>
    hstack (List.mem_of_mem_take (instr_mem_of_runSlots he))
  rcases process_cases env sw pkt with h | h <;> rw [h] at he
  · exact .inl (hingress he)
  · rcases List.mem_append.1 he with he | he
    · exact .inl (hingress he)
    · rcases List.mem_append.1 (instr_mem_of_egressPasses he) with hm | hm
      · rcases List.mem_append.1 hm with hm | hm
        · exact .inr (.inl hm)
        · exact .inl (hstack (List.mem_of_mem_drop hm))
      · exact .inr (.inr hm)

/-- A packet that carries the program `p`, and does not report its allocation. -/
structure Carries (sw : Switch) (pkt : Arrival) (p : List ActiveInstr) : Prop where
  /-- The program is one. -/
  program : EofTerminated p
  /-- It fits the stack. -/
  length_le : p.length ≤ 32
  /-- It stands behind the data words. -/
  words : ∃ rest, pkt.words = p ++ rest
  /-- It has not terminated. -/
  notDone : pkt.state.flagDone = false
  /-- No headers stand between it and the data words in the egress pipeline. -/
  noHeaders : allocHeaders sw pkt = []

variable {pkt : Arrival} {p : List ActiveInstr}

theorem Carries.ingressStack_eq (h : Carries sw pkt p) : ingressStack pkt = p := by
  obtain ⟨rest, hwords⟩ := h.words
  rw [ingressStack, h.notDone, if_neg Bool.false_ne_true, hwords,
    h.program.parseInstructions_append h.length_le]

theorem Carries.egressWords_eq (h : Carries sw pkt p) :
    egressWords env sw pkt = p.drop 10 ++ env.trailer := by
  rw [egressWords, h.noHeaders, h.ingressStack_eq, List.nil_append]

theorem Carries.length_ingressPass (h : Carries sw pkt p) (env : Environment) :
    (ingressPass env sw pkt).1.length = min 10 p.length := by
  rw [ingressPass, h.ingressStack_eq, length_runSlots, List.length_take]

theorem Carries.ingress_lookup (h : Carries sw pkt p) {k : ℕ} {e : Lookup}
    (he : (ingressPass env sw pkt).1[k]? = some e) :
    k < 10 ∧ e.stage = stageOf k ∧ p[k]? = some e.instr := by
  have hk : k < 10 := by
    have := (List.getElem?_eq_some_iff.1 he).1
    rw [h.length_ingressPass env] at this
    omega
  obtain ⟨hs, hi⟩ := getElem?_runSlots he
  rw [h.ingressStack_eq] at hi
  refine ⟨hk, ?_, ?_⟩
  · rw [hs, Nat.zero_add]
    unfold ingressStage stageOf numStageIg
    rw [dif_pos hk]
    exact Fin.ext (Nat.mod_eq_of_lt hk)
  · obtain ⟨_, hi⟩ := List.getElem?_eq_some_iff.1 hi
    rw [List.getElem_take] at hi
    exact List.getElem?_eq_some_iff.2 ⟨_, hi⟩

theorem stageOf_add_ten (j : ℕ) : stageOf (10 + j) = egressStage j := by
  unfold stageOf egressStage numStageIg numStageEg
  rw [dif_neg (by omega)]
  exact Fin.ext (by dsimp only; omega)

/-- **The lookups of a packet are those of its program**: the `k`-th one is for the `k`-th
instruction, at the stage of its position. -/
theorem Carries.process_lookup (h : Carries sw pkt p) {k : ℕ} {e : Lookup} (hk : k < p.length)
    (he : (process env sw pkt).1[k]? = some e) : e.stage = stageOf k ∧ p[k]? = some e.instr := by
  have hlength := h.length_ingressPass env
  rcases process_cases env sw pkt with hp | hp <;> rw [hp] at he
  · exact (h.ingress_lookup he).2
  · rcases Nat.lt_or_ge k (min 10 p.length) with hk' | hk'
    · rw [List.getElem?_append_left (by omega)] at he
      exact (h.ingress_lookup he).2
    · have hten : 10 < p.length := by omega
      obtain ⟨j, rfl⟩ := Nat.exists_eq_add_of_le (show 10 ≤ k by omega)
      rw [List.getElem?_append_right (by omega), hlength, min_eq_left hten.le,
        Nat.add_sub_cancel_left, h.egressWords_eq] at he
      obtain ⟨hs, hi⟩ := egressPasses_lookup (h.program.drop hten)
        (by rw [List.length_drop]; have := h.length_le; omega) (by rw [List.length_drop]; omega) he
      rw [List.getElem?_drop] at hi
      exact ⟨hs.trans (stageOf_add_ten j).symm, hi⟩

/-- The program has not completed, forked, been dropped or changed its port. -/
structure Undisturbed (σ : PacketState) : Prop where
  complete : σ.complete = false
  flagDone : σ.flagDone = false
  bypassEgress : σ.bypassEgress = false
  duplicate : σ.duplicate = false
  dropped : σ.dropped = false
  portChange : σ.portChange = false

instance (σ : PacketState) : Decidable (Undisturbed σ) :=
  decidable_of_iff (σ.complete = false ∧ σ.flagDone = false ∧ σ.bypassEgress = false ∧
      σ.duplicate = false ∧ σ.dropped = false ∧ σ.portChange = false)
    ⟨fun h => ⟨h.1, h.2.1, h.2.2.1, h.2.2.2.1, h.2.2.2.2.1, h.2.2.2.2.2⟩,
      fun h => ⟨h.complete, h.flagDone, h.bypassEgress, h.duplicate, h.dropped, h.portChange⟩⟩

/-- The quota covers the passes of the program. -/
def QuotaCovers (sw : Switch) (pkt : Arrival) (p : List ActiveInstr) : Prop :=
  (p.length - 11) / 10 ≤ mirrorIter sw pkt

/-- **Every instruction is reached** as long as the ones before it do not stop the program. -/
theorem Carries.process_reaches (h : Carries sw pkt p) (hquota : QuotaCovers sw pkt p) {k : ℕ}
    (hk : k < p.length) (hroute : ∀ addr, env.ipv4Host addr ≠ some none)
    (hrun : ∀ j < k, ∀ e, (process env sw pkt).1[j]? = some e → e.after.complete = false ∧
      e.after.flagDone = false ∧ e.after.bypassEgress = false ∧
      (j = 9 → e.after.dropped = false)) :
    ∃ e, (process env sw pkt).1[k]? = some e := by
  have hlength := h.length_ingressPass env
  rcases Nat.lt_or_ge k 10 with hk' | hk'
  · have he : (ingressPass env sw pkt).1[k]? = some _ := List.getElem?_eq_getElem (by omega)
    rcases process_cases env sw pkt with hp | hp <;> rw [hp]
    · exact ⟨_, he⟩
    · rw [List.getElem?_append_left (by omega)]
      exact ⟨_, he⟩
  · have hten : 10 < p.length := by omega
    obtain ⟨e, he⟩ : ∃ e, (ingressPass env sw pkt).1[9]? = some e :=
      ⟨_, List.getElem?_eq_getElem (by omega)⟩
    have hmem : (process env sw pkt).1[9]? = some e := by
      rcases process_cases env sw pkt with hp | hp <;> rw [hp]
      · exact he
      · rw [List.getElem?_append_left (by omega)]
        exact he
    obtain ⟨hcomplete, hdone, hbypass, hdrop⟩ := hrun 9 (by omega) e hmem
    have hlast : (ingressPass env sw pkt).2 = ingressEnd env sw pkt e.after := by
      rw [ingressPass]
      dsimp only
      rw [runSlots_last he]
      rw [h.ingressStack_eq, List.length_take]
      omega
    have hp : process env sw pkt = _ := process_goes_on
      (by rw [hlast, ingressEnd]; simp [hdrop rfl, hroute]) (by rw [hlast]; exact hbypass)
    obtain ⟨j, rfl⟩ := Nat.exists_eq_add_of_le hk'
    have hshift : ∀ j, (process env sw pkt).1[10 + j]? =
        (egressPasses env sw (mirrorIter sw pkt) 0 (p.drop 10 ++ env.trailer)
          (ingressPass env sw pkt).2).1[j]? := by
      intro j
      rw [hp, List.getElem?_append_right (by omega), hlength, min_eq_left hten.le,
        Nat.add_sub_cancel_left, h.egressWords_eq]
    rw [hshift]
    unfold QuotaCovers at hquota
    refine egressPasses_reaches (h.program.drop hten)
      (by rw [List.length_drop]; have := h.length_le; omega) (by rw [hlast]; exact hdone)
      (by rw [List.length_drop]; omega) (by omega) fun i hi e he => ?_
    have := hrun (10 + i) (by omega) e (by rw [hshift]; exact he)
    exact ⟨this.1, this.2.1⟩

/-- **The rule for straight-line programs.**  What holds on arrival and is handed on by each
instruction before position `r` holds when position `r` is looked up, as long as it excludes that
the program stops. -/
theorem Carries.reaches_with (h : Carries sw pkt p) (Good : ℕ → PacketState → Prop)
    (hquota : QuotaCovers sw pkt p)
    (hroute : ∀ addr, env.ipv4Host addr ≠ some none)
    (hdrop : 10 < p.length → ∀ e, (process env sw pkt).1[9]? = some e → e.after.dropped = false)
    {r : ℕ} (hr : r < p.length)
    (hcarried : ∀ {k σ τ}, Carried σ τ → Good k σ → Good k τ)
    (hruns : ∀ {k σ}, Good k σ →
      σ.complete = false ∧ σ.flagDone = false ∧ σ.bypassEgress = false)
    (hstart : Good 0 (ingressStart env pkt))
    (hstep : ∀ {k c σ}, k < r → p[k]? = some c → Good k σ →
      Good (k + 1) (slot env sw (stageOf k) c σ)) :
    ∃ e, (process env sw pkt).1[r]? = some e ∧ Good r e.before := by
  have hthreads := process_threads env sw pkt
  have hafter : ∀ k < r, ∀ e, (process env sw pkt).1[k]? = some e → Good k e.before →
      Good (k + 1) e.after := by
    intro k hk e he hgood
    obtain ⟨hs, hi⟩ := h.process_lookup (hk.trans hr) he
    rw [hthreads.after_eq (List.mem_of_getElem? he), hs]
    exact hstep hk hi hgood
  have hbefore : ∀ k ≤ r, ∀ e, (process env sw pkt).1[k]? = some e → Good k e.before := by
    intro k
    induction k with
    | zero => intro _ e he; exact hcarried (hthreads.head he) hstart
    | succ k ih =>
        intro hk e he
        have hlt := (List.getElem?_eq_some_iff.1 he).1
        have he₀ : (process env sw pkt).1[k]? = some _ := List.getElem?_eq_getElem (by omega)
        exact hcarried (hthreads.step he₀ he) (hafter k (by omega) _ he₀ (ih (by omega) _ he₀))
  obtain ⟨e, he⟩ := h.process_reaches hquota hr hroute fun j hj e he => by
    have hgood := hruns (hafter j hj e he (hbefore j hj.le e he))
    exact ⟨hgood.1, hgood.2.1, hgood.2.2, fun h9 => hdrop (by omega) e (h9 ▸ he)⟩
  exact ⟨e, he, hbefore r le_rfl e he⟩

/-- A program without `DROP` is not dropped. -/
theorem Carries.not_dropped (h : Carries sw pkt p) (hstate : pkt.state.dropped = false)
    (hslot : ∀ {i c σ}, c ∈ p → σ.dropped = false → (slot env sw i c σ).dropped = false)
    (hten : 10 < p.length) {e : Lookup} (he : (process env sw pkt).1[9]? = some e) : e.after.dropped = false := by
  have key : ∀ (stack : List ActiveInstr) (k j : ℕ) (σ : PacketState) (e : Lookup),
      (∀ c ∈ stack, c ∈ p) → σ.dropped = false →
      (runSlots env sw ingressStage k stack σ).1[j]? = some e → e.after.dropped = false := by
    intro stack
    induction stack with
    | nil => intro k j σ e _ _ he; simp [runSlots] at he
    | cons c stack ih =>
        intro k j σ e hmem hσ he
        have hc := hslot (i := ingressStage k) (hmem c List.mem_cons_self) hσ
        cases j with
        | zero =>
            simp only [runSlots, List.getElem?_cons_zero, Option.some.injEq] at he
            subst he
            exact hc
        | succ j =>
            exact ih (k + 1) j _ e (fun d hd => hmem d (List.mem_cons_of_mem c hd)) hc
              (by simpa [runSlots] using he)
  have hlength := h.length_ingressPass env
  have hmem : ∀ c ∈ (ingressStack pkt).take 10, c ∈ p := fun c hc => by
    rw [h.ingressStack_eq] at hc
    exact List.mem_of_mem_take hc
  have hstart : (ingressStart env pkt).dropped = false := hstate
  have hin : (ingressPass env sw pkt).1[9]? = some e → e.after.dropped = false := fun he =>
    key _ 0 9 _ e hmem hstart he
  rcases process_cases env sw pkt with hp | hp <;> rw [hp] at he
  · exact hin he
  · rw [List.getElem?_append_left (by omega)] at he
    exact hin he

/-! ### The stage of each instruction -/

/-- The registers of a program, with the memory. -/
structure Registers where
  /-- The address register. -/
  mar : Word
  /-- The first buffer register. -/
  mbr : Word
  /-- The second buffer register. -/
  mbr2 : Word
  /-- Whether the program is disabled. -/
  disabled : Bool
  /-- The memory. -/
  heap : Stage → Word → Word

/-- The registers of a packet. -/
def PacketState.registers (σ : PacketState) : Registers :=
  ⟨σ.mar, σ.mbr, σ.mbr2, σ.disabled, σ.heap⟩

theorem Carried.registers {σ τ : PacketState} (h : Carried σ τ) : τ.registers = σ.registers := by
  rw [PacketState.registers, PacketState.registers, h.mar, h.mbr, h.mbr2, h.disabled, h.heap]

/-- `compileToTarget`: the stage that the compiler checks an access against. -/
def swIdx (i : ℕ) : ℕ := if i < numStageIg then i else numStageIg + (i - numStageIg) % numStageEg

theorem swIdx_eq (i : ℕ) : swIdx i = stageOf i := by
  unfold swIdx stageOf numStageIg numStageEg
  split_ifs
  · rfl
  · dsimp only
    omega

/-- The instruction at position `k` is looked up, once, at the stage of its position, with what the
instruction before it has left in the registers. -/
def LookedUp (env : Environment) (sw : Switch) (pkt : Arrival) (p : List ActiveInstr) (k : ℕ) :
    Prop :=
  ∃ e, (process env sw pkt).1[k]? = some e ∧ p[k]? = some e.instr ∧
    (e.stage : ℕ) = getMemoryStageId k ∧ e.stage = stageOf k ∧ (e.stage : ℕ) = swIdx k ∧
    e.after = slot env sw e.stage e.instr e.before ∧
    (k = 0 → e.before.registers = (ingressStart env pkt).registers) ∧
    ∀ e', 0 < k → (process env sw pkt).1[k - 1]? = some e' →
      e.before.registers = e'.after.registers

/-- **The stage mapping of execution.**  The lookups of an undisturbed program are those of its
instructions, in order, and the `k`-th one takes place at the stage that the client, the allocator
and the compiler compute for position `k`. -/
theorem stage_mapping {env : Environment} {sw : Switch} {pkt : Arrival} {p : List ActiveInstr}
    (h : Carries sw pkt p) (hquota : QuotaCovers sw pkt p)
    (hroute : ∀ addr, env.ipv4Host addr ≠ some none) {k : ℕ} (hk : k < p.length)
    (hun : ∀ j < k, ∀ e, (process env sw pkt).1[j]? = some e → Undisturbed e.after) :
    LookedUp env sw pkt p k := by
  obtain ⟨e, he⟩ := h.process_reaches hquota hk hroute fun j hj e he =>
    ⟨(hun j hj e he).complete, (hun j hj e he).flagDone, (hun j hj e he).bypassEgress,
      fun _ => (hun j hj e he).dropped⟩
  obtain ⟨hs, hi⟩ := h.process_lookup hk he
  have hthreads := process_threads env sw pkt
  refine ⟨e, he, hi, ?_, hs, ?_, hthreads.after_eq (List.mem_of_getElem? he), ?_, ?_⟩
  · rw [hs, getMemoryStageId_eq]
  · rw [hs, swIdx_eq]
  · intro hk0
    subst hk0
    exact (hthreads.head he).registers
  · intro e' hk0 he'
    obtain ⟨j, rfl⟩ := Nat.exists_eq_add_of_lt hk0
    have he₁ : (process env sw pkt).1[j]? = some e' := by simpa using he'
    have he₂ : (process env sw pkt).1[j + 1]? = some e := by simpa using he
    exact (hthreads.step he₁ he₂).registers

/-- A packet without registers, data or memory. -/
def blankState (fid : BitVec 16) : PacketState :=
  { duplicate := false, complete := false, disabled := false, hashData := fun _ => 0, mar := 0
    mbr := 0, mbr2 := 0, igPktcount := 0, igTimestamp := 0, qdelay := 0, enqQdepth := 0
    remap := false, ingressPort := 0, fid := fid, flagDone := false, flagRemapped := false
    data := fun _ => 0, srcAddr := 0, dstAddr := 0, srcPort := 0, dstPort := 0, egressPort := 0
    portChange := false, dropped := false, bypassEgress := false, heap := fun _ _ => 0 }

/-- Surroundings in which nothing happens. -/
def quietEnvironment : Environment :=
  { crc16 := fun _ _ => 0, igTimestamp := 0, egTimestamp := fun _ => 0, enqQdepth := fun _ => 0
    pktCount := fun _ => 0, ipv4Host := fun _ => none, trailer := [] }

/-- A packet with `n` no-ops. -/
def nopPacket (n : ℕ) (flagAllocated : Bool) : Arrival :=
  { state := blankState 1, words := List.replicate n .nop ++ [⟨0, 0⟩], flagPreload := false
    flagAllocated := flagAllocated, flagInitiated := false }

/-- The tables after function one has been allocated memory, as far as replies are concerned. -/
def oneAllocated : Switch :=
  { Switch.init with
    allocations := fun _ => Dict.empty.set 1 (.get 0 4606 0 0)
    quotaRecirc := Dict.empty.set 1 () }

theorem eofTerminated_replicate (n : ℕ) :
    EofTerminated (List.replicate n ActiveInstr.nop ++ [⟨0, 0⟩]) := by
  refine ⟨_, _, rfl, rfl, fun c hc => ?_⟩
  rw [(List.mem_replicate.1 hc).2]
  decide

theorem undisturbed_of_all {t : List Lookup} {k : ℕ}
    (h : (t.take k).all (fun e => decide (Undisturbed e.after)) = true) :
    ∀ j < k, ∀ e, t[j]? = some e → Undisturbed e.after := by
  intro j hj e he
  refine of_decide_eq_true (List.all_eq_true.1 h e (List.mem_of_getElem? (i := j) ?_))
  rw [List.getElem?_take, if_pos hj]
  exact he

/-- Twelve no-ops: the end of the program is looked up in the third egress stage. -/
theorem stage_mapping_nops :
    stageOf 12 = 12 ∧ LookedUp quietEnvironment oneAllocated (nopPacket 12 false)
      (List.replicate 12 .nop ++ [⟨0, 0⟩]) 12 := by
  refine ⟨rfl, stage_mapping ⟨eofTerminated_replicate 12, by decide, ⟨[], rfl⟩, rfl, rfl⟩
    (by unfold QuotaCovers; decide +kernel) (fun _ => by simp [quietEnvironment]) (by decide) ?_⟩
  exact undisturbed_of_all (by decide +kernel)

/-- **A packet that reports its allocation.**  The report is written between the data words and the
instructions, and the first egress stage looks it up instead of the eleventh instruction. -/
theorem stage_mapping_reported :
    EofTerminated (List.replicate 12 ActiveInstr.nop ++ [⟨0, 0⟩]) ∧
      (nopPacket 12 true).words = List.replicate 12 .nop ++ [⟨0, 0⟩] ∧
      (nopPacket 12 true).state.flagDone = false ∧
      QuotaCovers oneAllocated (nopPacket 12 true) (List.replicate 12 .nop ++ [⟨0, 0⟩]) ∧
      (∀ addr, quietEnvironment.ipv4Host addr ≠ some none) ∧
      (∀ j < 10, ∀ e, (process quietEnvironment oneAllocated (nopPacket 12 true)).1[j]? = some e →
        Undisturbed e.after) ∧
      ¬ LookedUp quietEnvironment oneAllocated (nopPacket 12 true)
        (List.replicate 12 .nop ++ [⟨0, 0⟩]) 10 := by
  refine ⟨eofTerminated_replicate 12, rfl, rfl, by unfold QuotaCovers; decide +kernel,
    fun _ => by simp [quietEnvironment], undisturbed_of_all (by decide +kernel), ?_⟩
  intro ⟨e, he, hi, _⟩
  have hinstr : (process quietEnvironment oneAllocated (nopPacket 12 true)).1[10]?.map
      (·.instr) = some ⟨0, 0⟩ := by decide +kernel
  rw [he, Option.map_some] at hinstr
  rw [Option.some.inj hinstr] at hi
  exact absurd hi (by decide)

end Passes

/-! ### Completion -/

section Completion

variable {env : Environment} {sw : Switch} {i : Stage} {instr : ActiveInstr} {σ τ : PacketState}

/-- The row of `EOF`. -/
def eofInstruction : Instruction := ⟨⟨.eof, some .markTermination, none⟩, 0⟩

theorem eof_mem_common : eofInstruction ∈ commonInstructions := by decide +kernel

theorem complete_mem_common : ∀ act ∈ instructionSet, act.action = some .complete →
    act ∈ commonInstructions ∧ act.opcode ≠ 0 := by decide +kernel

theorem slot_marked_of_marked (h : σ.flagDone = true ∧ σ.bypassEgress = true) :
    (slot env sw i instr σ).flagDone = true ∧ (slot env sw i instr σ).bypassEgress = true := by
  unfold slot
  cases sw.lookup i (σ.key instr) with
  | none => exact h
  | some a =>
      dsimp only
      rw [exec_flagDone, exec_bypassEgress, h.1, h.2]
      simp

/-- A packet that is marked in the ingress pipeline stays so. -/
theorem Threads.marked_of_marked {t : List Lookup} (h : Threads env sw σ t τ)
    (hσ : σ.flagDone = true ∧ σ.bypassEgress = true) :
    τ.flagDone = true ∧ τ.bypassEgress = true :=
  (h.keeps (P := fun σ => σ.flagDone = true ∧ σ.bypassEgress = true)
    (fun hc h => ⟨hc.flagDone.trans h.1, hc.bypassEgress.trans h.2⟩) slot_marked_of_marked hσ).1

/-- **The slot that completes a program**: it is not its end, and the program is enabled. -/
theorem slot_completes (hsw : sw.Equipped) (hbefore : σ.complete = false)
    (hafter : (slot env sw i instr σ).complete = true) :
    σ.fid.toNat ≤ 255 ∧ σ.disabled = false ∧ instr.opcode ≠ 0 ∧
      slot env sw i instr σ = exec env i instr.goto (.complete, none) σ := by
  unfold slot at hafter ⊢
  cases hl : sw.lookup i (σ.key instr) with
  | none =>
      rw [hl] at hafter
      exact absurd (hafter.symm.trans hbefore) (by decide)
  | some a =>
      rw [hl] at hafter
      dsimp only at hafter ⊢
      have hact : a.1 = .complete := by
        rw [exec_complete, hbefore, Bool.false_or, decide_eq_true_eq] at hafter
        exact hafter
      rcases hsw.action_of_lookup hl with ⟨_, _, ha⟩ | ⟨hd, act, hset, hop, _, ha⟩
      · rw [ha] at hact
        exact absurd hact (by decide)
      · have haction : act.action = some .complete := by
          rcases ha with ha | ⟨_, _, ha⟩
          · rw [← ha, hact]
          · rw [hact] at ha
            exact absurd ha (by decide)
        obtain ⟨hcommon, hne⟩ := complete_mem_common act hset haction
        refine ⟨hsw.fid_le hcommon hop hl, hd, fun h0 => hne ?_, ?_⟩
        · rw [← hop]
          exact congrArg BitVec.toNat h0
        · obtain ⟨act', arg⟩ := a
          dsimp only at hact
          subst hact
          rfl

/-- Marking the end of a program, if it is there. -/
def PacketState.markDone (σ : PacketState) (b : Bool) : PacketState :=
  { σ with flagDone := σ.flagDone || b }

@[simp] theorem PacketState.markDone_false (σ : PacketState) : σ.markDone false = σ := by
  rw [PacketState.markDone, Bool.or_false]

@[simp] theorem PacketState.markDone_markDone (σ : PacketState) (b c : Bool) :
    (σ.markDone b).markDone c = σ.markDone (b || c) := by
  simp [PacketState.markDone, Bool.or_assoc]

@[simp] theorem PacketState.markDone_flagDone (σ : PacketState) (b : Bool) :
    (σ.markDone b).flagDone = (σ.flagDone || b) := rfl

/-- **A slot of a completed program** does nothing but mark its end. -/
theorem slot_completed (hsw : sw.Equipped) (hcomplete : σ.complete = true)
    (hdisabled : σ.disabled = false) (hfid : σ.fid.toNat ≤ 255) :
    slot env sw i instr σ = σ.markDone (decide (instr.opcode = 0)) := by
  unfold slot
  by_cases h0 : instr.opcode = 0
  · have hl : sw.lookup i (σ.key instr) = some (.markTermination, none) := by
      rw [hsw.lookup_common eof_mem_common rfl (congrArg BitVec.toNat h0) hfid]
      simp [Switch.commonAction, PacketState.key, hcomplete, hdisabled, eofInstruction]
    rw [hl, decide_eq_true h0]
    simp [exec, PacketState.markDone]
  · rw [decide_eq_false h0, PacketState.markDone_false]
    cases hl : sw.lookup i (σ.key instr) with
    | none => rfl
    | some a =>
        rcases hsw.action_of_lookup hl with ⟨hd, _, _⟩ | ⟨_, act, _, hop, hc, _⟩
        · exact absurd (hd.symm.trans hdisabled) (by decide)
        · have hop0 : instr.opcode.toNat = 0 := hop.trans (hc hcomplete)
          exact absurd (BitVec.eq_of_toNat_eq hop0) h0

/-- The slots of a completed program. -/
theorem runSlots_completed (hsw : sw.Equipped) {stageAt : ℕ → Stage} {k : ℕ}
    {stack : List ActiveInstr} (hcomplete : σ.complete = true) (hdisabled : σ.disabled = false)
    (hfid : σ.fid.toNat ≤ 255) :
    (runSlots env sw stageAt k stack σ).2 =
      σ.markDone (stack.any fun c => decide (c.opcode = 0)) := by
  induction stack generalizing k σ with
  | nil => exact (σ.markDone_false).symm
  | cons c stack ih =>
      have hslot : slot env sw (stageAt k) c σ = σ.markDone (decide (c.opcode = 0)) :=
        slot_completed hsw hcomplete hdisabled hfid
      rw [runSlots]
      dsimp only
      rw [hslot, @ih (σ.markDone _) _ hcomplete hdisabled hfid, PacketState.markDone_markDone,
        List.any_cons]

/-- The slots after one of a pipeline. -/
theorem runSlots_after {stageAt : ℕ → Stage} {k j : ℕ} {stack : List ActiveInstr} {e : Lookup}
    (he : (runSlots env sw stageAt k stack σ).1[j]? = some e) :
    (runSlots env sw stageAt k stack σ).2 =
      (runSlots env sw stageAt (k + j + 1) (stack.drop (j + 1)) e.after).2 := by
  induction stack generalizing k j σ with
  | nil => simp [runSlots] at he
  | cons c stack ih =>
      cases j with
      | zero =>
          simp only [runSlots, List.getElem?_cons_zero, Option.some.injEq] at he
          subst he
          rfl
      | succ j =>
          have h := ih (by simpa [runSlots] using he)
          rw [runSlots]
          dsimp only
          rw [h, List.drop_succ_cons]
          congr 2
          omega

/-- Before its end, an egress slot does not mark a program. -/
theorem slot_flagDone (hsw : sw.Equipped) (hstage : isIngress i = false) (h0 : instr.opcode ≠ 0) :
    (slot env sw i instr σ).flagDone = σ.flagDone := by
  unfold slot
  cases hl : sw.lookup i (σ.key instr) with
  | none => rfl
  | some a =>
      dsimp only
      have hne : a.1 ≠ .markTermination := by
        intro ha
        rcases hsw.action_of_lookup hl with ⟨_, _, ha'⟩ | ⟨_, act, hset, hop, _, ha'⟩
        · rw [ha'] at ha
          exact absurd ha (by decide)
        · rcases ha' with ha' | ⟨_, _, ha'⟩
          · have hzero : ∀ act ∈ instructionSet, act.action = some .markTermination →
                act.opcode = 0 := by decide +kernel
            have := hop.trans (hzero act hset (by rw [← ha', ha]))
            exact h0 (BitVec.eq_of_toNat_eq this)
          · rw [ha] at ha'
            exact absurd ha' (by decide)
      rw [exec_flagDone, hstage, Bool.and_false, Bool.or_false, decide_eq_false hne, Bool.or_false]

theorem isIngress_egressStage (k : ℕ) : isIngress (egressStage k) = false := by
  simp [isIngress, egressStage, numStageIg]

variable {q rest : List ActiveInstr} {n iter : ℕ}

/-- A program is not marked before its end is looked up. -/
theorem egressPass_notDone (hsw : sw.Equipped) (hq : EofTerminated q) (hlen : q.length ≤ 32)
    (hdone : σ.flagDone = false) {j : ℕ} {e : Lookup}
    (he : (egressPass env sw n (q ++ rest) σ).1[j]? = some e) : e.before.flagDone = false := by
  have hthreads : Threads env sw σ (egressPass env sw n (q ++ rest) σ).1 _ :=
    egressPass_threads n (q ++ rest) σ
  induction j generalizing e with
  | zero => exact (hthreads.head he).flagDone.trans hdone
  | succ j ih =>
      have hlt := (List.getElem?_eq_some_iff.1 he).1
      have he₀ : (egressPass env sw n (q ++ rest) σ).1[j]? = some _ :=
        List.getElem?_eq_getElem (by omega)
      obtain ⟨hs, hi⟩ := egressPass_lookup hq hlen he₀
      rw [length_egressPass hq hlen hdone] at hlt
      have h0 := mt (hq.opcode_eq_zero_iff hi).1 (by omega)
      have hcarried := hthreads.step he₀ he
      rw [hcarried.flagDone, hthreads.after_eq (List.mem_of_getElem? he₀),
        slot_flagDone hsw (by rw [hs]; exact isIngress_egressStage j) h0]
      exact ih he₀

/-- The end of a program is among the slots from `j` on exactly when it is in this pass. -/
theorem any_eof (hq : EofTerminated q) {j : ℕ} (hj : j < q.length) :
    ((q.take 10).drop j).any (fun c => decide (c.opcode = 0)) = decide (q.length ≤ 10) := by
  rw [Bool.eq_iff_iff, List.any_eq_true, decide_eq_true_eq]
  constructor
  · intro ⟨c, hc, h0⟩
    obtain ⟨k, hk⟩ := List.mem_iff_getElem?.1 hc
    rw [List.getElem?_drop, List.getElem?_take] at hk
    split_ifs at hk with hlt
    have := (hq.opcode_eq_zero_iff hk).1 (of_decide_eq_true h0)
    omega
  · intro hle
    have hlast : q[q.length - 1]? = some _ := List.getElem?_eq_getElem (by omega)
    refine ⟨_, ?_, decide_eq_true ((hq.opcode_eq_zero_iff hlast).2 (by omega))⟩
    rw [List.take_of_length_le hle]
    refine List.mem_of_getElem? (i := q.length - 1 - j) ?_
    rw [List.getElem?_drop, show j + (q.length - 1 - j) = q.length - 1 by omega]
    exact hlast

/-- **The pass in which a program completes**: it is marked when its end is in the same pass. -/
theorem egressPass_completes (hsw : sw.Equipped) (hq : EofTerminated q) (hlen : q.length ≤ 32)
    (hdone : σ.flagDone = false) {r : ℕ} {e : Lookup}
    (he : (egressPass env sw n (q ++ rest) σ).1[r]? = some e) (hbefore : e.before.complete = false)
    (hafter : e.after.complete = true) :
    (egressPass env sw n (q ++ rest) σ).2.complete = true ∧
      (egressPass env sw n (q ++ rest) σ).2.disabled = false ∧
      (egressPass env sw n (q ++ rest) σ).2.fid.toNat ≤ 255 ∧
      (egressPass env sw n (q ++ rest) σ).2.portChange = e.before.portChange ∧
      (egressPass env sw n (q ++ rest) σ).2.flagDone = decide (q.length ≤ 10) := by
  have hslot := (egressPass_threads n (q ++ rest) σ).after_eq (List.mem_of_getElem? he)
  obtain ⟨hs, hi⟩ := egressPass_lookup hq hlen he
  have hrlt := (List.getElem?_eq_some_iff.1 hi).1
  rw [hslot] at hafter
  obtain ⟨hfid, hdisabled, h0, hexec⟩ := slot_completes hsw hbefore hafter
  have hexec' : e.after = { e.before with complete := true } := by
    rw [hslot, hexec, exec]
    dsimp only
    rw [hs, isIngress_egressStage, if_neg Bool.false_ne_true]
  have hr : r + 1 < q.length := by
    have := mt (hq.opcode_eq_zero_iff hi).2 h0
    omega
  have hfinal : (egressPass env sw n (q ++ rest) σ).2 = e.after.markDone (decide (q.length ≤ 10)) := by
    rw [egressPass, runSlots_after he, egressStack_program hq hlen hdone,
      runSlots_completed hsw (by rw [hexec']) (by rw [hexec']; exact hdisabled)
        (by rw [hexec']; exact hfid), any_eof hq hr]
  rw [hfinal, hexec']
  refine ⟨rfl, hdisabled, hfid, rfl, ?_⟩
  rw [PacketState.markDone_flagDone]
  dsimp only
  rw [egressPass_notDone hsw hq hlen hdone he, Bool.false_or]

/-- The pass after it. -/
theorem egressPasses_completed (hsw : sw.Equipped) (hq : EofTerminated q) (hlen : q.length ≤ 32)
    (hdone : σ.flagDone = false) (hcomplete : σ.complete = true) (hdisabled : σ.disabled = false)
    (hfid : σ.fid.toNat ≤ 255) :
    (egressPasses env sw iter n (q ++ rest) σ).2.flagDone = decide (q.length ≤ 10) := by
  have hpass : (egressPass env sw n (q ++ rest) σ).2 =
      (egressStart env n σ).markDone (decide (q.length ≤ 10)) := by
    have hstart : (egressStart env n σ).complete = true := hcomplete
    rw [egressPass, egressStack_program hq hlen hdone, runSlots_completed hsw hstart hdisabled hfid,
      ← any_eof hq hq.length_pos, List.drop_zero]
  have hflag : (egressPass env sw n (q ++ rest) σ).2.flagDone = decide (q.length ≤ 10) := by
    rw [hpass, PacketState.markDone_flagDone]
    simp [egressStart, hdone]
  cases iter with
  | zero => exact hflag
  | succ iter =>
      have h : ¬ Mirrored (egressPass env sw n (q ++ rest) σ).2 := by
        rw [hpass]
        simp [Mirrored, PacketState.markDone, egressStart, hcomplete]
      rw [egressPasses_succ_of_not h]
      exact hflag

/-- **When a program that completes in the next pass is marked**: when its end is in that pass, or in the
one after it if the packet has changed its port. -/
theorem egressPasses_done_first (hsw : sw.Equipped) (hq : EofTerminated q) (hlen : q.length ≤ 32)
    (hdone : σ.flagDone = false) {r : ℕ} {e : Lookup}
    (he : (egressPass env sw n (q ++ rest) σ).1[r]? = some e)
    (hbefore : e.before.complete = false) (hafter : e.after.complete = true) :
    (egressPasses env sw (iter + 1) n (q ++ rest) σ).2.flagDone = true ↔
      q.length ≤ 10 ∨ (e.before.portChange = true ∧ q.length ≤ 20) := by
  obtain ⟨hcomplete, hdisabled, hfid, hport, hflag⟩ :=
    egressPass_completes hsw hq hlen hdone he hbefore hafter
  by_cases hpc : e.before.portChange = true
  · have h : Mirrored (egressPass env sw n (q ++ rest) σ).2 := .inr (hport.trans hpc)
    rw [egressPasses_succ h]
    dsimp only
    rcases Nat.lt_or_ge 10 q.length with hten | hten
    · have hflag' : (mirror (egressPass env sw n (q ++ rest) σ).2).flagDone = false := by
        rw [mirror, hflag]
        exact decide_eq_false (by omega)
      rw [remaining_program hq hlen hdone hten.le,
        egressPasses_completed hsw (hq.drop hten) (by rw [List.length_drop]; omega) hflag'
          hcomplete hdisabled hfid, decide_eq_true_eq, List.length_drop]
      simp only [hpc, true_and]
      omega
    · have hflag' : (mirror (egressPass env sw n (q ++ rest) σ).2).flagDone = true := by
        rw [mirror, hflag]
        exact decide_eq_true hten
      have hthreads := @egressPasses_threads env sw iter (n + 1) (remaining (q ++ rest) σ)
        (mirror (egressPass env sw n (q ++ rest) σ).2)
      rw [egressPasses_done hflag'] at hthreads
      cases hthreads with
      | nil hc =>
          rw [hc.flagDone, hflag']
          exact ⟨fun _ => .inl hten, fun _ => rfl⟩
  · have h : ¬ Mirrored (egressPass env sw n (q ++ rest) σ).2 := by
      rw [Mirrored, hcomplete, hport]
      simp [hpc]
    rw [egressPasses_succ_of_not h, hflag, decide_eq_true_eq]
    exact ⟨Or.inl, fun hcases => hcases.resolve_right fun hp => hpc hp.1⟩

/-- **When a program that completes in the egress pipeline is marked.** -/
theorem egressPasses_done_iff (hsw : sw.Equipped) (hq : EofTerminated q) (hlen : q.length ≤ 32)
    (hdone : σ.flagDone = false) {r : ℕ} {e : Lookup} (hr : r < q.length)
    (he : (egressPasses env sw iter n (q ++ rest) σ).1[r]? = some e)
    (hbefore : e.before.complete = false) (hafter : e.after.complete = true)
    (hquota : (q.length - 1) / 10 ≤ iter) :
    (egressPasses env sw iter n (q ++ rest) σ).2.flagDone = true ↔
      q.length ≤ (r / 10 + 1) * 10 ∨
        (e.before.portChange = true ∧ q.length ≤ (r / 10 + 1) * 10 + 10) := by
  induction iter generalizing q n r σ with
  | zero =>
      obtain ⟨_, _, _, _, hflag⟩ := egressPass_completes hsw hq hlen hdone he hbefore hafter
      rw [egressPasses_zero, hflag, decide_eq_true_eq]
      omega
  | succ iter ih =>
      have hlength : (egressPass env sw n (q ++ rest) σ).1.length = min 10 q.length :=
        length_egressPass hq hlen hdone n rest
      rcases Nat.lt_or_ge r 10 with hr10 | hr10
      · -- it completes in this pass
        have he' : (egressPass env sw n (q ++ rest) σ).1[r]? = some e := by
          by_cases h : Mirrored (egressPass env sw n (q ++ rest) σ).2
          · rwa [egressPasses_succ h, List.getElem?_append_left (by omega)] at he
          · rwa [egressPasses_succ_of_not h] at he
        have hzero : r / 10 = 0 := Nat.div_eq_of_lt hr10
        rw [egressPasses_done_first hsw hq hlen hdone he' hbefore hafter, hzero]
      · -- it completes in a later pass
        obtain ⟨j, rfl⟩ := Nat.exists_eq_add_of_le hr10
        have hten : 10 < q.length := by omega
        have h : Mirrored (egressPass env sw n (q ++ rest) σ).2 := by
          by_contra h
          rw [egressPasses_succ_of_not h] at he
          have := (List.getElem?_eq_some_iff.1 he).1
          omega
        rw [egressPasses_succ h, List.getElem?_append_right (by omega), hlength,
          min_eq_left hten.le, Nat.add_sub_cancel_left, remaining_program hq hlen hdone hten.le] at he
        rw [egressPasses_succ h, remaining_program hq hlen hdone hten.le]
        dsimp only
        have hdone' : (mirror (egressPass env sw n (q ++ rest) σ).2).flagDone = false := by
          cases hd : (mirror (egressPass env sw n (q ++ rest) σ).2).flagDone with
          | false => rfl
          | true =>
              rw [egressPasses_done hd] at he
              simp at he
        rw [ih (hq.drop hten) (by rw [List.length_drop]; omega) hdone'
          (by rw [List.length_drop]; omega) he (by rw [List.length_drop]; omega), List.length_drop]
        exact or_congr (by omega) (and_congr_right fun _ => by omega)

/-- **Exactly when a completed program is marked.**  A program that completes in the ingress
pipeline is.  A program that completes in the egress pipeline is when its end is in the same pass,
or when the packet has changed its port in this pass, so that it is mirrored once more, and its end
is in the next one. -/
theorem done_iff (hsw : sw.Equipped) {pkt : Arrival} {p : List ActiveInstr} (h : Carries sw pkt p)
    (hquota : QuotaCovers sw pkt p) {r : ℕ} {e : Lookup} (hr : r < p.length)
    (he : (process env sw pkt).1[r]? = some e) (hbefore : e.before.complete = false)
    (hafter : e.after.complete = true) :
    (process env sw pkt).2.flagDone = true ↔
      r < 10 ∨ p.length ≤ (r / 10 + 1) * 10 ∨
        (e.before.portChange = true ∧ p.length ≤ (r / 10 + 1) * 10 + 10) := by
  have hlength := h.length_ingressPass env
  have hslot := (process_threads env sw pkt).after_eq (List.mem_of_getElem? he)
  have hstage := (h.process_lookup hr he).1
  rcases Nat.lt_or_ge r 10 with hr10 | hr10
  · -- the ingress pipeline marks the packet at once
    have he' : (ingressPass env sw pkt).1[r]? = some e := by
      rcases process_cases env sw pkt with hp | hp <;> rw [hp] at he
      · exact he
      · rwa [List.getElem?_append_left (by omega)] at he
    have hexec : e.after.flagDone = true ∧ e.after.bypassEgress = true := by
      have hin : isIngress e.stage = true := by
        rw [hstage]
        simp [isIngress, stageOf, numStageIg, hr10]
      rw [hslot] at hafter
      rw [hslot, (slot_completes hsw hbefore hafter).2.2.2, exec_flagDone, exec_bypassEgress, hin]
      simp
    have hmarked := ((ingressPass_threads pkt).drop he').marked_of_marked hexec
    rw [process_stopped (.inr hmarked.2)]
    exact ⟨fun _ => .inl hr10, fun _ => hmarked.1⟩
  · obtain ⟨j, rfl⟩ := Nat.exists_eq_add_of_le hr10
    have hten : 10 < p.length := by omega
    rcases process_cases env sw pkt with hp | hp
    · rw [hp] at he
      have := (List.getElem?_eq_some_iff.1 he).1
      omega
    · rw [hp, List.getElem?_append_right (by omega), hlength, min_eq_left hten.le,
        Nat.add_sub_cancel_left, h.egressWords_eq] at he
      rw [hp, h.egressWords_eq]
      dsimp only
      have hdone : (ingressPass env sw pkt).2.flagDone = false := by
        cases hd : (ingressPass env sw pkt).2.flagDone with
        | false => rfl
        | true =>
            rw [egressPasses_done hd] at he
            simp at he
      unfold QuotaCovers at hquota
      rw [egressPasses_done_iff hsw (h.program.drop hten)
        (by rw [List.length_drop]; have := h.length_le; omega) hdone
        (by rw [List.length_drop]; omega) he hbefore hafter (by rw [List.length_drop]; omega),
        List.length_drop]
      constructor
      · intro hcases
        exact .inr (hcases.imp (fun _ => by omega) fun hc => ⟨hc.1, by omega⟩)
      · intro hcases
        exact (hcases.resolve_left (by omega)).imp (fun _ => by omega) fun hc => ⟨hc.1, by omega⟩

/-- A packet with `n` no-ops before `RETURN`. -/
def returnPacket (n : ℕ) : Arrival :=
  { state := blankState 1, words := List.replicate n .nop ++ [⟨0, 2⟩] ++ [⟨0, 0⟩]
    flagPreload := false, flagAllocated := false, flagInitiated := false }

/-- The tables with a quota for function one. -/
def quotaForOne : Switch := { Switch.init with quotaRecirc := Dict.empty.set 1 () }

theorem carries_returnPacket {n : ℕ} (hn : n ≤ 30) :
    Carries quotaForOne (returnPacket n) (List.replicate n .nop ++ [⟨0, 2⟩] ++ [⟨0, 0⟩]) := by
  refine ⟨⟨_, _, rfl, rfl, fun c hc => ?_⟩, ?_, ⟨[], by simp [returnPacket]⟩, rfl, rfl⟩
  · rcases List.mem_append.1 hc with hc | hc
    · rw [(List.mem_replicate.1 hc).2]
      decide
    · rw [List.mem_singleton.1 hc]
      decide
  · simp
    omega

theorem equipped_quotaForOne : quotaForOne.Equipped :=
  ⟨fun i e he => Switch.equipped_init.common i e he,
    fun i e he => Switch.equipped_init.others i e he⟩

/-- Completion in the second to last slot of a pass. -/
theorem done_iff_returnPacket : ∃ e,
    (process quietEnvironment quotaForOne (returnPacket 18)).1[18]? = some e ∧
      ((process quietEnvironment quotaForOne (returnPacket 18)).2.flagDone = true ↔
        18 < 10 ∨ (returnPacket 18).words.length ≤ (18 / 10 + 1) * 10 ∨
          (e.before.portChange = true ∧
            (returnPacket 18).words.length ≤ (18 / 10 + 1) * 10 + 10)) := by
  have hreturn : (process quietEnvironment quotaForOne (returnPacket 18)).1[18]?.any
      (fun e => !e.before.complete && e.after.complete) = true := by decide +kernel
  obtain ⟨e, he, hcomplete⟩ := (Option.any_eq_true _ _).1 hreturn
  rw [Bool.and_eq_true, Bool.not_eq_true'] at hcomplete
  exact ⟨e, he, done_iff equipped_quotaForOne (carries_returnPacket (by decide))
    (by unfold QuotaCovers; decide +kernel) (by decide) he hcomplete.1 hcomplete.2⟩

/-- **An unmarked program.**  `RETURN` is in the last slot of a pass: the packet is not mirrored, and
leaves without its end having been looked up. -/
theorem return_unmarked :
    Carries quotaForOne (returnPacket 19) (List.replicate 19 .nop ++ [⟨0, 2⟩] ++ [⟨0, 0⟩]) ∧
      QuotaCovers quotaForOne (returnPacket 19) (List.replicate 19 .nop ++ [⟨0, 2⟩] ++ [⟨0, 0⟩]) ∧
      (process quietEnvironment quotaForOne (returnPacket 19)).1[19]?.any (fun e =>
        decide (e.instr = ⟨0, 2⟩) && !e.before.complete && !e.before.disabled &&
          e.after.complete) = true ∧
      (process quietEnvironment quotaForOne (returnPacket 19)).2.dropped = false ∧
      (process quietEnvironment quotaForOne (returnPacket 19)).2.flagDone = false := by
  refine ⟨carries_returnPacket (by decide), by unfold QuotaCovers; decide +kernel, ?_, ?_, ?_⟩
  · decide +kernel
  · decide +kernel
  · decide +kernel

end Completion

end ActiveRmt
