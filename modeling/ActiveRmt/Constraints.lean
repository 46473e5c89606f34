/-
**Constraints: what the placements that are kept leave unchanged.**

A placement delays the accesses, each at least as long as the one before it.  The bounds say how long: up to
the end of the last pass, and for the accesses in front of the ingress limit up to the end of the ingress
pipeline.  An access that was put back may pass its bound, with the delay of the one before; the access at
the limit has the wrong bound; and a bound below zero is a large one.

Main definitions:

* `room` — the positions that are free behind the program;
* `delayAt` — how long an instruction is delayed;
* `Constrained` — the constraints of the program;
* `Fits` — what the program must be like.

Main results:

* `mem_enumerate_iff` — **the placements that are kept**;
* `Delayed.le_room` — the delays do not pass the room, unless an access in front of the limit makes
  them do so;
* `variants_constrained` — **a program that fits keeps its constraints**, and what a program that keeps
  them is like;
* `delayed_past_limit` — a program that does not.
-/

import ActiveRmt.Enumeration

set_option relaxedAutoImplicit false
set_option autoImplicit false

namespace ActiveRmt

theorem val_stageOf (y : ℕ) : (stageOf y : ℕ) = if y < 10 then y else y % 10 + 10 := by
  unfold stageOf
  by_cases hy : y < 10
  · rw [dif_pos (show y < numStageIg from hy), if_pos hy]
  · rw [dif_neg (show ¬ y < numStageIg from hy), if_neg hy]
    rfl

/-- **Two positions meet** if they are the same, or both in the egress and ten apart or a multiple. -/
theorem stageOf_eq_iff {y z : ℕ} :
    stageOf y = stageOf z ↔ y = z ∨ (10 ≤ y ∧ 10 ≤ z ∧ y % 10 = z % 10) := by
  rw [Fin.ext_iff, val_stageOf, val_stageOf]
  split_ifs <;> omega

namespace ActiveFunction

/-- The positions that are free behind the program. -/
def room (progLen : ℕ) : ℕ := maxProgLen progLen false - progLen

theorem progLen_add_room (progLen : ℕ) : progLen + room progLen = maxProgLen progLen false := by
  unfold room maxProgLen numStageIg numStageEg
  rw [if_neg (by decide)]
  split_ifs <;> omega

/-- How long the instruction at a position is delayed: like the last access that is not behind it. -/
def delayAt (accessIdx x : List ℕ) (p : ℤ) : ℤ :=
  match ((accessIdx.zip x).filter fun q => (q.1 : ℤ) ≤ p).getLast? with
  | none => 0
  | some q => q.2 - q.1

/-- **The constraints of the program**: every access is delayed by no more than the room, the program gets
no longer than it may, and the instruction at the ingress limit stays in the ingress. -/
structure Constrained (accessIdx : List ℕ) (igLim : ℤ) (progLen : ℕ) (x : List ℕ) : Prop where
  /-- Each access. -/
  between : ∀ i < accessIdx.length, (constrLB accessIdx).getD i 0 ≤ x.getD i 0 ∧
    x.getD i 0 ≤ (constrLB accessIdx).getD i 0 + room progLen
  /-- The length. -/
  length_le : (progLen : ℤ) + x.getLastD 0 - accessIdx.getLastD 0 ≤ maxProgLen progLen false
  /-- The ingress limit. -/
  ingress : 0 ≤ igLim → igLim < 10 → igLim + delayAt accessIdx x igLim < 10

/-- An access in front of the ingress limit. -/
def BeforeLimit (igLim : ℤ) (a : ℕ) : Prop := 0 ≤ igLim ∧ igLim < 10 ∧ (a : ℤ) < igLim

instance (igLim : ℤ) (a : ℕ) : Decidable (BeforeLimit igLim a) :=
  inferInstanceAs (Decidable (_ ∧ _ ∧ _))

/-! ### Bounds -/

section Bounds

variable {igLim : ℤ} {progLen a : ℕ}

/-- The bound of an access in front of the ingress limit. -/
theorem upperBound_before (h : BeforeLimit igLim a) :
    (upperBound igLim progLen false a : ℤ) = a + 9 - igLim := by
  obtain ⟨h₀, h₁, h₂⟩ := h
  unfold upperBound numStageIg
  rw [if_pos ⟨h₀, h₁, h₂⟩]
  push_cast
  omega

/-- The bound of the others. -/
theorem upperBound_not_before (h : ¬ BeforeLimit igLim a) (hpos : 0 < a + room progLen)
    (hlt : a + room progLen ≤ 2 ^ 32) : upperBound igLim progLen false a + 1 = a + room progLen := by
  have hroom := progLen_add_room progLen
  unfold upperBound
  rw [if_neg fun h' => h ⟨h'.1, h'.2.1, h'.2.2⟩, ← hroom]
  push_cast
  omega

end Bounds

/-- Sharing, by the positions. -/
theorem sameSharing_iff {lb x : List ℕ} (hlen : x.length = lb.length) :
    SameSharing lb x ↔ ∀ i < lb.length, ∀ j < lb.length,
      (stageOf (x.getD i 0) = stageOf (x.getD j 0) ↔ stageOf (lb.getD i 0) = stageOf (lb.getD j 0)) := by
  have hget : ∀ (l : List ℕ) (i : ℕ), i < l.length → (l.map stageOf)[i]? = some (stageOf (l.getD i 0)) := by
    intro l i hi
    rw [List.getElem?_map, List.getElem?_eq_getElem hi, List.getD_eq_getElem _ _ hi]
    rfl
  unfold SameSharing
  refine forall_congr' fun i => forall_congr' fun hi => forall_congr' fun j => forall_congr' fun hj => ?_
  rw [hget x i (hlen ▸ hi), hget x j (hlen ▸ hj), hget lb i hi, hget lb j hj, Option.some.injEq,
    Option.some.injEq]

section Kept

variable {accessIdx : List ℕ} {igLim : ℤ} {progLen : ℕ}

/-- **The placements that are kept**, where no bound leaves the 32-bit words. -/
theorem mem_enumerate_iff (hs : accessIdx.Pairwise (· < ·)) (hlast : ∀ a ∈ accessIdx, a < progLen)
    (hword : maxProgLen progLen false + 10 ≤ 2 ^ 32)
    (hwrap : ∀ a ∈ accessIdx, 0 < a + room progLen ∨ BeforeLimit igLim a) {x : List ℕ} :
    x ∈ enumerate accessIdx igLim progLen false ↔
      Delayed accessIdx (upperBound igLim progLen false) x ∧ SameSharing accessIdx x := by
  have hroom := progLen_add_room progLen
  have hlt : ∀ a ∈ accessIdx, a < 2 ^ 32 := fun a ha => by
    have := hlast a ha
    omega
  have hle : (0 :: accessIdx).Pairwise (· ≤ ·) :=
    List.pairwise_cons.2 ⟨fun a _ => Nat.zero_le a, hs.imp fun h => h.le⟩
  have hub : ∀ a ∈ accessIdx, upperBound igLim progLen false a ≤ a + (room progLen + 9) := by
    intro a ha
    have hal := hlast a ha
    by_cases hbefore : BeforeLimit igLim a
    · have h : (upperBound igLim progLen false a : ℤ) = a + 9 - igLim := upperBound_before hbefore
      have h₀ := hbefore.1
      omega
    · have hpos := (hwrap a ha).resolve_right hbefore
      have h := upperBound_not_before hbefore hpos (by omega)
      omega
  have hnowrap : NoWrap 0 (accessIdx.map (upperBound igLim progLen false)) (deltas 0 accessIdx) :=
    noWrap_of_le hle (fun a ha => by have := hlast a ha; omega) hub (Nat.zero_le _)
  have hloop : enumerateLoop (accessIdx.map (upperBound igLim progLen false)) (deltas 0 accessIdx)
      (2 ^ (32 * accessIdx.length)) (refill 0 (deltas 0 accessIdx)) = _ :=
    enumerateLoop_eq_orbit (by rw [List.length_map, length_deltas]) hnowrap (by rw [length_deltas])
  rw [refill_deltas hle hlt] at hloop
  rw [enumerate, constrUB, constrDelta, constrLB_eq hlt, hloop, prune_eq_filter, List.mem_filter,
    mem_orbit, stepwise_iff_delayed hs hlt, decide_eq_true_eq]
  intro y hy
  exact ((stepwise_iff_delayed hs hlt).1 (mem_orbit.1 hy)).length

/-! ### How long an access is delayed -/

/-- What the program must be like: no bound is that of a negative number; if an access in front of the
ingress limit may be delayed by more than the room, there are two that such a delay would make meet; and
an access at the limit has no more room than the ingress. -/
structure Fits (accessIdx : List ℕ) (igLim : ℤ) (progLen : ℕ) : Prop where
  /-- The positions are 32-bit words. -/
  word : maxProgLen progLen false + 10 ≤ 2 ^ 32
  /-- An access at zero in a program without room has a bound below zero. -/
  zero : room progLen = 0 → 0 ∈ accessIdx → BeforeLimit igLim 0
  /-- The accesses in front of the limit. -/
  before : (∃ a ∈ accessIdx, BeforeLimit igLim a) → room progLen + 1 + igLim ≤ 9 →
    ∃ p ∈ accessIdx, ∃ q ∈ accessIdx, igLim ≤ p ∧ p < 10 ∧ 10 ≤ p + (room progLen + 1) ∧ 10 ≤ q ∧
      q % 10 = p
  /-- The access at the limit. -/
  limit : 0 ≤ igLim → igLim < 10 → igLim.toNat ∈ accessIdx → room progLen + igLim ≤ 10

variable {x : List ℕ}

theorem getD_lt_getD (hs : accessIdx.Pairwise (· < ·)) {i j : ℕ} (hij : i < j)
    (hj : j < accessIdx.length) : accessIdx.getD i 0 < accessIdx.getD j 0 := by
  rw [List.getD_eq_getElem _ _ (hij.trans hj), List.getD_eq_getElem _ _ hj]
  exact List.pairwise_iff_getElem.1 hs i j (hij.trans hj) hj hij

theorem getD_mem {l : List ℕ} {i : ℕ} (hi : i < l.length) : l.getD i 0 ∈ l := by
  rw [List.getD_eq_getElem _ _ hi]
  exact List.getElem_mem hi

/-- The delays do not get shorter. -/
theorem Delayed.mono {ub : ℕ → ℕ} (h : Delayed accessIdx ub x) {i j : ℕ} (hij : i ≤ j)
    (hj : j < accessIdx.length) :
    x.getD i 0 + accessIdx.getD j 0 ≤ x.getD j 0 + accessIdx.getD i 0 := by
  induction j, hij using Nat.le_induction with
  | base => exact le_rfl
  | succ j hij ih =>
      have h₁ := ih (Nat.lt_of_succ_lt hj)
      have h₂ := (h.next j hj).1
      omega

/-- No access comes earlier. -/
theorem Delayed.le {ub : ℕ → ℕ} (h : Delayed accessIdx ub x) {i : ℕ} (hi : i < accessIdx.length) :
    accessIdx.getD i 0 ≤ x.getD i 0 := by
  have h₀ := (h.head (Nat.zero_lt_of_lt hi)).1
  have hi := h.mono (Nat.zero_le i) hi
  omega

/-- **An access in front of the limit stays in the ingress**, and leaves room for what is up to the
limit. -/
theorem Delayed.before (hs : accessIdx.Pairwise (· < ·))
    (h : Delayed accessIdx (upperBound igLim progLen false) x) {i : ℕ} (hi : i < accessIdx.length)
    (hb : BeforeLimit igLim (accessIdx.getD i 0)) : (x.getD i 0 : ℤ) + igLim ≤ accessIdx.getD i 0 + 9 := by
  induction i with
  | zero =>
      have hub : (upperBound igLim progLen false (accessIdx.getD 0 0) : ℤ) = _ := upperBound_before hb
      obtain ⟨h₀, h₁, h₂⟩ := hb
      have := (h.head hi).2
      omega
  | succ i ih =>
      have hlt : accessIdx.getD i 0 < accessIdx.getD (i + 1) 0 := getD_lt_getD hs (Nat.lt_succ_self i) hi
      have hub : (upperBound igLim progLen false (accessIdx.getD (i + 1) 0) : ℤ) = _ :=
        upperBound_before hb
      obtain ⟨h₀, h₁, h₂⟩ := hb
      have hprev := ih (Nat.lt_of_succ_lt hi) ⟨h₀, h₁, by omega⟩
      have := (h.next i hi).2
      omega

/-- An access that is delayed by more than the room has put back all behind it that are not in front of
the limit: they have the same delay. -/
theorem Delayed.carried (hs : accessIdx.Pairwise (· < ·)) (hf : Fits accessIdx igLim progLen)
    (hlast : ∀ a ∈ accessIdx, a < progLen)
    (h : Delayed accessIdx (upperBound igLim progLen false) x) {i j : ℕ} (hij : i ≤ j)
    (hj : j < accessIdx.length) (hi : ¬ BeforeLimit igLim (accessIdx.getD i 0))
    (hlong : accessIdx.getD i 0 + room progLen < x.getD i 0) :
    x.getD i 0 + accessIdx.getD j 0 = x.getD j 0 + accessIdx.getD i 0 := by
  induction j, hij using Nat.le_induction with
  | base => rfl
  | succ j hij ih =>
      have heq := ih (Nat.lt_of_succ_lt hj)
      have hlt : accessIdx.getD i 0 < accessIdx.getD (j + 1) 0 :=
        getD_lt_getD hs (Nat.lt_succ_of_le hij) hj
      have hnot : ¬ BeforeLimit igLim (accessIdx.getD (j + 1) 0) := fun hb =>
        hi ⟨hb.1, hb.2.1, by have := hb.2.2; omega⟩
      have hal := hlast _ (getD_mem hj)
      have hroom := progLen_add_room progLen
      have hw := hf.word
      have hub : upperBound igLim progLen false (accessIdx.getD (j + 1) 0) + 1 = _ :=
        upperBound_not_before hnot (by omega) (by omega)
      have := h.next j hj
      omega

/-- **No access is delayed by more than the room.** -/
theorem Delayed.le_room (hs : accessIdx.Pairwise (· < ·)) (hf : Fits accessIdx igLim progLen)
    (hlast : ∀ a ∈ accessIdx, a < progLen)
    (h : Delayed accessIdx (upperBound igLim progLen false) x) (hsame : SameSharing accessIdx x) {i : ℕ}
    (hi : i < accessIdx.length) : x.getD i 0 ≤ accessIdx.getD i 0 + room progLen := by
  rw [sameSharing_iff h.length] at hsame
  induction i using Nat.strong_induction_on with
  | _ i ih =>
  by_contra hlong
  rw [not_le] at hlong
  -- it has not the delay of the one before it, so it is within its bound
  have hbound : x.getD i 0 ≤ upperBound igLim progLen false (accessIdx.getD i 0) := by
    cases i with
    | zero => exact (h.head hi).2.resolve_right (by omega)
    | succ i =>
        have := ih i (Nat.lt_succ_self i) (Nat.lt_of_succ_lt hi)
        exact (h.next i hi).2.resolve_right (by omega)
  have hal := hlast _ (getD_mem hi)
  have hroom := progLen_add_room progLen
  have hw := hf.word
  have hb : BeforeLimit igLim (accessIdx.getD i 0) := by
    by_contra hnot
    by_cases hpos : 0 < accessIdx.getD i 0 + room progLen
    · have hub := upperBound_not_before hnot hpos (by omega)
      omega
    · have ha : accessIdx.getD i 0 = 0 := by omega
      have hmem := getD_mem hi
      rw [ha] at hnot hmem
      exact hnot (hf.zero (by omega) hmem)
  have hub : (upperBound igLim progLen false (accessIdx.getD i 0) : ℤ) = _ := upperBound_before hb
  obtain ⟨p, hp, q, hq, hip, hp10, hpr, hq10, hpq⟩ := hf.before ⟨_, getD_mem hi, hb⟩ (by omega)
  -- the two that meet are behind it, and have its delay
  obtain ⟨k, hk, rfl⟩ := List.getElem_of_mem hp
  obtain ⟨m, hm, rfl⟩ := List.getElem_of_mem hq
  rw [← List.getD_eq_getElem _ 0 hk] at hip hp10 hpr hpq
  rw [← List.getD_eq_getElem _ 0 hm] at hq10 hpq
  have hik : i ≤ k := by
    by_contra hki
    have := getD_lt_getD hs (not_le.1 hki) hi
    have := hb.2.2
    omega
  have hkm : k ≤ m := by
    by_contra hmk
    have := getD_lt_getD hs (not_le.1 hmk) hk
    omega
  have hmono := h.mono hik hk
  have hcarried := h.carried hs hf hlast hkm hm (fun hb' => by have := hb'.2.2; omega) (by omega)
  have hmeet := (hsame k hk m hm).1 (stageOf_eq_iff.2 (.inr ⟨by omega, by omega, by omega⟩))
  rcases stageOf_eq_iff.1 hmeet with heq | ⟨h10, -, -⟩
  · omega
  · omega

/-! ### The instruction at the limit -/

/-- The delay of an instruction is that of an access that is not behind it, or none. -/
theorem delayAt_cases (p : ℤ) :
    delayAt accessIdx x p = 0 ∨ ∃ i < accessIdx.length, (accessIdx.getD i 0 : ℤ) ≤ p ∧
      delayAt accessIdx x p = (x.getD i 0 : ℤ) - accessIdx.getD i 0 := by
  unfold delayAt
  cases hlast : ((accessIdx.zip x).filter fun q => (q.1 : ℤ) ≤ p).getLast? with
  | none => exact .inl rfl
  | some q =>
      right
      obtain ⟨hmem, hle⟩ := List.mem_filter.1 (List.mem_of_getLast? hlast)
      obtain ⟨i, hi⟩ := List.mem_iff_getElem?.1 hmem
      obtain ⟨h₁, h₂⟩ := List.getElem?_zip_eq_some.1 hi
      have hlt : i < accessIdx.length := (List.getElem?_eq_some_iff.1 h₁).1
      have ha : accessIdx.getD i 0 = q.1 := by rw [List.getD_eq_getElem?_getD, h₁]; rfl
      have hx : x.getD i 0 = q.2 := by rw [List.getD_eq_getElem?_getD, h₂]; rfl
      rw [decide_eq_true_eq] at hle
      exact ⟨i, hlt, by rw [ha]; exact hle, by rw [ha, hx]⟩

/-- **An access up to the limit stays in front of the egress.** -/
theorem Delayed.ingress (hs : accessIdx.Pairwise (· < ·)) (hf : Fits accessIdx igLim progLen)
    (hlast : ∀ a ∈ accessIdx, a < progLen)
    (h : Delayed accessIdx (upperBound igLim progLen false) x) (h₀ : 0 ≤ igLim) (h₁ : igLim < 10) {i : ℕ}
    (hi : i < accessIdx.length) (hle : (accessIdx.getD i 0 : ℤ) ≤ igLim) :
    igLim + ((x.getD i 0 : ℤ) - accessIdx.getD i 0) < 10 := by
  by_cases hb : BeforeLimit igLim (accessIdx.getD i 0)
  · have := h.before hs hi hb
    omega
  -- the access is at the limit
  have heq : (accessIdx.getD i 0 : ℤ) = igLim := by
    have : ¬ (accessIdx.getD i 0 : ℤ) < igLim := fun hlt => hb ⟨h₀, h₁, hlt⟩
    omega
  have hmem := getD_mem hi
  have hlimit := hf.limit h₀ h₁ (by rw [← heq]; exact hmem)
  have hal := hlast _ hmem
  have hroom := progLen_add_room progLen
  have hw := hf.word
  have hwithin : x.getD i 0 ≤ upperBound igLim progLen false (accessIdx.getD i 0) →
      igLim + ((x.getD i 0 : ℤ) - accessIdx.getD i 0) < 10 := by
    intro hx
    by_cases hpos : 0 < accessIdx.getD i 0 + room progLen
    · have hub := upperBound_not_before hb hpos (by omega)
      omega
    · have ha : accessIdx.getD i 0 = 0 := by omega
      rw [ha] at hb hmem
      exact absurd (hf.zero (by omega) hmem) hb
  cases i with
  | zero =>
      rcases (h.head hi).2 with hx | hx
      · exact hwithin hx
      · omega
  | succ i =>
      rcases (h.next i hi).2 with hx | hx
      · exact hwithin hx
      · -- it has the delay of the one before it, which is in front of the limit
        have hlt : accessIdx.getD i 0 < accessIdx.getD (i + 1) 0 := getD_lt_getD hs (Nat.lt_succ_self i) hi
        have := h.before hs (Nat.lt_of_succ_lt hi) ⟨h₀, h₁, by omega⟩
        omega

/-- The bounds of a program that fits are 32-bit words. -/
theorem Fits.noWrap (hf : Fits accessIdx igLim progLen) :
    ∀ a ∈ accessIdx, 0 < a + room progLen ∨ BeforeLimit igLim a := by
  intro a ha
  by_cases hpos : 0 < a + room progLen
  · exact .inl hpos
  · obtain rfl : a = 0 := by omega
    exact .inr (hf.zero (by omega) ha)

theorem getLastD_eq_getD (l : List ℕ) : l.getLastD 0 = l.getD (l.length - 1) 0 := by
  rw [List.getLastD_eq_getLast?, List.getLast?_eq_getElem?, List.getD_eq_getElem?_getD]

/-- **A program that fits keeps its constraints** in every placement that is kept. -/
theorem Fits.constrained (hs : accessIdx.Pairwise (· < ·)) (hlast : ∀ a ∈ accessIdx, a < progLen)
    (hf : Fits accessIdx igLim progLen) (hx : x ∈ enumerate accessIdx igLim progLen false) :
    Constrained accessIdx igLim progLen x := by
  obtain ⟨h, hsame⟩ := (mem_enumerate_iff hs hlast hf.word hf.noWrap).1 hx
  have hroom := progLen_add_room progLen
  have hlt : ∀ a ∈ accessIdx, a < 2 ^ 32 := fun a ha => by
    have := hlast a ha
    have := hf.word
    omega
  refine ⟨fun i hi => ?_, ?_, fun h₀ h₁ => ?_⟩
  · rw [constrLB_eq hlt]
    exact ⟨h.le hi, h.le_room hs hf hlast hsame hi⟩
  · by_cases hnil : accessIdx = []
    · obtain rfl : x = [] := List.eq_nil_of_length_eq_zero (by rw [h.length, hnil]; rfl)
      rw [hnil]
      simp only [List.getLastD_nil]
      omega
    · have hpos : 0 < accessIdx.length := List.length_pos_iff.2 hnil
      rw [getLastD_eq_getD, getLastD_eq_getD, h.length]
      have := h.le_room hs hf hlast hsame (Nat.sub_lt hpos Nat.one_pos)
      omega
  · rcases delayAt_cases igLim with hd | ⟨i, hi, hle, hd⟩
    · rw [hd]
      omega
    · rw [hd]
      exact h.ingress hs hf hlast h₀ h₁ hi hle

/-! ### Delays that are kept -/

/-- All accesses from a position on, delayed alike. -/
def delayFrom (b d : ℕ) (a : ℕ) : ℕ := if a < b then a else a + d

theorem getD_map_delayFrom (b d : ℕ) {i : ℕ} (hi : i < accessIdx.length) :
    (accessIdx.map (delayFrom b d)).getD i 0 = delayFrom b d (accessIdx.getD i 0) := by
  rw [List.getD_eq_getElem _ _ (by rwa [List.length_map]), List.getElem_map, List.getD_eq_getElem _ _ hi]

/-- **The loop visits such a placement** if the first of these accesses may be delayed so. -/
theorem delayed_delayFrom (hs : accessIdx.Pairwise (· < ·)) {b d : ℕ} {ub : ℕ → ℕ}
    (hfirst : ∀ a ∈ accessIdx, b ≤ a → (∀ c ∈ accessIdx, b ≤ c → a ≤ c) → a + d ≤ ub a) :
    Delayed accessIdx ub (accessIdx.map (delayFrom b d)) := by
  refine ⟨List.length_map _, fun hi => ?_, fun i hi => ?_⟩
  · rw [getD_map_delayFrom b d hi]
    unfold delayFrom
    split_ifs with hb
    · exact ⟨le_rfl, .inr rfl⟩
    · refine ⟨Nat.le_add_right _ _, .inl (hfirst _ (getD_mem hi) (not_lt.1 hb) fun c hc _ => ?_)⟩
      obtain ⟨j, hj, rfl⟩ := List.getElem_of_mem hc
      rw [← List.getD_eq_getElem _ 0 hj]
      rcases Nat.eq_zero_or_pos j with rfl | hpos
      · exact le_rfl
      · exact (getD_lt_getD hs hpos hj).le
  · have hlt : accessIdx.getD i 0 < accessIdx.getD (i + 1) 0 := getD_lt_getD hs (Nat.lt_succ_self i) hi
    rw [getD_map_delayFrom b d hi, getD_map_delayFrom b d (Nat.lt_of_succ_lt hi)]
    unfold delayFrom
    by_cases hb : accessIdx.getD (i + 1) 0 < b
    · rw [if_pos hb, if_pos (hlt.trans hb)]
      exact ⟨by omega, .inr (by omega)⟩
    · rw [if_neg hb]
      by_cases hb' : accessIdx.getD i 0 < b
      · rw [if_pos hb']
        refine ⟨by omega, .inl (hfirst _ (getD_mem hi) (not_lt.1 hb) fun c hc hbc => ?_)⟩
        obtain ⟨j, hj, rfl⟩ := List.getElem_of_mem hc
        rw [← List.getD_eq_getElem _ 0 hj] at hbc ⊢
        by_contra hcj
        rcases lt_trichotomy j (i + 1) with hji | rfl | hji
        · rcases Nat.lt_succ_iff_lt_or_eq.1 hji with hji | rfl
          · have := getD_lt_getD hs hji (Nat.lt_of_succ_lt hi)
            omega
          · omega
        · exact hcj le_rfl
        · exact hcj (getD_lt_getD hs hji hj).le
      · rw [if_neg hb']
        exact ⟨by omega, .inr (by omega)⟩

/-- **Such a placement is kept** if no access that gets into the egress meets another one there. -/
theorem sameSharing_delayFrom {b d : ℕ} (hb : b ≤ 10)
    (hapart : ∀ p ∈ accessIdx, ∀ q ∈ accessIdx, b ≤ p → p < 10 → 10 ≤ p + d → 10 ≤ q → q % 10 ≠ p) :
    SameSharing accessIdx (accessIdx.map (delayFrom b d)) := by
  rw [sameSharing_iff (List.length_map _)]
  intro i hi j hj
  have hij := hapart _ (getD_mem hi) _ (getD_mem hj)
  have hji := hapart _ (getD_mem hj) _ (getD_mem hi)
  rw [getD_map_delayFrom b d hi, getD_map_delayFrom b d hj, stageOf_eq_iff, stageOf_eq_iff]
  unfold delayFrom
  split_ifs <;> omega

/-- The delay at an access. -/
theorem delayAt_getD (hs : accessIdx.Pairwise (· < ·)) (hlen : x.length = accessIdx.length) {i : ℕ}
    (hi : i < accessIdx.length) :
    delayAt accessIdx x (accessIdx.getD i 0) = (x.getD i 0 : ℤ) - accessIdx.getD i 0 := by
  have hix : i < x.length := hlen ▸ hi
  have hmem : (accessIdx.getD i 0, x.getD i 0) ∈ (accessIdx.zip x).filter fun q =>
      (q.1 : ℤ) ≤ accessIdx.getD i 0 := by
    refine List.mem_filter.2 ⟨List.mem_iff_getElem?.2 ⟨i, ?_⟩, by simp⟩
    rw [List.getElem?_zip_eq_some, List.getD_eq_getElem _ _ hi, List.getD_eq_getElem _ _ hix]
    exact ⟨List.getElem?_eq_getElem hi, List.getElem?_eq_getElem hix⟩
  have hsorted : ((accessIdx.zip x).filter fun q => (q.1 : ℤ) ≤ accessIdx.getD i 0).Pairwise
      fun p q => p.1 < q.1 := by
    refine List.Pairwise.filter _ (List.pairwise_map.1 ?_)
    rw [List.map_fst_zip hlen.ge]
    exact hs
  unfold delayAt
  rcases List.eq_nil_or_concat' ((accessIdx.zip x).filter fun q => (q.1 : ℤ) ≤ accessIdx.getD i 0) with
    hnil | ⟨us, q, hus⟩
  · rw [hnil] at hmem
    exact absurd hmem List.not_mem_nil
  · -- the last of them is the access itself
    have hq := (List.mem_filter.1 (hus ▸ List.mem_append_right us (List.mem_singleton_self q) :
      q ∈ (accessIdx.zip x).filter fun q => (q.1 : ℤ) ≤ accessIdx.getD i 0)).2
    rw [decide_eq_true_eq] at hq
    rw [hus] at hmem hsorted ⊢
    obtain rfl : (accessIdx.getD i 0, x.getD i 0) = q := by
      rcases List.mem_append.1 hmem with hu | hu
      · have := (List.pairwise_append.1 hsorted).2.2 _ hu q (List.mem_singleton_self q)
        dsimp only at this
        omega
      · exact List.mem_singleton.1 hu
    rw [List.getLast?_concat]

/-- **An access in front of the limit that has more room than the program.** -/
theorem not_constrained_before (hs : accessIdx.Pairwise (· < ·)) (hlast : ∀ a ∈ accessIdx, a < progLen)
    (hword : maxProgLen progLen false + 10 ≤ 2 ^ 32) (hb : ∃ a ∈ accessIdx, BeforeLimit igLim a)
    (hroom : room progLen + 1 + igLim ≤ 9)
    (hapart : ∀ p ∈ accessIdx, ∀ q ∈ accessIdx, igLim ≤ p → p < 10 → 10 ≤ p + (room progLen + 1) →
      10 ≤ q → q % 10 ≠ p) :
    ∃ x ∈ enumerate accessIdx igLim progLen false, ¬ Constrained accessIdx igLim progLen x := by
  obtain ⟨a₀, ha₀, h₀, h₁, h₂⟩ := hb
  have hwrap : ∀ a ∈ accessIdx, 0 < a + room progLen ∨ BeforeLimit igLim a := by
    intro a _
    rcases Nat.eq_zero_or_pos a with rfl | hpos
    · exact .inr ⟨h₀, h₁, by omega⟩
    · exact .inl (by omega)
  have hlt : ∀ a ∈ accessIdx, a < 2 ^ 32 := fun a ha => by
    have := hlast a ha
    have := progLen_add_room progLen
    omega
  refine ⟨accessIdx.map (delayFrom 0 (room progLen + 1)), (mem_enumerate_iff hs hlast hword hwrap).2
    ⟨delayed_delayFrom hs fun a ha _ hmin => ?_, sameSharing_delayFrom (by decide) ?_⟩, fun hcon => ?_⟩
  · -- the first access is in front of the limit
    have hle := hmin a₀ ha₀ (Nat.zero_le _)
    have hub : (upperBound igLim progLen false a : ℤ) = _ := upperBound_before ⟨h₀, h₁, by omega⟩
    omega
  · intro p hp q hq _ hp10 hpr
    exact hapart p hp q hq (by omega) hp10 hpr
  · have hpos : 0 < accessIdx.length := List.length_pos_of_mem ha₀
    have := (hcon.between 0 hpos).2
    rw [constrLB_eq hlt, getD_map_delayFrom 0 _ hpos, delayFrom, if_neg (Nat.not_lt_zero _)] at this
    omega

/-- **An access at the limit that has more room than the ingress.** -/
theorem not_constrained_limit (hs : accessIdx.Pairwise (· < ·)) (hlast : ∀ a ∈ accessIdx, a < progLen)
    (hword : maxProgLen progLen false + 10 ≤ 2 ^ 32) (h₀ : 0 ≤ igLim) (h₁ : igLim < 10)
    (hmem : igLim.toNat ∈ accessIdx) (hroom : 10 < room progLen + igLim)
    (hapart : ∀ p ∈ accessIdx, ∀ q ∈ accessIdx, igLim ≤ p → p < 10 → 10 ≤ q → q % 10 ≠ p) :
    ∃ x ∈ enumerate accessIdx igLim progLen false, ¬ Constrained accessIdx igLim progLen x := by
  refine ⟨accessIdx.map (delayFrom igLim.toNat (10 - igLim.toNat)), (mem_enumerate_iff hs hlast hword
    fun a _ => .inl (by omega)).2 ⟨delayed_delayFrom hs fun a ha hle hmin => ?_,
      sameSharing_delayFrom (by omega) ?_⟩, fun hcon => ?_⟩
  · have heq : a = igLim.toNat := le_antisymm (hmin _ hmem le_rfl) hle
    have hal := hlast a ha
    have hlen := progLen_add_room progLen
    have hub : upperBound igLim progLen false a + 1 = _ :=
      upperBound_not_before (fun hb => by have := hb.2.2; omega) (by omega) (by omega)
    omega
  · intro p hp q hq hip hp10 _
    exact hapart p hp q hq (by omega) hp10
  · obtain ⟨i, hi, hia⟩ := List.getElem_of_mem hmem
    rw [← List.getD_eq_getElem _ 0 hi] at hia
    have hat : delayAt accessIdx (accessIdx.map (delayFrom igLim.toNat (10 - igLim.toNat)))
        (accessIdx.getD i 0) = _ := delayAt_getD hs (List.length_map _) hi
    have hlim : (igLim.toNat : ℤ) = igLim := Int.toNat_of_nonneg h₀
    have hcon' := hcon.ingress h₀ h₁
    rw [getD_map_delayFrom _ _ hi, hia, delayFrom, if_neg (lt_irrefl _), hlim] at hat
    rw [hat] at hcon'
    omega

/-! ### A bound below zero -/

/-- No access can move that is at its bound. -/
theorem successor_eq_none {l : List ℕ} {ub : ℕ → ℕ} (h : ∀ a ∈ l, ub a < a + 1) (ds : List ℕ) :
    successor l (l.map ub) ds = none := by
  induction l generalizing ds with
  | nil => rfl
  | cons a l ih =>
      cases ds with
      | nil => rfl
      | cons d ds =>
          rw [List.map_cons, successor, ih (fun b hb => h b (List.mem_cons_of_mem a hb))]
          exact if_pos (h a List.mem_cons_self)

/-- **An access at zero in a program without room.** -/
theorem not_constrained_zero (hs : accessIdx.Pairwise (· < ·)) (hlast : ∀ a ∈ accessIdx, a < progLen)
    (hword : maxProgLen progLen false + 10 ≤ 2 ^ 32) (hroom : room progLen = 0) (hzero : 0 ∈ accessIdx)
    (hb : ¬ BeforeLimit igLim 0)
    (hapart : 9 ∈ accessIdx → ∀ q ∈ accessIdx, 10 ≤ q → q % 10 ≠ 9) :
    ∃ x ∈ enumerate accessIdx igLim progLen false, ¬ Constrained accessIdx igLim progLen x := by
  have hlen := progLen_add_room progLen
  have hlt : ∀ a ∈ accessIdx, a + 1 < 2 ^ 32 := fun a ha => by
    have := hlast a ha
    omega
  have hlt' : ∀ a ∈ accessIdx, a < 2 ^ 32 := fun a ha => Nat.lt_of_succ_lt (hlt a ha)
  -- the access at zero is the first
  obtain ⟨rest, rfl⟩ : ∃ rest, accessIdx = 0 :: rest := by
    cases accessIdx with
    | nil => exact absurd hzero List.not_mem_nil
    | cons a rest =>
        rcases List.mem_cons.1 hzero with rfl | hmem
        · exact ⟨rest, rfl⟩
        · exact absurd ((List.pairwise_cons.1 hs).1 0 hmem) (Nat.not_lt_zero a)
  have hub₀ : upperBound igLim progLen false 0 = 2 ^ 32 - 1 := by
    unfold upperBound
    rw [if_neg fun h => hb ⟨h.1, h.2.1, h.2.2⟩, ← hlen, hroom]
    push_cast
    omega
  have hub : ∀ a ∈ rest, upperBound igLim progLen false a < a + 1 := by
    intro a ha
    have hpos := (List.pairwise_cons.1 hs).1 a ha
    have hal := hlast a (List.mem_cons_of_mem 0 ha)
    have : upperBound igLim progLen false a + 1 = _ :=
      upperBound_not_before (fun h => hb ⟨h.1, h.2.1, by have := h.2.2; omega⟩) (by omega) (by omega)
    omega
  have hsucc : successor (0 :: rest) ((0 :: rest).map (upperBound igLim progLen false))
      (deltas 0 (0 :: rest)) = some ((0 :: rest).map (· + 1)) := by
    rw [List.map_cons, hub₀, deltas, successor, successor_eq_none hub]
    dsimp only
    rw [if_neg (by decide), refill_add (hs.imp fun h => h.le) fun a ha => hlt a (List.mem_cons_of_mem 0 ha)]
    rfl
  have hmem : (0 :: rest).map (· + 1) ∈ enumerate (0 :: rest) igLim progLen false := by
    rw [enumerate, constrUB, constrDelta, constrLB_eq hlt', prune, List.mem_filter]
    constructor
    · obtain ⟨n, hn⟩ : ∃ n, 2 ^ (32 * (0 :: rest).length) = n + 2 := by
        refine ⟨2 ^ (32 * (0 :: rest).length) - 2, (Nat.sub_add_cancel ?_).symm⟩
        exact Nat.le_self_pow (by simp) 2
      rw [hn, enumerateLoop, hsucc]
      dsimp only
      rw [enumerateLoop]
      exact List.mem_cons_of_mem _ List.mem_cons_self
    · refine (kept_iff (List.length_map _)).2 ?_
      have hfrom : (0 :: rest).map (· + 1) = (0 :: rest).map (delayFrom 0 1) := by
        refine List.map_congr_left fun a _ => ?_
        rw [delayFrom, if_neg (Nat.not_lt_zero a)]
      rw [hfrom]
      refine sameSharing_delayFrom (by decide) fun p hp q hq _ hp10 hpr hq10 => ?_
      obtain rfl : p = 9 := by omega
      exact hapart hp q hq hq10
  refine ⟨_, hmem, fun hcon => ?_⟩
  have := (hcon.between 0 (Nat.zero_lt_succ _)).2
  rw [constrLB_eq hlt', hroom] at this
  simp at this

/-! ### The condition -/

/-- **Variants respect the constraints of a program that fits.**  And of the programs with 32-bit positions
that keep their constraints, at most these do not fit: those of more than twenty instructions with an
access at the limit, or behind it in the ingress, that meets one of the egress when it is delayed by ten or
a multiple; and those without room with an access at zero and two others that meet when they are delayed
by one. -/
theorem variants_constrained (hs : accessIdx.Pairwise (· < ·)) (hlast : ∀ a ∈ accessIdx, a < progLen) :
    (Fits accessIdx igLim progLen →
      ∀ x ∈ enumerate accessIdx igLim progLen false, Constrained accessIdx igLim progLen x) ∧
    (maxProgLen progLen false + 10 ≤ 2 ^ 32 →
      (∀ x ∈ enumerate accessIdx igLim progLen false, Constrained accessIdx igLim progLen x) →
        Fits accessIdx igLim progLen ∨
        (20 < progLen ∧ ∃ p ∈ accessIdx, ∃ q ∈ accessIdx, igLim ≤ p ∧ p < 10 ∧ 10 ≤ q ∧ q % 10 = p) ∨
        (room progLen = 0 ∧ 0 ∈ accessIdx ∧ 9 ∈ accessIdx ∧ ∃ q ∈ accessIdx, 10 ≤ q ∧ q % 10 = 9)) := by
  refine ⟨fun hf x hx => hf.constrained hs hlast hx, fun hword hall => ?_⟩
  by_contra hnot
  rw [not_or, not_or] at hnot
  obtain ⟨hfits, hlong, hnine⟩ := hnot
  have hno : ¬ ∃ x ∈ enumerate accessIdx igLim progLen false, ¬ Constrained accessIdx igLim progLen x :=
    fun ⟨x, hx, hcon⟩ => hcon (hall x hx)
  refine hfits ⟨hword, fun hroom hzero => ?_, fun hb hroom => ?_, fun h₀ h₁ hmem => ?_⟩
  · by_contra hb
    refine hno (not_constrained_zero hs hlast hword hroom hzero hb fun h9 q hq hq10 hq9 => ?_)
    exact hnine ⟨hroom, hzero, h9, q, hq, hq10, hq9⟩
  · by_contra hpair
    refine hno (not_constrained_before hs hlast hword hb hroom fun p hp q hq hip hp10 hpr hq10 hpq => ?_)
    exact hpair ⟨p, hp, q, hq, hip, hp10, hpr, hq10, hpq⟩
  · by_contra hroom
    refine hno (not_constrained_limit hs hlast hword h₀ h₁ hmem (by omega)
      fun p hp q hq hip hp10 hq10 hpq => ?_)
    by_cases hshort : 20 < progLen
    · exact hlong ⟨hshort, p, hp, q, hq, hip, hp10, hq10, hpq⟩
    · -- in a short program the other access would be behind the end
      have hql := hlast q hq
      have hlen := progLen_add_room progLen
      have hmax : maxProgLen progLen false = 20 := by
        unfold maxProgLen
        rw [if_neg (by decide), if_pos (not_lt.1 hshort)]
        omega
      omega

end Kept

/-- Accesses at three and seven in a program of fourteen instructions with the limit at two. -/
theorem variants_constrained_two :
    ([3, 7].Pairwise (· < ·) ∧ ∀ a ∈ [3, 7], a < 14) ∧
      ∀ x ∈ enumerate [3, 7] 2 14 false, Constrained [3, 7] 2 14 x :=
  ⟨⟨by decide, by decide⟩, (variants_constrained (by decide) (by decide)).1
    ⟨by decide, by decide, fun h => absurd h (by decide), by decide⟩⟩

/-- **Placements that pass the constraints.**  An access in front of the limit three may be delayed by six
positions; the program of eighteen instructions then has twenty-four.  An access at the limit seven may be
delayed into the egress. -/
theorem delayed_past_limit :
    ([6] ∈ enumerate [0] 3 18 false ∧ ¬ Constrained [0] 3 18 [6]) ∧
      [10] ∈ enumerate [7] 7 12 false ∧ ¬ Constrained [7] 7 12 [10] := by
  refine ⟨⟨by decide +kernel, fun h => ?_⟩, by decide +kernel, fun h => ?_⟩
  · have := h.length_le
    revert this
    decide
  · have := h.ingress (by decide) (by decide)
    revert this
    decide

end ActiveFunction

end ActiveRmt
