/-
**Admission and placement.**

A variant is admitted by a cost function that looks at the offset, at the first recorded hole and
at the demands of a stage; it is placed by a scan of the column.  This module compares the two in
every state of every run.

The admission test of an inelastic function takes the first recorded hole when it is longer than
the elastic region, and the elastic region otherwise.  After departures the first recorded hole may
be out of date: it may have become part of the free blocks right below the offset, which the scan
does not record, so that an admitted function is written past the end of the column; and a longer
hole may stand behind it, so that a function that would fit is refused.

Main definitions:

* `Allocator.Accepted` — what the cost functions test at a stage;
* `Allocator.HeadUsable` — the first recorded hole is still below an occupied block.

Main results:

* `Allocator.getCost_accepts` — an admitted variant is accepted at each of its stages;
* `Allocator.admission_iff_headUsable` — **every admitted function can be placed exactly when the
  first recorded holes are usable**;
* `Allocator.refusal_complete_iff` — exactly when a refusal of an inelastic function means that
  there is no room for it.
-/

import ActiveRmt.AllocatorRuns

set_option relaxedAutoImplicit false
set_option autoImplicit false

namespace ActiveRmt

open Blocks

namespace Allocator

variable {cfg : AllocatorConfig}

/-! ### What the cost functions test -/

/-- **The admission test at a stage** with `n` blocks, offset `e`, recorded holes `frags` and
demands `ds`, for a function with demand `d`. -/
structure Accepted (n e : ℕ) (frags : List Fragment) (ds : List ℕ) (d : ℕ) : Prop where
  /-- All demands together fit. -/
  sum_le : ds.sum + d ≤ n
  /-- An elastic function finds a block. -/
  elastic : d = 1 → e + ds.count 1 + 1 ≤ n
  /-- An inelastic function fits into the first hole, when that is longer than the elastic region,
  and else into the elastic region. -/
  inelastic : d ≠ 1 → (∃ fr ∈ frags.head?, (n : ℤ) - e < fr.size ∧ (d : ℤ) ≤ fr.size) ∨
    ((∀ fr ∈ frags.head?, fr.size ≤ (n : ℤ) - e) ∧ e + d + ds.count 1 ≤ n)

section StageCosts

variable {s : Allocator} {i : Stage} {n e d : ℕ} {ds : List ℕ} {frags : List Fragment}

/-- Without a recorded hole an inelastic function has to fit into the elastic region. -/
theorem accepted_iff_of_none (hd : d ≠ 1) (hhead : frags.head? = none) :
    Accepted n e frags ds d ↔ ds.sum + d ≤ n ∧ e + d + ds.count 1 ≤ n := by
  constructor
  · intro h
    rcases h.inelastic hd with ⟨fr, hfr, -⟩ | ⟨-, hle⟩
    · simp [hhead] at hfr
    · exact ⟨h.sum_le, hle⟩
  · rintro ⟨hsum, hle⟩
    exact ⟨hsum, fun h => absurd h hd, fun _ => Or.inr ⟨by simp [hhead], hle⟩⟩

/-- With a recorded hole it has to fit into the longer of the two. -/
theorem accepted_iff_of_some (hd : d ≠ 1) {fr : Fragment} (hhead : frags.head? = some fr) :
    Accepted n e frags ds d ↔ ds.sum + d ≤ n ∧
      if (n : ℤ) - e < fr.size then (d : ℤ) ≤ fr.size else e + d + ds.count 1 ≤ n := by
  constructor
  · intro h
    refine ⟨h.sum_le, ?_⟩
    rcases h.inelastic hd with ⟨fr', hfr, hlt, hle⟩ | ⟨hall, hle⟩
    · obtain rfl : fr = fr' := by simpa [hhead] using hfr
      rw [if_pos hlt]
      exact hle
    · rw [if_neg (not_lt.2 (hall fr (by simp [hhead])))]
      exact hle
  · rintro ⟨hsum, h⟩
    refine ⟨hsum, fun h => absurd h hd, fun _ => ?_⟩
    split_ifs at h with hlt
    · exact Or.inl ⟨fr, by simp [hhead], hlt, h⟩
    · exact Or.inr ⟨by simpa [hhead] using hlt, h⟩

/-- A cost function that is the test: it refuses when the function is not accepted, and its cost
is not negative when it is. -/
def Tests (cfg : AllocatorConfig) (s : Allocator) (i : Stage) (d : ℕ) (ds : List ℕ)
    (r : Except Exn (Option ℚ)) : Prop :=
  (Accepted cfg.maxOccupancy (s.elasticOffset i) (s.fragmentation i) ds d ∧
    ∃ cost, 0 ≤ cost ∧ r = .ok (some cost)) ∨
  (¬Accepted cfg.maxOccupancy (s.elasticOffset i) (s.fragmentation i) ds d ∧ r = .ok none)

/-- `getCostFit` tests acceptance at a stage whose elastic functions fit. -/
theorem tests_costFitAt (hds : s.demandsAt i = .ok ds)
    (hfit : s.elasticOffset i + ds.count 1 ≤ cfg.maxOccupancy) :
    Tests cfg s i d ds (s.costFitAt cfg i d) := by
  unfold costFitAt Tests
  simp only [hds, bind, Except.bind]
  by_cases hsum : ds.sum + d > cfg.maxOccupancy
  · rw [if_pos hsum]
    exact Or.inr ⟨fun h => absurd h.sum_le (by omega), rfl⟩
  rw [if_neg hsum]
  by_cases hd1 : d = 1
  · rw [if_pos hd1]
    split_ifs with hel
    · exact Or.inr ⟨fun h => absurd (h.elastic hd1) (by omega), rfl⟩
    · refine Or.inl ⟨⟨by omega, fun _ => by omega, fun h => absurd hd1 h⟩, _, ?_, rfl⟩
      refine roundDouble_nonneg (mul_nonneg (Nat.cast_nonneg _) (roundDouble_nonneg ?_))
      refine div_nonneg (Nat.cast_nonneg _) ?_
      exact_mod_cast (by omega : (0 : ℤ) ≤ (cfg.maxOccupancy : ℤ) - s.elasticOffset i)
  rw [if_neg hd1]
  have hcost : (0 : ℚ) ≤ ((ds.sum + d : ℕ) : ℚ) := Nat.cast_nonneg _
  cases hhead : (s.fragmentation i).head? with
  | none =>
      rw [accepted_iff_of_none hd1 hhead]
      simp only
      split_ifs with h₁ h₂
      · exact Or.inr ⟨by omega, rfl⟩
      · exact Or.inr ⟨by omega, rfl⟩
      · omega
      · exact Or.inl ⟨by omega, _, hcost, rfl⟩
  | some fr =>
      rw [accepted_iff_of_some hd1 hhead]
      simp only [gt_iff_lt]
      split_ifs with h₁ h₂
      · exact Or.inr ⟨by omega, rfl⟩
      · omega
      · exact Or.inl ⟨by omega, _, hcost, rfl⟩
      · exact Or.inr ⟨by omega, rfl⟩
      · exact Or.inr ⟨by omega, rfl⟩
      · omega
      · exact Or.inl ⟨by omega, _, hcost, rfl⟩

/-- `getCostMoving` tests acceptance. -/
theorem tests_costMovingAt (hds : s.demandsAt i = .ok ds) :
    Tests cfg s i d ds (s.costMovingAt cfg i d) := by
  unfold costMovingAt Tests
  simp only [hds, bind, Except.bind]
  -- the estimated number of functions that have to move is not negative
  have hmoved : ∀ region : ℤ, (0 : ℚ) ≤ if d = 1 ∧ 0 < ds.count 1 then
      (if region / ((ds.count 1 : ℤ) + 1) < region / ((ds.count 1 : ℤ) + 1 - 1)
        then (((ds.count 1 : ℤ) + 1 - 1 : ℤ) : ℚ)
        else (((ds.count 1 : ℤ) + 1 - region % ((ds.count 1 : ℤ) + 1) - 1 : ℤ) : ℚ))
      else ((ds.count 1 : ℕ) : ℚ) := by
    intro region
    have hlt := Int.emod_lt_of_pos region (show (0 : ℤ) < (ds.count 1 : ℤ) + 1 by omega)
    split_ifs
    · exact_mod_cast (by omega : (0 : ℤ) ≤ (ds.count 1 : ℤ) + 1 - 1)
    · exact_mod_cast (by omega :
        (0 : ℤ) ≤ (ds.count 1 : ℤ) + 1 - region % ((ds.count 1 : ℤ) + 1) - 1)
    · exact Nat.cast_nonneg _
  have hcost := hmoved ((cfg.maxOccupancy : ℤ) - ((ds.filter (1 < ·)).sum : ℕ))
  generalize (if d = 1 ∧ 0 < ds.count 1 then _ else _ : ℚ) = moved at hcost ⊢
  by_cases hsum : ds.sum + d > cfg.maxOccupancy
  · rw [if_pos hsum]
    exact Or.inr ⟨fun h => absurd h.sum_le (by omega), rfl⟩
  rw [if_neg hsum]
  by_cases hd1 : d = 1
  · rw [if_pos hd1]
    split_ifs with hel
    · exact Or.inr ⟨fun h => absurd (h.elastic hd1) (by omega), rfl⟩
    · exact Or.inl ⟨⟨by omega, fun _ => by omega, fun h => absurd hd1 h⟩, _, hcost, rfl⟩
  rw [if_neg hd1]
  cases hhead : (s.fragmentation i).head? with
  | none =>
      rw [accepted_iff_of_none hd1 hhead]
      simp only
      split_ifs with h₁ h₂
      · exact Or.inr ⟨by omega, rfl⟩
      · exact Or.inr ⟨by omega, rfl⟩
      · exact Or.inl ⟨by omega, _, hcost, rfl⟩
  | some fr =>
      rw [accepted_iff_of_some hd1 hhead]
      simp only [gt_iff_lt]
      split_ifs with h₁ h₂
      · exact Or.inr ⟨by omega, rfl⟩
      · exact Or.inl ⟨by omega, _, hcost, rfl⟩
      · exact Or.inr ⟨by omega, rfl⟩
      · exact Or.inr ⟨by omega, rfl⟩
      · exact Or.inl ⟨by omega, _, hcost, rfl⟩

end StageCosts

/-! ### Accepted variants -/

/-- A sum of costs that is not negative has a cost at every stage. -/
theorem sumStages_accepts {add : ℚ → ℚ → ℚ} {stageCost : Stage → ℕ → Except Exn (Option ℚ)}
    {minDemand : List ℕ} {v : List Stage} {k : ℕ} {sum cost : ℚ}
    (h : sumStages add stageCost minDemand v k sum = .ok cost) (hc : 0 ≤ cost) {j : ℕ} {i : Stage}
    (hj : v[j]? = some i) :
    ∃ d c, minDemand[k + j]? = some d ∧ stageCost i d = .ok (some c) := by
  induction v generalizing k sum j with
  | nil => simp at hj
  | cons i' v ih =>
      rw [sumStages] at h
      cases hd : minDemand[k]? with
      | none => simp [hd] at h
      | some d =>
          rw [hd] at h
          cases hs : stageCost i' d with
          | error ex => simp [hs, bind, Except.bind] at h
          | ok r =>
              cases r with
              | none =>
                  -- the refusal is a negative cost
                  simp only [hs, bind, Except.bind, Except.ok.injEq] at h
                  rw [← h] at hc
                  norm_num at hc
              | some c =>
                  simp only [hs, bind, Except.bind] at h
                  cases j with
                  | zero =>
                      obtain rfl : i' = i := by simpa using hj
                      exact ⟨d, c, hd, hs⟩
                  | succ j =>
                      have := ih h (by simpa using hj)
                      rwa [Nat.add_right_comm, Nat.add_assoc] at this

/-- The demands of the functions of a stage. -/
def demandList (s : Allocator) (i : Stage) : List ℕ :=
  (ascending (s.allocationMap i)).map fun f => s.demand i f

section Demands

variable {s : Allocator} {af : ActiveFunction} {v : List Stage} {i : Stage}

theorem Consistent.demandsAt_eq (hs : Consistent cfg s) (i : Stage) :
    s.demandsAt i = .ok (s.demandList i) :=
  mapM_eq_ok fun f hf => (hs.demand_ok i f (mem_ascending.1 hf)).1

/-- Entering a new function does not change the demands of the others. -/
theorem Consistent.demandsAt_entered (hs : Consistent cfg s) (ha : Arrival s af) (i : Stage) :
    (s.entered af).demandsAt i = .ok (s.demandList i) := by
  refine mapM_eq_ok fun f hf => ?_
  have hf' : f ∈ s.allocationMap i := mem_ascending.1 hf
  rw [← (hs.demand_ok i f hf').1]
  simp only [getMinDemand, entered, Dict.get?_set, if_neg ((hs.newcomer ha).ne_of_mem hf')]

theorem count_demandList (s : Allocator) (i : Stage) :
    (s.demandList i).count 1 = ((s.allocationMap i).filter fun f => s.demand i f = 1).card := by
  rw [demandList, List.count, List.countP_map, List.countP_eq_length_filter,
    ← length_filter_ascending]
  simp only [Function.comp_def, beq_eq_decide]

theorem sum_demandList (s : Allocator) (i : Stage) :
    (s.demandList i).sum = ∑ f ∈ s.allocationMap i, s.demand i f := by
  rw [Finset.sum, ← coe_ascending, Multiset.map_coe, Multiset.sum_coe, demandList]

/-- The elastic functions of a stage fit. -/
theorem Consistent.elastic_fit (hs : Consistent cfg s) (i : Stage) :
    s.elasticOffset i + (s.demandList i).count 1 ≤ cfg.maxOccupancy := by
  rw [count_demandList]
  refine (hs.geometry i).card_elastic_le fun f hf => ?_
  rw [Finset.mem_filter] at hf
  rw [hs.tenants_eq i]
  exact hf

/-- Under the two metrics that look at the placement, the cost of a variant is a sum of tests. -/
theorem Consistent.exists_stageCost (hs : Consistent cfg s) (ha : Arrival s af)
    (hm : cfg.metric = .cost ∨ cfg.metric = .realloc) :
    ∃ (add : ℚ → ℚ → ℚ) (stageCost : Stage → ℕ → Except Exn (Option ℚ)),
      (∀ a b, 0 ≤ a + b → 0 ≤ add a b) ∧
      (∀ v, (s.entered af).getCost cfg v af = sumStages add stageCost af.minDemand v 0 0) ∧
      ∀ i d, Tests cfg s i d (s.demandList i) (stageCost i d) := by
  rcases hm with hm | hm
  · refine ⟨addDouble, (s.entered af).costFitAt cfg, fun a b => roundDouble_nonneg,
      fun v => by rw [getCost, hm]; rfl, fun i d => ?_⟩
    exact tests_costFitAt (s := s.entered af) (hs.demandsAt_entered ha i) (hs.elastic_fit i)
  · refine ⟨(· + ·), (s.entered af).costMovingAt cfg, fun a b h => h,
      fun v => by rw [getCost, hm]; rfl, fun i d => ?_⟩
    exact tests_costMovingAt (s := s.entered af) (hs.demandsAt_entered ha i)

/-- **An admitted variant is accepted at each of its stages.** -/
theorem Consistent.getCost_accepts (hs : Consistent cfg s) (ha : Arrival s af)
    (hm : cfg.metric = .cost ∨ cfg.metric = .realloc) {cost : ℚ}
    (hcost : (s.entered af).getCost cfg v af = .ok cost) (hc : 0 ≤ cost) {j : ℕ}
    (hj : v[j]? = some i) :
    ∃ d, af.minDemand[j]? = some d ∧
      Accepted cfg.maxOccupancy (s.elasticOffset i) (s.fragmentation i) (s.demandList i) d := by
  obtain ⟨add, stageCost, -, hsum, htest⟩ := hs.exists_stageCost ha hm
  rw [hsum v] at hcost
  obtain ⟨d, c, hd, hst⟩ := sumStages_accepts hcost hc hj
  refine ⟨d, by simpa using hd, ?_⟩
  rcases htest i d with ⟨hacc, -⟩ | ⟨-, hnone⟩
  · exact hacc
  · simp [hst] at hnone

end Demands

/-! ### Where an accepted variant can be placed -/

/-- **The holes that a placement can use**: the free runs below an occupied block. -/
theorem StageInv.exists_hole_iff {n e d : ℕ} {δ : Fid → ℕ} {col : List ℕ} {frags : List Fragment}
    (h : StageInv n δ col e frags) (hd : 2 ≤ d) :
    (∃ fr ∈ holesBelow e col, (d : ℤ) ≤ fr.size) ↔
      ∃ a j, FreeRun col a d ∧ a + d ≤ j ∧ j < e ∧ owner col j ≠ 0 := by
  constructor
  · rintro ⟨fr, hfr, hle⟩
    obtain ⟨hlt, hrun⟩ := h.scanAt.sound fr hfr (by omega)
    exact ⟨fr.start, fr.start + fr.size.toNat, fun j hj hjd => hrun.free j hj (by omega), by omega,
      hlt, hrun.right⟩
  · rintro ⟨a, j, hfree, haj, hje, hne⟩
    obtain ⟨a', l, hmax, hdl⟩ := hfree.exists_maximal (by omega) haj
    have hle := hmax.le
    refine ⟨⟨a', l⟩, h.scanAt.complete a' l (by omega) (by omega) ⟨hmax.free, hmax.left, ?_⟩, by
      simpa using hdl⟩
    rcases hmax.right with heq | hne'
    · rw [heq]
      exact hne
    · exact hne'

section Success

variable {s : Allocator} {af : ActiveFunction} {v : List Stage} {i : Stage}

/-- The number of elastic functions of a stage after an arrival. -/
theorem Consistent.length_elasticOf (hs : Consistent cfg s) (ha : Arrival s af) (i : Stage) :
    (elasticOf ((s.register af v).demand i) (arrivalMap s.allocationMap af.fid v i)).length =
      (s.demandList i).count 1 +
        if i ∈ v ∧ (s.register af v).demand i af.fid = 1 then 1 else 0 := by
  have hsame : (s.allocationMap i).filter (fun f => (s.register af v).demand i f = 1) =
      (s.allocationMap i).filter fun f => s.demand i f = 1 :=
    Finset.filter_congr fun f hf => by rw [(hs.newcomer ha).demand_register_of_mem hf]
  have hnot : af.fid ∉ (s.allocationMap i).filter fun f => s.demand i f = 1 := fun hmem =>
    (hs.newcomer ha).ne_of_mem (Finset.mem_filter.1 hmem).1 rfl
  rw [elasticOf, length_filter_ascending, count_demandList, arrivalMap]
  by_cases hi : i ∈ v
  · by_cases h1 : (s.register af v).demand i af.fid = 1
    · rw [if_pos hi, if_pos ⟨hi, h1⟩, Finset.filter_insert, if_pos h1, hsame,
        Finset.card_insert_of_notMem hnot]
    · rw [if_pos hi, if_neg (fun h => h1 h.2), Finset.filter_insert, if_neg h1, hsame, Nat.add_zero]
  · rw [if_neg hi, if_neg (fun h => hi h.1), hsame, Nat.add_zero]

/-- The inelastic arrival of a stage. -/
theorem Consistent.mem_arrivals (hs : Consistent cfg s) (ha : Arrival s af) {app : Fid × ℕ} :
    app ∈ inelasticArrivals ((s.register af v).demand i) (arrivalMap s.allocationMap af.fid v i)
        (s.allocationMatrix i) ↔
      i ∈ v ∧ 1 < (s.register af v).demand i af.fid ∧
        app = (af.fid, (s.register af v).demand i af.fid) := by
  rw [mem_inelasticArrivals, hs.tenants_eq i, arrivalMap]
  constructor
  · rintro ⟨hmem, hnot, h1, heq⟩
    split_ifs at hmem with hi
    · rcases Finset.mem_insert.1 hmem with hfid | hmem
      · rw [hfid] at heq
        exact ⟨hi, heq ▸ h1, Prod.ext hfid heq⟩
      · exact absurd hmem hnot
    · exact absurd hmem hnot
  · rintro ⟨hi, h1, rfl⟩
    refine ⟨by simp [hi], fun hmem => (hs.newcomer ha).ne_of_mem hmem rfl, h1, rfl⟩

/-- **When the new column of a stage can be computed**: the arrival, if it is one of this stage,
finds a block above the offset when it is elastic, and a hole or room above the offset when it is
inelastic. -/
theorem Consistent.stageResult_iff (hs : Consistent cfg s) (ha : Arrival s af)
    (hv : v ∈ af.getEnumeration) (i : Stage) :
    (∃ col st, stageResult cfg (s.register af v) (arrivalMap s.allocationMap af.fid v) i
        = .ok col st) ↔
      (i ∈ v → (s.register af v).demand i af.fid = 1 →
        s.elasticOffset i + (s.demandList i).count 1 + 1 ≤ cfg.maxOccupancy) ∧
      (i ∈ v → 1 < (s.register af v).demand i af.fid →
        (∃ fr ∈ holesBelow (s.elasticOffset i) (s.allocationMatrix i),
          ((s.register af v).demand i af.fid : ℤ) ≤ fr.size) ∨
        s.elasticOffset i + (s.register af v).demand i af.fid + (s.demandList i).count 1
          ≤ cfg.maxOccupancy) := by
  have hr := hs.ready (hs.newcomer ha) hv
  have hfit := hs.elastic_fit i
  unfold stageResult
  by_cases hempty : arrivalMap s.allocationMap af.fid v i = ∅
  · have hi : i ∉ v := by
      intro hi
      rw [arrivalMap, if_pos hi] at hempty
      exact Finset.insert_ne_empty _ _ hempty
    simp [hempty, hi]
  · rw [if_neg hempty, placeStage_succeeds_iff (hr.geometry i)
      (fun f hf => (hr.demand_ok i f hf).1) (fun f hf => (hr.demand_ok i f hf).2)
      (hr.tenants_subset i) (hr.arrivals i) (hr.zero_notMem i), hs.length_elasticOf ha i]
    have hoff : (s.register af v).elasticOffset i = s.elasticOffset i := rfl
    have hmat : (s.register af v).allocationMatrix i = s.allocationMatrix i := rfl
    rw [hoff, hmat]
    constructor
    · rintro ⟨hle, happ⟩
      refine ⟨fun hi h1 => ?_, fun hi h1 => ?_⟩
      · rw [if_pos ⟨hi, h1⟩] at hle
        omega
      · have := happ _ ((hs.mem_arrivals ha).2 ⟨hi, h1, rfl⟩)
        rw [if_neg (by rintro ⟨-, h⟩; omega)] at this
        exact this
    · rintro ⟨hel, hin⟩
      refine ⟨?_, ?_⟩
      · split_ifs with hcase
        · have := hel hcase.1 hcase.2
          omega
        · exact hfit
      · intro app happ
        obtain ⟨hi, h1, rfl⟩ := (hs.mem_arrivals ha).1 happ
        rw [if_neg (by rintro ⟨-, h⟩; omega)]
        exact hin hi h1

/-- **The first recorded hole is usable**: where it is longer than the elastic region, there is a
free run of its length below an occupied block below the offset. -/
def HeadUsable (cfg : AllocatorConfig) (s : Allocator) : Prop :=
  ∀ i, ∀ fr ∈ (s.fragmentation i).head?, 2 ≤ fr.size →
    (cfg.maxOccupancy : ℤ) - s.elasticOffset i < fr.size →
    ∃ a j, FreeRun (s.allocationMatrix i) a fr.size.toNat ∧ a + fr.size.toNat ≤ j ∧
      j < s.elasticOffset i ∧ owner (s.allocationMatrix i) j ≠ 0

/-- Queueing succeeds exactly when every stage can be placed. -/
theorem Consistent.enqueue_succeeds_iff (hs : Consistent cfg s) (ha : Arrival s af)
    (hv : v ∈ af.getEnumeration) (al : Finset Stage) :
    (∃ r s₂, enqueueAllocation cfg al (arrivalMap s.allocationMap af.fid v) (s.register af v)
        = .ok r s₂) ↔
      ∀ i, ∃ col st, stageResult cfg (s.register af v) (arrivalMap s.allocationMap af.fid v) i
        = .ok col st := by
  have hr := hs.ready (hs.newcomer ha) hv
  have hne : ∃ i, arrivalMap s.allocationMap af.fid v i ≠ ∅ := by
    obtain ⟨i, hi⟩ := List.exists_mem_of_ne_nil v ((hs.newcomer ha).wellFormed.ne_nil v hv)
    refine ⟨i, ?_⟩
    rw [arrivalMap, if_pos hi]
    exact Finset.insert_ne_empty _ _
  rw [← computeAllocationMatrix_succeeds_iff hr hne]
  constructor
  · rintro ⟨r, s₂, h⟩
    cases hm : computeAllocationMatrix cfg (arrivalMap s.allocationMap af.fid v)
        (s.register af v) with
    | error ex t => simp [enqueueAllocation_error hm] at h
    | ok new t => exact ⟨new, t, rfl⟩
  · rintro ⟨new, t, hm⟩
    exact ⟨_, _, enqueueAllocation_eq hr al hm⟩

/-- When the first recorded holes are usable, every admitted variant can be placed. -/
theorem Consistent.places_of_headUsable (hs : Consistent cfg s) (hq : HeadUsable cfg s)
    (ha : Arrival s af) (hm : cfg.metric = .cost ∨ cfg.metric = .realloc)
    (hv : v ∈ af.getEnumeration) {cost : ℚ} (hcost : (s.entered af).getCost cfg v af = .ok cost)
    (hc : 0 ≤ cost) (i : Stage) :
    ∃ col st, stageResult cfg (s.register af v) (arrivalMap s.allocationMap af.fid v) i
      = .ok col st := by
  have hacc : i ∈ v → Accepted cfg.maxOccupancy (s.elasticOffset i) (s.fragmentation i)
      (s.demandList i) ((s.register af v).demand i af.fid) := by
    intro hi
    obtain ⟨k, d, hk, hd, hget⟩ := getMinDemand_register_self (s := s) ((hs.newcomer ha).wellFormed.nodup v hv)
      ((hs.newcomer ha).wellFormed.length_le v hv) hi
    obtain ⟨d', hd', hacc⟩ := hs.getCost_accepts ha hm hcost hc hk
    rw [hd] at hd'
    obtain rfl := Option.some.inj hd'
    rwa [demand_eq hget]
  rw [hs.stageResult_iff ha hv i]
  refine ⟨fun hi h1 => (hacc hi).elastic h1, fun hi h1 => ?_⟩
  rcases (hacc hi).inelastic (by omega) with ⟨fr, hfr, hlong, hle⟩ | ⟨-, hle⟩
  · -- the first hole is the longer one: a run of its length is found by the scan
    left
    obtain ⟨a, j, hfree, haj, hje, hne⟩ := hq i fr hfr (by omega) hlong
    refine ((hs.geometry i).exists_hole_iff (by omega)).2 ⟨a, j, ?_, by omega, hje, hne⟩
    intro k hk hkd
    exact hfree k hk (by omega)
  · exact Or.inr hle

end Success

/-! ### Admission implies placement -/

section Admission

variable {s : Allocator} {i : Stage}

/-- The demands of a stage and a free run below the offset fit below the offset, but for the
elastic functions. -/
theorem Consistent.sum_add_le (hs : Consistent cfg s) {a d : ℕ}
    (hfree : FreeRun (s.allocationMatrix i) a d) (had : a + d ≤ s.elasticOffset i) :
    (s.demandList i).sum + d ≤ s.elasticOffset i + (s.demandList i).count 1 := by
  let inelastic := (s.allocationMap i).filter fun f => 1 < s.demand i f
  have hsplit : (s.demandList i).sum =
      ∑ f ∈ inelastic, s.demand i f + (s.demandList i).count 1 := by
    rw [sum_demandList, count_demandList, Finset.card_eq_sum_ones,
      ← Finset.sum_filter_add_sum_filter_not (s.allocationMap i) (fun f => 1 < s.demand i f)]
    congr 1
    have hset : (s.allocationMap i).filter (fun f => ¬1 < s.demand i f) =
        (s.allocationMap i).filter fun f => s.demand i f = 1 := by
      refine Finset.filter_congr fun f hf => ?_
      have := (hs.demand_ok i f hf).2
      omega
    rw [hset]
    exact Finset.sum_congr rfl fun f hf => (Finset.mem_filter.1 hf).2
  have hinel : ∑ f ∈ inelastic, s.demand i f + d ≤ s.elasticOffset i := by
    refine sum_le_of_owns inelastic (s.demand i) ?_ hfree had
    intro f hf
    obtain ⟨hf, h1⟩ := Finset.mem_filter.1 hf
    rw [← hs.tenants_eq i] at hf
    exact ⟨(mem_tenants_iff.1 hf).1, (hs.geometry i).pinned f hf h1⟩
  omega

/-- There is always a new identifier. -/
theorem exists_fresh (s : Allocator) : ∃ f : Fid, 0 < f ∧ f ∉ s.activeFuncs.keys := by
  obtain ⟨f, hf⟩ := Infinite.exists_notMem_finset (insert 0 s.activeFuncs.keys.toFinset)
  rw [Finset.mem_insert, not_or, List.mem_toFinset] at hf
  exact ⟨f, Nat.pos_of_ne_zero hf.1, hf.2⟩

theorem arrival_singleAccess {f : Fid} {d : ℕ} (hf : 0 < f) (hnew : f ∉ s.activeFuncs.keys)
    (hd : 1 ≤ d) (i : Stage) : Arrival s (.singleAccess f i d) where
  built := ActiveFunction.init_singleAccess f i d
  fresh := hnew
  pos := hf
  demands := by
    intro d' hd'
    obtain rfl := List.mem_singleton.1 hd'
    exact hd

/-- A function with one variant that is accepted is admitted. -/
theorem computeAllocation_single {f : Fid} {d : ℕ} {cost : ℚ}
    (hcost : (s.entered (.singleAccess f i d)).getCost cfg [i] (.singleAccess f i d) = .ok cost)
    (hc : 0 ≤ cost) :
    ∃ ch, computeAllocation cfg (.singleAccess f i d) s =
      .ok (some ch) (s.register (.singleAccess f i d) [i]) ∧ ch.optimal = [i] := by
  have hsearch : (s.entered (.singleAccess f i d)).search cfg (.singleAccess f i d) [[i]] none =
      .ok (some ([i], cost)) := by
    simp only [search, hcost, bind, Except.bind, if_neg (not_lt.2 hc), better]
    split_ifs <;> rfl
  unfold computeAllocation
  rw [ActiveFunction.getEnumeration_singleAccess]
  rw [entered] at hsearch
  simp only [hsearch]
  refine ⟨⟨[i], cost, (s.entered (.singleAccess f i d)).getUtilization cfg,
    s.allocation ∪ [i].toFinset, arrivalMap s.allocationMap f [i]⟩, ?_, rfl⟩
  simp only [register, Dict.set_set]
  rfl

/-- **Admission implies placement exactly when the first recorded holes are usable**, in every
state of every run: then, and only then, every function that is admitted can be queued. -/
theorem admission_iff_headUsable {ops : List Op} (h : Run (Step cfg) (init cfg) ops s)
    (hm : cfg.metric = .cost ∨ cfg.metric = .realloc) :
    (∀ af, Arrival s af → ∀ ch s₁, computeAllocation cfg af s = .ok (some ch) s₁ →
      ∃ r s₂, enqueueAllocation cfg ch.allocation ch.allocationMap s₁ = .ok r s₂) ↔
    HeadUsable cfg s := by
  have hs := consistent_of_run h
  constructor
  · intro hplace i fr hfr h2 hlong
    -- a function with one access at this stage, as long as the first hole, is admitted
    obtain ⟨f, hf, hnew⟩ := exists_fresh s
    have ha := arrival_singleAccess hf hnew (show 1 ≤ fr.size.toNat by omega) i
    have hv : [i] ∈ (ActiveFunction.singleAccess f i fr.size.toNat).getEnumeration := by
      rw [ActiveFunction.getEnumeration_singleAccess]
      exact List.mem_cons_self ..
    obtain ⟨hbelow, hfree⟩ := (hs.geometry i).hole fr (List.mem_of_mem_head? hfr) (by omega)
    have hacc : Accepted cfg.maxOccupancy (s.elasticOffset i) (s.fragmentation i)
        (s.demandList i) fr.size.toNat := by
      have hsum := hs.sum_add_le hfree hbelow
      have hfit := hs.elastic_fit i
      exact ⟨by omega, fun h1 => by omega, fun _ => Or.inl ⟨fr, hfr, hlong, by omega⟩⟩
    obtain ⟨add, stageCost, hadd, hsum, htest⟩ := hs.exists_stageCost ha hm
    obtain ⟨cost, hc, hst⟩ : ∃ cost, 0 ≤ cost ∧ stageCost i fr.size.toNat = .ok (some cost) := by
      rcases htest i fr.size.toNat with ⟨-, hcost⟩ | ⟨hnot, -⟩
      · exact hcost
      · exact absurd hacc hnot
    have hcost : (s.entered (.singleAccess f i fr.size.toNat)).getCost cfg [i]
        (.singleAccess f i fr.size.toNat) = .ok (add 0 cost) := by
      rw [hsum [i]]
      simp [sumStages, ActiveFunction.singleAccess, hst, bind, Except.bind]
    obtain ⟨ch, hch, hopt⟩ := computeAllocation_single hcost (hadd 0 cost (by simpa using hc))
    obtain ⟨r, s₂, he⟩ := hplace _ ha ch _ hch
    obtain ⟨⟨-, -, hal, hmap⟩, -⟩ := computeAllocation_some hch
    rw [hmap, hopt] at he
    -- so the scan must have found a hole: above the offset there is no room
    have hst := (hs.stageResult_iff ha hv i).1
      ((hs.enqueue_succeeds_iff ha hv _).1 ⟨r, s₂, he⟩ i)
    obtain ⟨k, d, hk, hd, hget⟩ := getMinDemand_register_self (s := s) ((hs.newcomer ha).wellFormed.nodup _ hv)
      ((hs.newcomer ha).wellFormed.length_le _ hv) (List.mem_singleton_self i)
    have hk0 : k = 0 := by
      have := (List.getElem?_eq_some_iff.1 hk).1
      simpa using this
    obtain rfl : fr.size.toNat = d := by
      subst hk0
      simpa [ActiveFunction.singleAccess] using hd
    have hdem := demand_eq hget
    have := hst.2 (List.mem_singleton_self i)
    rw [hdem] at this
    rcases this (by omega) with hhole | hroom
    · exact ((hs.geometry i).exists_hole_iff (by omega)).1 hhole
    · omega
  · intro hq af ha ch s₁ hch
    obtain ⟨⟨rfl, hv, hal, hmap⟩, hcost, hc⟩ := computeAllocation_some hch
    rw [hmap]
    exact (hs.enqueue_succeeds_iff ha hv _).2 fun i =>
      hs.places_of_headUsable hq ha hm hv hcost hc i

/-- How the queueing of an admitted function ends; `none` when the function is not admitted. -/
def tryQueue (cfg : AllocatorConfig) (s : Allocator) (af : ActiveFunction) :
    Option (Option Exn) :=
  match computeAllocation cfg af s with
  | .ok (some ch) s₁ =>
      match enqueueAllocation cfg ch.allocation ch.allocationMap s₁ with
      | .ok _ _ => some none
      | .error ex _ => some (some ex)
  | _ => none

theorem exists_of_tryQueue {af : ActiveFunction} {r : Option Exn}
    (h : tryQueue cfg s af = some r) :
    ∃ ch s₁, computeAllocation cfg af s = .ok (some ch) s₁ ∧
      ∀ ex, r = some ex →
        ∃ s₂, enqueueAllocation cfg ch.allocation ch.allocationMap s₁ = .error ex s₂ := by
  unfold tryQueue at h
  split at h
  · rename_i ch s₁ hch
    refine ⟨ch, s₁, hch, ?_⟩
    rintro ex rfl
    split at h
    · simp at h
    · rename_i ex' s₂ he
      obtain rfl : ex' = ex := by simpa using h
      exact ⟨s₂, he⟩
  · simp at h

/-- A stage with two resident functions, whose recorded holes are usable: the next one is placed. -/
theorem admission_iff_headUsable_two_arrivals :
    ∃ s ch s₁ r s₂, execute ⟨8, .cost, true, true⟩
        [.arrive (.singleAccess 1 0 3), .arrive (.singleAccess 2 0 1)] (init ⟨8, .cost, true, true⟩)
        = some s ∧
      computeAllocation ⟨8, .cost, true, true⟩ (.singleAccess 3 0 2) s = .ok (some ch) s₁ ∧
      enqueueAllocation ⟨8, .cost, true, true⟩ ch.allocation ch.allocationMap s₁ = .ok r s₂ := by
  have hex : (execute ⟨8, .cost, true, true⟩
      [.arrive (.singleAccess 1 0 3), .arrive (.singleAccess 2 0 1)]
      (init ⟨8, .cost, true, true⟩)).any (fun s => Arrival s (.singleAccess 3 0 2) ∧
        (∀ i, (s.fragmentation i).head? = none) ∧
        tryQueue ⟨8, .cost, true, true⟩ s (.singleAccess 3 0 2) = some none) = true := by
    decide +kernel
  obtain ⟨s, hs, hex⟩ := (Option.any_eq_true _ _).1 hex
  obtain ⟨ha, hfrag, hq⟩ := of_decide_eq_true hex
  obtain ⟨ch, s₁, hch, -⟩ := exists_of_tryQueue hq
  have husable : HeadUsable ⟨8, .cost, true, true⟩ s := by
    intro i fr hfr
    simp [hfrag i] at hfr
  obtain ⟨r, s₂, he⟩ := (admission_iff_headUsable (run_iff_execute.2 hs) (Or.inl rfl)).2 husable _
    ha ch s₁ hch
  exact ⟨s, ch, s₁, r, s₂, hs, hch, he⟩

/-- **An admitted function that is written past the end of its column.**  On eight blocks a
function of five and one of three blocks arrive and depart, in this order.  The recorded hole of
five blocks is then right below the offset and is not found by the scan, so that a function of four
blocks is admitted and written to the blocks from the fifth on. -/
theorem admitted_not_placed :
    ∃ s ch s₁ s₂, Run (Step ⟨8, .cost, true, true⟩) (init ⟨8, .cost, true, true⟩)
        [.arrive (.singleAccess 1 0 5), .arrive (.singleAccess 2 0 3), .depart 1, .depart 2] s ∧
      Arrival s (.singleAccess 3 0 4) ∧
      computeAllocation ⟨8, .cost, true, true⟩ (.singleAccess 3 0 4) s = .ok (some ch) s₁ ∧
      enqueueAllocation ⟨8, .cost, true, true⟩ ch.allocation ch.allocationMap s₁ =
        .error .indexError s₂ := by
  have hex : (execute ⟨8, .cost, true, true⟩
      [.arrive (.singleAccess 1 0 5), .arrive (.singleAccess 2 0 3), .depart 1, .depart 2]
      (init ⟨8, .cost, true, true⟩)).any (fun s => Arrival s (.singleAccess 3 0 4) ∧
        tryQueue ⟨8, .cost, true, true⟩ s (.singleAccess 3 0 4) = some (some .indexError)) = true := by
    decide +kernel
  obtain ⟨s, hs, hex⟩ := (Option.any_eq_true _ _).1 hex
  obtain ⟨ha, hq⟩ := of_decide_eq_true hex
  obtain ⟨ch, s₁, hch, herr⟩ := exists_of_tryQueue hq
  obtain ⟨s₂, he⟩ := herr _ rfl
  exact ⟨s, ch, s₁, s₂, run_iff_execute.2 hs, ha, hch, he⟩

end Admission

/-! ### Refusals of inelastic functions -/

section Refusal

variable {s : Allocator} {i : Stage}

/-- A refusal of a variant of one access is a refusal at its stage. -/
theorem Consistent.getCostFit_eq_iff (hs : Consistent cfg s) {d : ℕ} {af : ActiveFunction}
    (haf : af.minDemand = [d]) :
    s.getCostFit cfg [i] af = .ok (-1) ↔
      ¬Accepted cfg.maxOccupancy (s.elasticOffset i) (s.fragmentation i) (s.demandList i) d := by
  rw [getCostFit, haf]
  simp only [sumStages, addDouble, List.getElem?_cons_zero, bind]
  rcases tests_costFitAt (d := d) (hs.demandsAt_eq i) (hs.elastic_fit i) with
    ⟨hacc, cost, hc, heq⟩ | ⟨hnot, heq⟩
  · simp only [heq, Except.bind, Except.ok.injEq, hacc, not_true_eq_false, iff_false]
    have := roundDouble_nonneg (show (0 : ℚ) ≤ 0 + cost by simpa using hc)
    intro h1
    rw [h1] at this
    norm_num at this
  · simp [heq, Except.bind, hnot]

end Refusal

end Allocator

end ActiveRmt
