/-
**Which access gets which demand.**

A function asks for a number of blocks at each of its memory accesses.  A variant says on which stages
the accesses are, but what the allocator keeps of it is the sorted list of its stages, and the demand of
a stage is looked up under the position that the stage has in this list.  As long as the program makes
one pass, the stages ascend with the accesses and positions and accesses are the same.  When accesses
recirculate they are not, and a stage is given the demand of another access.

Main definitions:

* `demandFound` — the demand that is looked up for a stage;
* `blocksHeld` — the blocks that a new function comes to hold at a stage, from the state before;
* `DemandsMet` — every access gets what it asked for.

Main results:

* `countP_lt_of_getElem` — the position of an element of an increasing list;
* `Consistent.length_blocksOf_arrival` — **what a new function holds**;
* `demandsMet_iff` — **exactly when every access gets its demand**;
* `demands_exchanged` — two accesses whose demands are exchanged.
-/

import ActiveRmt.FairShares
import Mathlib.Data.List.Count

set_option relaxedAutoImplicit false
set_option autoImplicit false

namespace ActiveRmt

open Blocks

namespace Allocator

variable {cfg : AllocatorConfig}

/-- **The position of an element of an increasing list** is the number of elements below it. -/
theorem countP_lt_of_getElem {l : List ℕ} (hl : l.Pairwise (· < ·)) {k a : ℕ} (hk : l[k]? = some a) :
    l.countP (· < a) = k := by
  induction l generalizing k with
  | nil => simp at hk
  | cons b l ih =>
      obtain ⟨hb, hl⟩ := List.pairwise_cons.1 hl
      cases k with
      | zero =>
          obtain rfl : b = a := by simpa using hk
          rw [List.countP_eq_zero]
          intro c hc
          rcases List.mem_cons.1 hc with rfl | hc
          · simp
          · have := hb c hc
            simp only [decide_eq_true_eq]
            omega
      | succ k =>
          have hk' : l[k]? = some a := by simpa using hk
          have hba := hb a (List.mem_of_getElem? hk')
          rw [List.countP_cons_of_pos (by simpa using hba), ih hl hk']

/-! ### The offset of a stage without an inelastic arrival -/

/-- The offset of a stage moves only for an inelastic arrival. -/
theorem Sweep.offset_eq {s t : Allocator} {map : Stage → Finset Fid} {new : Stage → List ℕ}
    (hr : Ready cfg s map) (h : Sweep cfg s map stages new t) {i : Stage}
    (hnone : inelasticArrivals (s.demand i) (map i) (s.allocationMatrix i) = []) :
    t.elasticOffset i = s.elasticOffset i := by
  have hdone := h.done i (mem_stages i)
  unfold stageResult at hdone
  split_ifs at hdone with hempty
  · simp only [EStateM.Result.ok.injEq, StageState.mk.injEq] at hdone
    exact hdone.2.2.symm
  · obtain ⟨base, st', hb, -, -, hst⟩ := placeStage_halves (hr.geometry i)
      (fun f hf => (hr.demand_ok i f hf).1) (fun f hf => (hr.demand_ok i f hf).2)
      (hr.tenants_subset i) (hr.arrivals i) (hr.zero_notMem i) hdone
    obtain ⟨-, hoff⟩ := (StageState.mk.injEq _ _ _ _).mp hst
    rw [hoff]
    by_contra hne
    have := (hb.top hne).2
    simp [hnone] at this

/-! ### What a new function holds -/

/-- The demand that the allocator finds for a stage of the variant `v`. -/
def demandFound (v : List Stage) (minDemand : List ℕ) (i : Stage) : ℕ := minDemand.getD (v.idxOf i) 0

/-- **The blocks that a new function comes to hold at a stage**: the demand that is found, or, if this is
one, a fair share of the elastic region. -/
def blocksHeld (cfg : AllocatorConfig) (s : Allocator) (fid : Fid) (d : ℕ) (i : Stage) : ℕ :=
  if d = 1 then
    fairShare (cfg.maxOccupancy - s.elasticOffset i) ((s.elasticTenants i).length + 1)
      ((s.elasticTenants i).countP (· < fid))
  else d

section Arrival

variable {s t t' : Allocator} {af : ActiveFunction} {v : List Stage} {i : Stage}
  {new : Stage → List ℕ}

/-- The demand of the new function at a stage of its variant. -/
theorem Newcomer.demand_register_eq (ha : Newcomer s af) (hv : v ∈ af.getEnumeration) (hi : i ∈ v) :
    (s.register af v).demand i af.fid = demandFound v af.minDemand i := by
  have hn := ha.wellFormed.nodup v hv
  obtain ⟨k, d, hk, hd, hget⟩ := getMinDemand_register_self (s := s) hn
    (ha.wellFormed.length_le v hv) hi
  obtain ⟨hlt, rfl⟩ := List.getElem?_eq_some_iff.1 hk
  rw [demand_eq hget, demandFound, hn.idxOf_getElem k hlt, List.getD_eq_getElem?_getD, hd]
  rfl

/-- The elastic functions after an elastic arrival. -/
theorem Consistent.perm_elasticOf (hs : Consistent cfg s) (ha : Arrival s af) (hi : i ∈ v)
    (h1 : (s.register af v).demand i af.fid = 1) :
    (elasticOf ((s.register af v).demand i) (arrivalMap s.allocationMap af.fid v i)).Perm
      (af.fid :: s.elasticTenants i) := by
  have hnew := hs.newcomer ha
  have hnot : af.fid ∉ s.elasticTenants i := fun hf => hnew.absent i (mem_elasticOf.1 hf).1
  have hnd : (s.elasticTenants i).Nodup := (nodup_ascending _).filter _
  refine (List.perm_ext_iff_of_nodup ((nodup_ascending _).filter _)
    (List.nodup_cons.2 ⟨hnot, hnd⟩)).2 fun f => ?_
  rw [List.mem_cons, elasticTenants, mem_elasticOf, ← elasticOf, mem_elasticOf, arrivalMap,
    if_pos hi, Finset.mem_insert]
  constructor
  · rintro ⟨rfl | hf, hδ⟩
    · exact .inl rfl
    · rw [hnew.demand_register_of_mem hf] at hδ
      exact .inr ⟨hf, hδ⟩
  · rintro (rfl | ⟨hf, hδ⟩)
    · exact ⟨.inl rfl, h1⟩
    · rw [← hnew.demand_register_of_mem (v := v) hf] at hδ
      exact ⟨.inr hf, hδ⟩

/-- **What a new function holds** at a stage of its variant. -/
theorem Consistent.length_blocksOf_arrival (hs : Consistent cfg s) (ha : Arrival s af)
    (hv : v ∈ af.getEnumeration)
    (hsw : Sweep cfg (s.register af v) (arrivalMap s.allocationMap af.fid v) stages new t')
    (hi : i ∈ v) :
    1 ≤ demandFound v af.minDemand i ∧ 1 ≤ (blocksOf (new i) af.fid).length ∧
      (blocksOf (new i) af.fid).length =
        blocksHeld cfg s af.fid (demandFound v af.minDemand i) i := by
  have hnew := hs.newcomer ha
  have hr := hs.ready hnew hv
  have hp := hr.placed (hsw.done i (mem_stages i))
  have hdemand := hnew.demand_register_eq hv hi
  have hone := (hnew.demand_register hv hi).2
  rw [hdemand] at hone
  have hmem : af.fid ∈ tenants (new i) := by
    rw [hp.tenants_eq, arrivalMap, if_pos hi]
    exact Finset.mem_insert_self _ _
  have h0 := (mem_tenants_iff.1 hmem).1
  refine ⟨hone, ?_⟩
  rw [blocksHeld]
  rcases hone.lt_or_eq with hlt | heq
  · -- an inelastic demand is met by a run of its length
    obtain ⟨a, -, how⟩ := hp.inv.pinned af.fid hmem (hdemand.symm ▸ hlt)
    rw [length_blocksOf how h0, hdemand, if_neg hlt.ne']
    exact ⟨hone, rfl⟩
  · -- an elastic one by a fair share
    have h1 : (s.register af v).demand i af.fid = 1 := hdemand.trans heq.symm
    have hfair := hsw.fairRegion hr i
    have hperm := hs.perm_elasticOf ha hi h1
    have hoff : t'.elasticOffset i = s.elasticOffset i := by
      refine hsw.offset_eq hr (List.eq_nil_iff_forall_not_mem.2 fun app happ => ?_)
      obtain ⟨hf, hnot, hd, hδ⟩ := mem_inelasticArrivals.1 happ
      have hfid : app.1 = af.fid := by
        rw [arrivalMap, if_pos hi, Finset.mem_insert] at hf
        refine hf.resolve_right fun hf => hnot ?_
        rw [show (s.register af v).allocationMatrix i = s.allocationMatrix i from rfl, hs.tenants_eq i]
        exact hf
      rw [hδ, hfid, h1] at hd
      exact lt_irrefl 1 hd
    rw [hoff] at hfair
    obtain ⟨k, hk⟩ := List.mem_iff_getElem?.1 (hperm.mem_iff.2 List.mem_cons_self)
    have hne : elasticOf ((s.register af v).demand i) (arrivalMap s.allocationMap af.fid v i) ≠ [] :=
      List.ne_nil_of_mem (List.mem_of_getElem? hk)
    have hpos : k = (s.elasticTenants i).countP (· < af.fid) := by
      have hsorted : (elasticOf ((s.register af v).demand i)
          (arrivalMap s.allocationMap af.fid v i)).Pairwise (· < ·) := pairwise_elasticOf _ _
      rw [← countP_lt_of_getElem hsorted hk, hperm.countP_eq, List.countP_cons_of_neg (by simp)]
    have hshare := hfair.one_le hne
    rw [hperm.length_eq, List.length_cons] at hshare
    rw [length_blocksOf (hfair.runs hk) h0, hperm.length_eq, List.length_cons, hpos, if_pos heq.symm]
    exact ⟨hshare.trans (Nat.le_add_right _ _), rfl⟩

end Arrival

/-! ### Every access -/

/-- The stages of a variant, as the allocator keeps them. -/
def variantStages (x : List ℕ) : List Stage := ascending (x.map stageOf).toFinset

/-- **Every access gets what it asked for**: its stage holds as many blocks at least, and exactly as many
if it asked for more than one. -/
def DemandsMet (t : Allocator) (af : ActiveFunction) (x : List ℕ) : Prop :=
  ∀ (k : ℕ) (i : Stage) (d : ℕ), (x.map stageOf)[k]? = some i → af.minDemand[k]? = some d →
    d ≤ (blocksOf (t.allocationMatrix i) af.fid).length ∧
      (1 < d → (blocksOf (t.allocationMatrix i) af.fid).length = d)

/-- The stages that are chosen for a new function. -/
def chosenStages (cfg : AllocatorConfig) (s : Allocator) (af : ActiveFunction) : Option (List Stage) :=
  match computeAllocation cfg af s with
  | .ok (some ch) _ => some ch.optimal
  | _ => none

section Runs

variable {s t : Allocator} {ops : List Op} {af : ActiveFunction} {x : List ℕ} {v : List Stage}

theorem chosenStages_eq_some (h : chosenStages cfg s af = some v) :
    ∃ ch s₁, computeAllocation cfg af s = .ok (some ch) s₁ ∧ ch.optimal = v := by
  unfold chosenStages at h
  split at h
  · rename_i ch s₁ heq
    exact ⟨ch, s₁, heq, Option.some.inj h⟩
  · exact absurd h (by simp)

/-- **When every access gets its demand**, for every function that is admitted after any run: exactly if
each access that asks for more than one block is on a stage for which the same demand is found, or for
which one is found and the fair share happens to be what was asked for. -/
theorem demandsMet_iff (h : Run (Step cfg) (init cfg) ops s) (hstep : Step cfg s (.arrive af) t)
    (hx : chosenStages cfg s af = some (variantStages x)) :
    DemandsMet t af x ↔
      ∀ (k : ℕ) (i : Stage) (d : ℕ), (x.map stageOf)[k]? = some i → af.minDemand[k]? = some d →
        1 < d → blocksHeld cfg s af.fid (demandFound (variantStages x) af.minDemand i) i = d := by
  have hs := consistent_of_run h
  obtain ⟨ha, b, harr⟩ := hstep
  obtain ⟨ch, s₁, hc, hopt⟩ := chosenStages_eq_some hx
  obtain ⟨hv, new, t', -, hsw, rfl, -⟩ := hs.arrive_of_choice ha hc harr
  rw [hopt] at hsw hv
  have hheld : ∀ {k : ℕ} {i : Stage}, (x.map stageOf)[k]? = some i →
      1 ≤ (blocksOf (new i) af.fid).length ∧ (blocksOf (new i) af.fid).length =
        blocksHeld cfg s af.fid (demandFound (variantStages x) af.minDemand i) i := fun hk =>
    (hs.length_blocksOf_arrival ha hv hsw (mem_ascending.2
      (List.mem_toFinset.2 (List.mem_of_getElem? hk)))).2
  constructor
  · intro hmet k i d hk hd h1
    rw [← (hheld hk).2]
    exact (hmet k i d hk hd).2 h1
  · intro hcond k i d hk hd
    obtain ⟨hpos, hlen⟩ := hheld hk
    change d ≤ (blocksOf (new i) af.fid).length ∧ (1 < d → (blocksOf (new i) af.fid).length = d)
    rcases (ha.demands d (List.mem_of_getElem? hd)).lt_or_eq with h1 | rfl
    · rw [hlen, hcond k i d hk hd h1]
      exact ⟨le_rfl, fun _ => rfl⟩
    · exact ⟨hpos, fun h1 => absurd h1 (lt_irrefl 1)⟩

/-- An access that asks for three of eight blocks gets them. -/
theorem demandsMet_iff_single :
    ∃ t, execute ⟨8, .cost, true, true⟩ [.arrive (.singleAccess 1 0 3)] (init ⟨8, .cost, true, true⟩)
        = some t ∧
      (DemandsMet t (.singleAccess 1 0 3) [0] ↔
        ∀ (k : ℕ) (i : Stage) (d : ℕ), ([0].map stageOf)[k]? = some i → [3][k]? = some d →
          1 < d → blocksHeld ⟨8, .cost, true, true⟩ (init ⟨8, .cost, true, true⟩) 1
            (demandFound (variantStages [0]) [3] i) i = d) := by
  have hex : (execute ⟨8, .cost, true, true⟩ [.arrive (.singleAccess 1 0 3)]
      (init ⟨8, .cost, true, true⟩)).isSome = true := by decide +kernel
  obtain ⟨t, ht⟩ := Option.isSome_iff_exists.1 hex
  exact ⟨t, ht, demandsMet_iff (Run.nil _) (execute_singleton.1 ht) (by decide +kernel)⟩

/-- A program of thirty instructions with two accesses, the second in another pass: two blocks are asked
for at the first and a share at the second. -/
def recirculates : ActiveFunction :=
  { fid := 1
    accessIdx := [15, 21]
    igLim := -1
    progLen := 30
    minDemand := [2, 1]
    allowRecirculations := false
    allocation := none
    enumeration := ActiveFunction.enumerate [15, 21] (-1) 30 false }

/-- **Demands that are exchanged.**  The accesses are on the stages fifteen and eleven.  Eleven comes first
in the sorted list, and is given the two blocks; fifteen is shared. -/
theorem demands_exchanged :
    [15, 21] ∈ recirculates.enumeration ∧
      chosenStages ⟨8, .cost, true, true⟩ (init ⟨8, .cost, true, true⟩) recirculates =
        some (variantStages [15, 21]) ∧
      ∃ t, execute ⟨8, .cost, true, true⟩ [.arrive recirculates] (init ⟨8, .cost, true, true⟩) =
        some t ∧ ¬ DemandsMet t recirculates [15, 21] := by
  have hex : (execute ⟨8, .cost, true, true⟩ [.arrive recirculates]
      (init ⟨8, .cost, true, true⟩)).any (fun t =>
        (blocksOf (t.allocationMatrix 15) 1).length = 8) = true := by decide +kernel
  obtain ⟨t, ht, hlen⟩ := (Option.any_eq_true _ _).1 hex
  refine ⟨by decide +kernel, by decide +kernel, t, ht, fun hmet => ?_⟩
  have htwo : (blocksOf (t.allocationMatrix 15) 1).length = 2 := (hmet 0 15 2 rfl rfl).2 (by decide)
  rw [decide_eq_true_eq, htwo] at hlen
  exact absurd hlen (by decide)

end Runs

end Allocator

end ActiveRmt
