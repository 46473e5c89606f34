/-
**Which functions are told to move.**

Queueing an arrival compares the live columns with the new ones.  A function is reported at a stage if it
loses a block there.  That is not the same as having other blocks: after a departure a share may grow
and keep all the blocks it had, and then nobody is told.  The shares after the arrival are known from the
state before it, so that the arrivals whose report is complete can be told from that state.

Main definitions:

* `nextTenants`, `nextOffset` — the elastic functions and the offset of a stage after an arrival, from
  the state before it;
* `nextBlocks` — the blocks of an elastic function after the arrival;
* `RemapsExact` — the report lists the functions whose blocks change, with their blocks;
* `NoSilentGain` — no function keeps all its blocks and gains some.

Main results:

* `Sweep.offset_next`, `Sweep.blocksOf_next` — **the new offsets and shares**;
* `reported_iff` — who is reported;
* `remapsExact_iff` — **exactly when the report is complete**;
* `remaps_silent` — a function that gains blocks and is not told.
-/

import ActiveRmt.AccessDemands

set_option relaxedAutoImplicit false
set_option autoImplicit false

namespace ActiveRmt

open Blocks

namespace Allocator

variable {cfg : AllocatorConfig}

/-! ### The stage after an arrival -/

/-- The elastic functions of a stage after the arrival of `af` with the variant `v`. -/
def nextTenants (s : Allocator) (af : ActiveFunction) (v : List Stage) (i : Stage) : List Fid :=
  elasticOf ((s.register af v).demand i) (arrivalMap s.allocationMap af.fid v i)

/-- **The offset of a stage after an arrival**: an inelastic function that finds no hole is placed at the
offset. -/
def nextOffset (s : Allocator) (af : ActiveFunction) (v : List Stage) (i : Stage) : ℕ :=
  if i ∈ v ∧ 1 < demandFound v af.minDemand i ∧
      bestHole (demandFound v af.minDemand i)
        (holesBelow (s.elasticOffset i) (s.allocationMatrix i)) = none then
    s.elasticOffset i + demandFound v af.minDemand i
  else s.elasticOffset i

/-- **The blocks of the `k`-th elastic function of a stage after an arrival.** -/
def nextBlocks (cfg : AllocatorConfig) (s : Allocator) (af : ActiveFunction) (v : List Stage)
    (i : Stage) (k : ℕ) : List ℕ :=
  let e := s.nextOffset af v i
  let n := (s.nextTenants af v i).length
  List.range' (e + fairStart (cfg.maxOccupancy - e) n k) (fairShare (cfg.maxOccupancy - e) n k)

section Arrival

variable {s t : Allocator} {af : ActiveFunction} {v : List Stage} {i : Stage}
  {new : Stage → List ℕ}

/-- The inelastic arrivals of a stage: the new function or nobody. -/
theorem Newcomer.inelasticArrivals_eq (ha : Newcomer s af) (hs : Linked s)
    (hv : v ∈ af.getEnumeration) (i : Stage) :
    inelasticArrivals ((s.register af v).demand i) (arrivalMap s.allocationMap af.fid v i)
        (s.allocationMatrix i) =
      if i ∈ v ∧ 1 < demandFound v af.minDemand i then
        [(af.fid, demandFound v af.minDemand i)] else [] := by
  have hnot : af.fid ∉ tenants (s.allocationMatrix i) := by
    rw [hs.tenants_eq i]
    exact ha.absent i
  have hmem : ∀ f, f ∈ arrivalMap s.allocationMap af.fid v i → f ∉ tenants (s.allocationMatrix i) →
      i ∈ v ∧ f = af.fid := by
    intro f hf hft
    rw [hs.tenants_eq i] at hft
    rw [arrivalMap] at hf
    split_ifs at hf with hi
    · exact ⟨hi, (Finset.mem_insert.1 hf).resolve_right hft⟩
    · exact absurd hf hft
  split_ifs with h
  · have hdemand := ha.demand_register_eq hv h.1
    have hlist : (ascending (arrivalMap s.allocationMap af.fid v i)).filter
        (fun f => f ∉ tenants (s.allocationMatrix i) ∧ 1 < (s.register af v).demand i f) =
          [af.fid] := by
      refine List.perm_singleton.1 ((List.perm_ext_iff_of_nodup ((nodup_ascending _).filter _)
        (List.nodup_singleton _)).2 fun f => ?_)
      rw [List.mem_filter, mem_ascending, List.mem_singleton, decide_eq_true_eq]
      constructor
      · rintro ⟨hf, hft, -⟩
        exact (hmem f hf hft).2
      · rintro rfl
        refine ⟨?_, hnot, hdemand.symm ▸ h.2⟩
        rw [arrivalMap, if_pos h.1]
        exact Finset.mem_insert_self _ _
    rw [inelasticArrivals, hlist, List.map_singleton, hdemand]
  · refine List.eq_nil_iff_forall_not_mem.2 fun app happ => h ?_
    obtain ⟨hf, hft, hd, hδ⟩ := mem_inelasticArrivals.1 happ
    obtain ⟨hi, hfid⟩ := hmem app.1 hf hft
    rw [hδ, hfid, ha.demand_register_eq hv hi] at hd
    exact ⟨hi, hd⟩

/-- Where the offset is after an inelastic arrival, if there is one. -/
theorem placeInelastic_offset {f d : ℕ} (hd : 1 < d) {col base : List ℕ} {holes : List Fragment}
    {e : ℕ} {st : StageState} (h : placeInelastic [(f, d)] col ⟨holes, e⟩ = .ok base st) :
    st.elasticOffset = if bestHole d holes = none then e + d else e := by
  simp only [placeInelastic, if_neg (Nat.not_le.2 hd)] at h
  cases hb : bestHole d holes with
  | none =>
      simp only [hb] at h
      split_ifs at h
      simp only [EStateM.Result.ok.injEq] at h
      rw [← h.2, if_pos rfl]
  | some p =>
      simp only [hb] at h
      split_ifs at h <;>
      · simp only [EStateM.Result.ok.injEq] at h
        rw [← h.2, if_neg (by simp)]

/-- **The new offset of a stage.** -/
theorem Sweep.offset_next (hs : Coherent cfg s) (ha : Newcomer s af) (hv : v ∈ af.getEnumeration)
    (h : Sweep cfg (s.register af v) (arrivalMap s.allocationMap af.fid v) stages new t) (i : Stage) :
    t.elasticOffset i = s.nextOffset af v i := by
  have hr := hs.ready ha hv
  have harr := ha.inelasticArrivals_eq hs.toLinked hv i
  by_cases hin : i ∈ v ∧ 1 < demandFound v af.minDemand i
  · have hdone := h.done i (mem_stages i)
    have hne : arrivalMap s.allocationMap af.fid v i ≠ ∅ := by
      rw [arrivalMap, if_pos hin.1]
      exact Finset.insert_ne_empty _ _
    rw [stageResult, if_neg hne, placeStage_eq (hr.geometry i) (fun f hf => (hr.demand_ok i f hf).1)
      (fun f hf => (hr.demand_ok i f hf).2) (hr.tenants_subset i) (hr.arrivals i)] at hdone
    rw [show (s.register af v).allocationMatrix i = s.allocationMatrix i from rfl, harr,
      if_pos hin] at hdone
    split_ifs at hdone
    cases hp : placeInelastic [(af.fid, demandFound v af.minDemand i)]
        (copyBelow ((s.register af v).elasticOffset i) (s.allocationMatrix i))
        ⟨holesBelow ((s.register af v).elasticOffset i) (s.allocationMatrix i),
          (s.register af v).elasticOffset i⟩ with
    | error ex st => simp [hp] at hdone
    | ok base st =>
        have hoff : st.elasticOffset = if bestHole (demandFound v af.minDemand i)
            (holesBelow (s.elasticOffset i) (s.allocationMatrix i)) = none then
              s.elasticOffset i + demandFound v af.minDemand i else s.elasticOffset i :=
          placeInelastic_offset hin.2 hp
        rw [hp] at hdone
        dsimp only at hdone
        split at hdone
        · simp at hdone
        · simp only [EStateM.Result.ok.injEq, StageState.mk.injEq] at hdone
          rw [← hdone.2.2, hoff, nextOffset]
          exact if_congr ⟨fun hb => ⟨hin.1, hin.2, hb⟩, fun hb => hb.2.2⟩ rfl rfl
  · rw [nextOffset, if_neg fun h => hin ⟨h.1, h.2.1⟩]
    exact h.offset_eq hr (harr.trans (if_neg hin))

/-- **The new blocks of an elastic function.** -/
theorem Sweep.blocksOf_next (hs : Coherent cfg s) (ha : Newcomer s af) (hv : v ∈ af.getEnumeration)
    (h : Sweep cfg (s.register af v) (arrivalMap s.allocationMap af.fid v) stages new t) {k : ℕ}
    {f : Fid} (hk : (s.nextTenants af v i)[k]? = some f) :
    blocksOf (new i) f = nextBlocks cfg s af v i k := by
  have hr := hs.ready ha hv
  have hfair := h.fairRegion hr i
  rw [h.offset_next hs ha hv] at hfair
  have hf0 : f ≠ 0 := fun h0 =>
    hr.zero_notMem i (h0 ▸ (mem_elasticOf.1 (List.mem_of_getElem? hk)).1)
  exact (hfair.runs hk).blocksOf_eq hf0

/-- A resident elastic function is among the elastic functions after the arrival. -/
theorem Newcomer.mem_nextTenants (ha : Newcomer s af) {f : Fid} (hf : f ∈ s.elasticTenants i) :
    f ∈ s.nextTenants af v i := by
  obtain ⟨hmem, hδ⟩ := mem_elasticOf.1 hf
  refine mem_elasticOf.2 ⟨?_, by rw [ha.demand_register_of_mem hmem, hδ]⟩
  rw [arrivalMap]
  split_ifs
  · exact Finset.mem_insert_of_mem hmem
  · exact hmem

end Arrival

/-! ### Reports -/

/-- A function is reported at a stage. -/
def Reported (remaps : Remaps) (f : Fid) (i : Stage) : Prop :=
  ∃ l, remaps.get? f = some l ∧ ∃ rm ∈ l, rm.fromStage = i

/-- **The report lists the functions whose blocks change**, with their blocks before and after. -/
structure RemapsExact (s : Allocator) (new : Stage → List ℕ) (remaps : Remaps) : Prop where
  /-- The residents whose blocks differ are reported, and nobody else is. -/
  complete : ∀ f i, Reported remaps f i ↔
    f ∈ s.allocationMap i ∧ blocksOf (s.allocationMatrix i) f ≠ blocksOf (new i) f
  /-- A report has the blocks before and after, in increasing order. -/
  blocks : ∀ f l, remaps.get? f = some l → ∀ rm ∈ l, rm.toStage = rm.fromStage ∧
    rm.prevAlloc = blocksOf (s.allocationMatrix rm.fromStage) f ∧
    rm.newAlloc = blocksOf (new rm.fromStage) f ∧
    rm.prevAlloc.Pairwise (· < ·) ∧ rm.newAlloc.Pairwise (· < ·)
  /-- Only elastic functions are reported. -/
  elastic : ∀ f i, Reported remaps f i → s.getMinDemand f i = .ok 1

/-- **No function gains blocks and keeps all it had.** -/
def NoSilentGain (cfg : AllocatorConfig) (s : Allocator) (af : ActiveFunction) (v : List Stage) : Prop :=
  ∀ (i : Stage) (k : ℕ) (f : Fid), f ∈ s.elasticTenants i → (s.nextTenants af v i)[k]? = some f →
    blocksOf (s.allocationMatrix i) f ⊆ nextBlocks cfg s af v i k →
      blocksOf (s.allocationMatrix i) f = nextBlocks cfg s af v i k

theorem pairwise_blocksOf (col : List ℕ) (f : ℕ) : (blocksOf col f).Pairwise (· < ·) :=
  List.pairwise_lt_range.filter _

/-- Who is reported. -/
theorem reported_iff {s : Allocator} {new : Stage → List ℕ} {f : Fid} {i : Stage} :
    Reported (s.remapsFor new) f i ↔ f ∈ s.elasticApps ∧ i ∈ s.affectedStages new f := by
  constructor
  · rintro ⟨l, hl, rm, hrm, rfl⟩
    obtain ⟨hf, -, rfl⟩ := get?_remapsFor.1 hl
    obtain ⟨j, hj, rfl⟩ := List.mem_map.1 hrm
    exact ⟨hf, hj⟩
  · rintro ⟨hf, hi⟩
    exact ⟨_, get?_remapsFor.2 ⟨hf, List.ne_nil_of_mem hi, rfl⟩, _, List.mem_map_of_mem hi, rfl⟩

/-- An affected function is a resident elastic one that loses a block. -/
theorem Consistent.affected_iff {s : Allocator} {af : ActiveFunction} {v : List Stage}
    {new : Stage → List ℕ} (hs : Consistent cfg s) (ha : Arrival s af) {f : Fid} {i : Stage} :
    (f ∈ (s.register af v).elasticApps ∧ i ∈ (s.register af v).affectedStages new f) ↔
      f ∈ s.elasticTenants i ∧ ∃ k ∈ blocksOf (s.allocationMatrix i) f, owner (new i) k ≠ f := by
  have hnew := hs.newcomer ha
  rw [mem_affectedStages]
  constructor
  · rintro ⟨happ, hel, k, hk, hne⟩
    obtain ⟨j, hj, -⟩ := mem_elasticApps.1 happ
    have hk' : k ∈ blocksOf (s.allocationMatrix i) f := hk
    have hft : f ∈ s.allocationMap i := by
      rw [← hs.tenants_eq i]
      exact mem_tenants_iff.2 ⟨(mem_tenants_iff.1 hj).1, k, (mem_blocksOf.1 hk').2⟩
    refine ⟨mem_elasticOf.2 ⟨hft, ?_⟩, k, hk', hne⟩
    rw [isElastic, getMinDemand_register_of_ne (hnew.ne_of_mem hft), (hs.demand_ok i f hft).1] at hel
    simpa using hel
  · rintro ⟨hf, k, hk, hne⟩
    obtain ⟨hft, hδ⟩ := mem_elasticOf.1 hf
    have hel : (s.register af v).isElastic f i = true := by
      rw [isElastic, getMinDemand_register_of_ne (hnew.ne_of_mem hft), (hs.demand_ok i f hft).1, hδ]
      rfl
    refine ⟨mem_elasticApps.2 ⟨i, ?_, hel⟩, hel, k, hk, hne⟩
    rw [show (s.register af v).allocationMatrix i = s.allocationMatrix i from rfl, hs.tenants_eq i]
    exact hft

/-- What the queueing of a new function leaves: the report and the plan. -/
def enqueued (cfg : AllocatorConfig) (s : Allocator) (af : ActiveFunction) : Option (Remaps × Plan) :=
  match computeAllocation cfg af s with
  | .ok (some ch) s₁ =>
      match enqueueAllocation cfg ch.allocation ch.allocationMap s₁ with
      | .ok r s₂ => s₂.queue.map fun plan => (r.2.1, plan)
      | .error _ _ => none
  | _ => none

section Reports

variable {s t : Allocator} {af : ActiveFunction} {v : List Stage} {new : Stage → List ℕ}
  {remaps : Remaps} {plan : Plan} {ops : List Op}

theorem exists_of_enqueued (h : enqueued cfg s af = some (remaps, plan)) :
    ∃ ch s₁ r s₂, computeAllocation cfg af s = .ok (some ch) s₁ ∧
      enqueueAllocation cfg ch.allocation ch.allocationMap s₁ = .ok r s₂ ∧ r.2.1 = remaps ∧
      s₂.queue = some plan := by
  unfold enqueued at h
  split at h
  · rename_i ch s₁ hc
    split at h
    · rename_i r s₂ he
      obtain ⟨plan', hq, heq⟩ := Option.map_eq_some_iff.1 h
      obtain ⟨rfl, rfl⟩ := Prod.mk.inj heq
      exact ⟨ch, s₁, r, s₂, hc, he, rfl, hq⟩
    · exact absurd h (by simp)
  · exact absurd h (by simp)

theorem Consistent.of_enqueued (hs : Consistent cfg s) (ha : Arrival s af)
    (hv : chosenStages cfg s af = some v) (h : enqueued cfg s af = some (remaps, plan)) :
    v ∈ af.getEnumeration ∧ ∃ t, Sweep cfg (s.register af v)
        (arrivalMap s.allocationMap af.fid v) stages plan.allocationMatrix t ∧
      remaps = (s.register af v).remapsFor plan.allocationMatrix := by
  obtain ⟨ch, s₁, hc, rfl⟩ := chosenStages_eq_some hv
  obtain ⟨ch', s₁', r, s₂, hc', he, rfl, hq⟩ := exists_of_enqueued h
  obtain ⟨hch, rfl⟩ := (EStateM.Result.ok.injEq _ _ _ _).mp (hc.symm.trans hc')
  obtain rfl := Option.some.inj hch
  obtain ⟨new, t, hsw, hrem, rfl, -⟩ := hs.enqueue ha hc he
  obtain ⟨⟨-, hmem, -, hmap⟩, -⟩ := computeAllocation_some hc
  obtain rfl := Option.some.inj hq
  rw [hmap] at hsw
  exact ⟨hmem, t, hsw, hrem⟩

/-- **When the report is complete.**  After any run of arrivals and departures, the report of an arrival
lists the residents whose blocks change, with their blocks, exactly if no elastic function keeps all
its blocks and gains some. -/
theorem remapsExact_iff (h : Run (Step cfg) (init cfg) ops s) (ha : Arrival s af)
    (hv : chosenStages cfg s af = some v) (he : enqueued cfg s af = some (remaps, plan)) :
    RemapsExact s plan.allocationMatrix remaps ↔ NoSilentGain cfg s af v := by
  have hs := consistent_of_run h
  have hnew := hs.newcomer ha
  obtain ⟨hmem, t, hsw, rfl⟩ := hs.of_enqueued ha hv he
  have hr := hs.ready hnew hmem
  have hrep : ∀ f i, Reported ((s.register af v).remapsFor plan.allocationMatrix) f i ↔
      f ∈ s.elasticTenants i ∧ ∃ k ∈ blocksOf (s.allocationMatrix i) f,
        owner (plan.allocationMatrix i) k ≠ f := fun f i => reported_iff.trans (hs.affected_iff ha)
  have hblocks : ∀ {f i k}, f ∈ s.elasticTenants i → (s.nextTenants af v i)[k]? = some f →
      blocksOf (plan.allocationMatrix i) f = nextBlocks cfg s af v i k := fun _ hk =>
    hsw.blocksOf_next hs.toCoherent hnew hmem hk
  have hlen : ∀ i, (s.allocationMatrix i).length = (plan.allocationMatrix i).length := fun i =>
    (hs.geometry i).length_eq.trans (hr.placed (hsw.done i (mem_stages i))).inv.length_eq.symm
  constructor
  · intro hexact i k f hf hk hsub
    by_contra hne
    rw [← hblocks hf hk] at hsub hne
    obtain ⟨-, b, hb, hlost⟩ := (hrep f i).1
      ((hexact.complete f i).2 ⟨(mem_elasticOf.1 hf).1, hne⟩)
    exact hlost (mem_blocksOf.1 (hsub hb)).2
  · intro hgain
    refine ⟨fun f i => ?_, fun f l hl rm hrm => ?_, fun f i hfi => ?_⟩
    · rw [hrep]
      constructor
      · rintro ⟨hf, k, hk, hlost⟩
        refine ⟨(mem_elasticOf.1 hf).1, fun heq => hlost ?_⟩
        rw [heq] at hk
        exact (mem_blocksOf.1 hk).2
      · rintro ⟨hft, hne⟩
        have hone : f ∈ s.elasticTenants i := by
          -- an inelastic function keeps its blocks
          rcases (hs.demand_ok i f hft).2.lt_or_eq with hlt | heq
          · refine absurd ?_ hne
            have hpin := (hr.placed (hsw.done i (mem_stages i))).pinned f
              (by rw [show (s.register af v).allocationMatrix i = s.allocationMatrix i from rfl,
                hs.tenants_eq i]; exact hft) (by rwa [hnew.demand_register_of_mem hft])
            rw [blocksOf, blocksOf, hlen i]
            exact List.filter_congr fun j _ => decide_eq_decide.2 (hpin j).symm
          · exact mem_elasticOf.2 ⟨hft, heq.symm⟩
        refine ⟨hone, ?_⟩
        obtain ⟨k, hk⟩ := List.mem_iff_getElem?.1 (hnew.mem_nextTenants (v := v) hone)
        by_contra hkeep
        refine hne ((hgain i k f hone hk fun b hb => ?_).trans (hblocks hone hk).symm)
        rw [← hblocks hone hk]
        refine mem_blocksOf.2 ⟨hlen i ▸ (mem_blocksOf.1 hb).1, ?_⟩
        by_contra hlost
        exact hkeep ⟨b, hb, hlost⟩
    · obtain ⟨-, -, rfl⟩ := get?_remapsFor.1 hl
      obtain ⟨j, -, rfl⟩ := List.mem_map.1 hrm
      exact ⟨rfl, rfl, rfl, pairwise_blocksOf _ _, pairwise_blocksOf _ _⟩
    · obtain ⟨hft, hδ⟩ := mem_elasticOf.1 ((hrep f i).1 hfi).1
      rw [(hs.demand_ok i f hft).1, hδ]

/-- A third function arrives at a stage that two share: both are told. -/
theorem remapsExact_iff_third :
    ∃ s plan remaps, execute ⟨8, .cost, true, true⟩
        [.arrive (.singleAccess 1 0 1), .arrive (.singleAccess 2 0 1)] (init ⟨8, .cost, true, true⟩) =
          some s ∧
      enqueued ⟨8, .cost, true, true⟩ s (.singleAccess 3 0 1) = some (remaps, plan) ∧
      (RemapsExact s plan.allocationMatrix remaps ↔
        NoSilentGain ⟨8, .cost, true, true⟩ s (.singleAccess 3 0 1) [0]) := by
  have hex : (execute ⟨8, .cost, true, true⟩
      [.arrive (.singleAccess 1 0 1), .arrive (.singleAccess 2 0 1)]
      (init ⟨8, .cost, true, true⟩)).any (fun s => Arrival s (.singleAccess 3 0 1) ∧
        chosenStages ⟨8, .cost, true, true⟩ s (.singleAccess 3 0 1) = some [0] ∧
        (enqueued ⟨8, .cost, true, true⟩ s (.singleAccess 3 0 1)).isSome) = true := by
    decide +kernel
  obtain ⟨s, hs, hex⟩ := (Option.any_eq_true _ _).1 hex
  obtain ⟨ha, hv, he⟩ := of_decide_eq_true hex
  obtain ⟨⟨remaps, plan⟩, he⟩ := Option.isSome_iff_exists.1 he
  exact ⟨s, plan, remaps, hs, he, remapsExact_iff (run_iff_execute.2 hs) ha hv he⟩

/-- **A gain that is not reported.**  Two functions share a stage and the second departs.  When another
function arrives at another stage, the first is given the whole stage, and the report is empty. -/
theorem remaps_silent :
    ∃ s plan, execute ⟨8, .cost, true, true⟩
        [.arrive (.singleAccess 1 0 1), .arrive (.singleAccess 2 0 1), .depart 2]
        (init ⟨8, .cost, true, true⟩) = some s ∧ Arrival s (.singleAccess 3 1 1) ∧
      enqueued ⟨8, .cost, true, true⟩ s (.singleAccess 3 1 1) = some (Dict.empty, plan) ∧
      blocksOf (s.allocationMatrix 0) 1 = [0, 1, 2, 3] ∧
      blocksOf (plan.allocationMatrix 0) 1 = [0, 1, 2, 3, 4, 5, 6, 7] ∧
      ¬ RemapsExact s plan.allocationMatrix Dict.empty := by
  have hex : (execute ⟨8, .cost, true, true⟩
      [.arrive (.singleAccess 1 0 1), .arrive (.singleAccess 2 0 1), .depart 2]
      (init ⟨8, .cost, true, true⟩)).any (fun s => Arrival s (.singleAccess 3 1 1) ∧
        blocksOf (s.allocationMatrix 0) 1 = [0, 1, 2, 3] ∧ 1 ∈ s.allocationMap 0 ∧
        (enqueued ⟨8, .cost, true, true⟩ s (.singleAccess 3 1 1)).any (fun p =>
          p.1 = Dict.empty ∧ blocksOf (p.2.allocationMatrix 0) 1 = [0, 1, 2, 3, 4, 5, 6, 7])) =
            true := by
    decide +kernel
  obtain ⟨s, hs, hex⟩ := (Option.any_eq_true _ _).1 hex
  obtain ⟨ha, hold, hmem, he⟩ := of_decide_eq_true hex
  obtain ⟨⟨remaps, plan⟩, he, hp⟩ := (Option.any_eq_true _ _).1 he
  obtain ⟨rfl, hblocks⟩ := of_decide_eq_true hp
  refine ⟨s, plan, hs, ha, he, hold, hblocks, fun hexact => ?_⟩
  obtain ⟨l, hl, -⟩ := (hexact.complete 1 0).2 ⟨hmem, by rw [hold, hblocks]; decide⟩
  rw [Dict.get?_empty] at hl
  exact absurd hl (by simp)

end Reports

end Allocator

end ActiveRmt
