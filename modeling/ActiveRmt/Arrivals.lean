/-
**The arrival of a function: choosing a variant and computing the new columns.**

The allocator keeps the functions of each stage in five redundant structures.
`Allocator.Consistent` says that they agree and that every stage has the geometry of `StageInv`.
This module follows an arrival from a consistent state: the variant chosen by `computeAllocation`,
the new columns of `computeAllocationMatrix`, the remaps of `enqueueAllocation`, and the state in
which the queued columns are applied.

Main definitions:

* `Allocator.demand` — the demand of a function at a stage, as a number;
* `Allocator.Consistent` — **the allocator invariant**;
* `Allocator.Ready` — what `computeAllocationMatrix` relies on;
* `Allocator.remapsFor` — the remaps that the new columns make necessary.

Main results:

* `Allocator.computeAllocation_some`, `Allocator.computeAllocation_none` — what the choice of a
  variant changes;
* `Allocator.computeAllocationMatrix_ok` — every stage of new columns that were computed is placed;
* `Allocator.computeAllocationMatrix_succeeds_iff` — they are computed exactly when every stage can
  be placed: the checks between the stages never fail;
* `Allocator.enqueueAllocation_eq` — queueing succeeds whenever the new columns can be computed;
* `Allocator.Consistent.enqueue` — **what a queued arrival has done**, and that applying it keeps
  the state consistent.
-/

import ActiveRmt.Placement

set_option relaxedAutoImplicit false
set_option autoImplicit false

namespace ActiveRmt

open Blocks

namespace Allocator

variable {cfg : AllocatorConfig}

/-! ### The invariant -/

/-- The demand of a function at a stage, `0` when it has none there. -/
def demand (s : Allocator) (i : Stage) (f : Fid) : ℕ :=
  match s.getMinDemand f i with
  | .ok d => d
  | .error _ => 0

/-- The stages of a function in a map, in order. -/
def stagesOf (map : Stage → Finset Fid) (f : Fid) : List Stage := stages.filter fun i => f ∈ map i

/-- **The structures agree** on the functions that are placed.  Functions that are registered and not
placed do no harm. -/
structure Linked (s : Allocator) : Prop where
  /-- Free memory is not a function. -/
  zero_notMem : ∀ i, 0 ∉ s.allocationMap i
  /-- The map lists the owners of the blocks. -/
  tenants_eq : ∀ i, tenants (s.allocationMatrix i) = s.allocationMap i
  /-- Every function of a stage has a positive demand there. -/
  demand_ok : ∀ i, ∀ f ∈ s.allocationMap i,
    s.getMinDemand f i = .ok (s.demand i f) ∧ 1 ≤ s.demand i f
  /-- The reverse map lists the stages of each function. -/
  rev : ∀ f, s.revAllocationMap.get? f =
    if stagesOf s.allocationMap f = [] then none else some (stagesOf s.allocationMap f)
  /-- The occupied stages are those with a function. -/
  occupied : ∀ i, i ∈ s.allocation ↔ s.allocationMap i ≠ ∅

/-- **The allocator invariant**: the structures agree, and every stage has its geometry. -/
structure Coherent (cfg : AllocatorConfig) (s : Allocator) : Prop extends Linked s where
  /-- Every stage has its geometry. -/
  geometry : ∀ i, StageInv cfg.maxOccupancy (s.demand i) (s.allocationMatrix i)
    (s.elasticOffset i) (s.fragmentation i)

/-- **The invariant of the allocator on its own**: no function is registered and not placed. -/
structure Consistent (cfg : AllocatorConfig) (s : Allocator) : Prop extends Coherent cfg s where
  /-- The active functions are those that are somewhere. -/
  active : ∀ f, f ∈ s.activeFuncs.keys ↔ ∃ i, f ∈ s.allocationMap i

theorem mem_stages (i : Stage) : i ∈ stages := List.mem_finRange i

theorem nodup_stages : stages.Nodup := List.nodup_finRange 20

theorem mem_stagesOf {map : Stage → Finset Fid} {f : Fid} {i : Stage} :
    i ∈ stagesOf map f ↔ f ∈ map i := by
  simp [stagesOf, mem_stages]

/-- A freshly constructed allocator is consistent. -/
theorem consistent_init (cfg : AllocatorConfig) : Consistent cfg (init cfg) where
  zero_notMem := by simp [init]
  tenants_eq := fun i => tenants_eq_empty_iff.2 (owner_replicate _)
  demand_ok := by simp [init]
  rev := fun f => by simp [init, stagesOf]
  active := fun f => by simp [init, Dict.keys, Dict.empty]
  occupied := by simp [init]
  geometry := fun i => stageInv_replicate cfg.maxOccupancy 0 (Nat.zero_le _) _

/-! ### Choosing a variant -/

/-- A better candidate is the new one or the best so far. -/
theorem better_eq (cfg : AllocatorConfig) (best : Option (List Stage × ℚ)) (v : List Stage) (c : ℚ) :
    better cfg best v c = some (v, c) ∨ better cfg best v c = best := by
  cases best with
  | none => exact Or.inl rfl
  | some b =>
      unfold better
      dsimp only
      split_ifs
      · exact Or.inl rfl
      · exact Or.inr rfl

/-- **The variant found was accepted**: it is one of the variants, or the best one so far. -/
theorem search_some {s : Allocator} {af : ActiveFunction} {vs : List (List Stage)}
    {best : Option (List Stage × ℚ)} {v : List Stage} {cost : ℚ}
    (h : s.search cfg af vs best = .ok (some (v, cost))) :
    best = some (v, cost) ∨ (v ∈ vs ∧ s.getCost cfg v af = .ok cost ∧ 0 ≤ cost) := by
  induction vs generalizing best with
  | nil => exact Or.inl (Except.ok.inj h)
  | cons w vs ih =>
      have hlift : ∀ best', s.search cfg af vs best' = .ok (some (v, cost)) →
          best' = some (v, cost) ∨ (v ∈ w :: vs ∧ s.getCost cfg v af = .ok cost ∧ 0 ≤ cost) := by
        intro best' h'
        rcases ih h' with h' | ⟨hv, hc⟩
        · exact Or.inl h'
        · exact Or.inr ⟨List.mem_cons_of_mem _ hv, hc⟩
      rw [search] at h
      cases hw : s.getCost cfg w af with
      | error ex => simp [hw, bind, Except.bind] at h
      | ok c =>
          simp only [hw, bind, Except.bind] at h
          split_ifs at h with hneg hopt
          · exact hlift best h
          · rcases hlift _ h with hb | hb
            · rcases better_eq cfg best w c with heq | heq
              · rw [heq] at hb
                obtain ⟨rfl, rfl⟩ : w = v ∧ c = cost := by simpa using hb
                exact Or.inr ⟨List.mem_cons_self .., hw, not_lt.1 hneg⟩
              · exact Or.inl (heq ▸ hb)
            · exact Or.inr hb
          · obtain ⟨rfl, rfl⟩ : w = v ∧ c = cost := by simpa using h
            exact Or.inr ⟨List.mem_cons_self .., hw, not_lt.1 hneg⟩

/-- The access that a stage of a variant serves is its position. -/
theorem get?_accessMap {v : List Stage} (hn : v.Nodup) {i : Stage} {k : ℕ} :
    (accessMap v).get? i = some k ↔ v[k]? = some i := by
  have hkeys : (v.zipIdx.map Prod.fst).Nodup := by rwa [List.zipIdx_map_fst]
  rw [accessMap, Dict.get?_foldl_set Prod.fst Prod.snd hkeys]
  constructor
  · rintro (⟨p, hp, rfl, rfl⟩ | ⟨-, h⟩)
    · exact List.mk_mem_zipIdx_iff_getElem?.1 hp
    · simp at h
  · intro h
    exact Or.inl ⟨(i, k), List.mk_mem_zipIdx_iff_getElem?.2 h, rfl, rfl⟩

/-- The map after an arrival. -/
def arrivalMap (map : Stage → Finset Fid) (f : Fid) (v : List Stage) : Stage → Finset Fid :=
  fun i => if i ∈ v then insert f (map i) else map i

/-- The state in which the variants of a function are compared. -/
def entered (s : Allocator) (af : ActiveFunction) : Allocator :=
  { s with
    queueFid := some af.fid
    queue := none
    activeFuncs := s.activeFuncs.set af.fid af }

/-- The state in which a function is registered with a variant. -/
def register (s : Allocator) (af : ActiveFunction) (v : List Stage) : Allocator :=
  { s with
    queueFid := some af.fid
    queue := none
    activeFuncs := s.activeFuncs.set af.fid { af with allocation := some (accessMap v) } }

/-- **A chosen variant is an accepted one**, and the function is registered with it. -/
theorem computeAllocation_some {af : ActiveFunction} {s s' : Allocator} {ch : Choice}
    (h : computeAllocation cfg af s = .ok (some ch) s') :
    (s' = s.register af ch.optimal ∧ ch.optimal ∈ af.getEnumeration ∧
      ch.allocation = s.allocation ∪ ch.optimal.toFinset ∧
      ch.allocationMap = arrivalMap s.allocationMap af.fid ch.optimal) ∧
    (s.entered af).getCost cfg ch.optimal af = .ok ch.optCost ∧ 0 ≤ ch.optCost := by
  unfold computeAllocation at h
  dsimp only at h
  split at h
  · simp at h
  · simp at h
  · rename_i v cost hs
    simp only [EStateM.Result.ok.injEq, Option.some.injEq] at h
    obtain ⟨rfl, rfl⟩ := h
    rcases search_some hs with hb | ⟨hv, hcost⟩
    · simp at hb
    · exact ⟨⟨by simp [register, Dict.set_set], hv, rfl, rfl⟩, hcost⟩

/-- **A rejected arrival leaves no trace** but the marker of the arrival in progress. -/
theorem computeAllocation_none {af : ActiveFunction} {s s' : Allocator}
    (hnew : af.fid ∉ s.activeFuncs.keys) (h : computeAllocation cfg af s = .ok none s') :
    s' = { s with queueFid := some af.fid, queue := none } := by
  unfold computeAllocation at h
  dsimp only at h
  split at h
  · simp at h
  · simp only [EStateM.Result.ok.injEq, true_and] at h
    subst h
    rw [Dict.erase_set_of_notMem hnew]
  · simp at h

/-! ### The state in which the new columns are computed -/

theorem getMinDemand_register_of_ne {s : Allocator} {af : ActiveFunction} {v : List Stage}
    {f : Fid} (hf : f ≠ af.fid) (i : Stage) :
    (s.register af v).getMinDemand f i = s.getMinDemand f i := by
  simp only [getMinDemand, register, Dict.get?_set, if_neg hf]

/-- The demand of a new function at a stage of its variant. -/
theorem getMinDemand_register_self {s : Allocator} {af : ActiveFunction} {v : List Stage}
    (hn : v.Nodup) (hlen : v.length ≤ af.minDemand.length) {i : Stage} (hi : i ∈ v) :
    ∃ (k : ℕ) (d : ℕ), v[k]? = some i ∧ af.minDemand[k]? = some d ∧
      (s.register af v).getMinDemand af.fid i = .ok d := by
  obtain ⟨k, hk, hki⟩ := List.getElem_of_mem hi
  have hk' : v[k]? = some i := by rw [List.getElem?_eq_getElem hk, hki]
  have hget := (get?_accessMap hn).2 hk'
  have hd : af.minDemand[k]? = some af.minDemand[k] := List.getElem?_eq_getElem (by omega)
  refine ⟨k, af.minDemand[k], hk', hd, ?_⟩
  simp [getMinDemand, register, hget, hd]

theorem demand_eq {s : Allocator} {f : Fid} {i : Stage} {d : ℕ} (h : s.getMinDemand f i = .ok d) :
    s.demand i f = d := by
  simp [demand, h]

/-- **What the computation of the new columns relies on**: the live columns have their geometry,
and a map that keeps their functions adds at most one function to a stage. -/
structure Ready (cfg : AllocatorConfig) (s : Allocator) (map : Stage → Finset Fid) : Prop where
  /-- The live columns have their geometry. -/
  geometry : ∀ i, StageInv cfg.maxOccupancy (s.demand i) (s.allocationMatrix i)
    (s.elasticOffset i) (s.fragmentation i)
  /-- Every function of the map has a positive demand. -/
  demand_ok : ∀ i, ∀ f ∈ map i, s.getMinDemand f i = .ok (s.demand i f) ∧ 1 ≤ s.demand i f
  /-- Free memory is not a function. -/
  zero_notMem : ∀ i, 0 ∉ map i
  /-- No function is lost. -/
  tenants_subset : ∀ i, tenants (s.allocationMatrix i) ⊆ map i
  /-- At most one function is new. -/
  arrivals : ∀ i, (map i \ tenants (s.allocationMatrix i)).card ≤ 1

/-- A new function, as the allocator accepts it. -/
structure Arrival (s : Allocator) (af : ActiveFunction) : Prop where
  /-- It is as its constructor builds it. -/
  built : ActiveFunction.init af.fid af.accessIdx af.igLim af.progLen af.minDemand
    af.allowRecirculations = .ok af
  /-- Its identifier is not in use. -/
  fresh : af.fid ∉ s.activeFuncs.keys
  /-- Its identifier is positive. -/
  pos : 0 < af.fid
  /-- It demands a block at least. -/
  demands : ∀ d ∈ af.minDemand, 1 ≤ d

instance (s : Allocator) (af : ActiveFunction) : Decidable (Arrival s af) :=
  decidable_of_iff (ActiveFunction.init af.fid af.accessIdx af.igLim af.progLen af.minDemand
      af.allowRecirculations = .ok af ∧ af.fid ∉ s.activeFuncs.keys ∧ 0 < af.fid ∧
      ∀ d ∈ af.minDemand, 1 ≤ d)
    ⟨fun h => ⟨h.1, h.2.1, h.2.2.1, h.2.2.2⟩, fun h => ⟨h.built, h.fresh, h.pos, h.demands⟩⟩

/-- A function that is placed nowhere, as the allocator can place it. -/
structure Newcomer (s : Allocator) (af : ActiveFunction) : Prop where
  /-- It is as its constructor builds it. -/
  built : ActiveFunction.init af.fid af.accessIdx af.igLim af.progLen af.minDemand
    af.allowRecirculations = .ok af
  /-- It is placed nowhere. -/
  absent : ∀ i, af.fid ∉ s.allocationMap i
  /-- Its identifier is positive. -/
  pos : 0 < af.fid
  /-- It demands a block at least. -/
  demands : ∀ d ∈ af.minDemand, 1 ≤ d

section Register

variable {s : Allocator} {af : ActiveFunction} {v : List Stage}

theorem Newcomer.wellFormed (ha : Newcomer s af) : af.WellFormed :=
  (ActiveFunction.init_wellFormed ha.built).1

/-- A function that is new to a consistent allocator is placed nowhere. -/
theorem Consistent.newcomer (hs : Consistent cfg s) (ha : Arrival s af) : Newcomer s af :=
  ⟨ha.built, fun i hi => ha.fresh ((hs.active _).2 ⟨i, hi⟩), ha.pos, ha.demands⟩

/-- A resident function is not the new one. -/
theorem Newcomer.ne_of_mem (ha : Newcomer s af) {i : Stage} {f : Fid}
    (hf : f ∈ s.allocationMap i) : f ≠ af.fid := by
  rintro rfl
  exact ha.absent i hf

theorem Newcomer.demand_register_of_mem (ha : Newcomer s af) {i : Stage} {f : Fid}
    (hf : f ∈ s.allocationMap i) : (s.register af v).demand i f = s.demand i f := by
  rw [demand, getMinDemand_register_of_ne (ha.ne_of_mem hf), demand]

theorem Newcomer.demand_register (ha : Newcomer s af) (hv : v ∈ af.getEnumeration) {i : Stage}
    (hi : i ∈ v) : (s.register af v).getMinDemand af.fid i = .ok ((s.register af v).demand i af.fid) ∧
      1 ≤ (s.register af v).demand i af.fid := by
  obtain ⟨k, d, -, hd, hget⟩ := getMinDemand_register_self (s := s) (ha.wellFormed.nodup v hv)
    (ha.wellFormed.length_le v hv) hi
  rw [demand_eq hget]
  exact ⟨hget, ha.demands d (List.mem_of_getElem? hd)⟩

/-- **A registered arrival is ready to be placed.** -/
theorem Coherent.ready (hs : Coherent cfg s) (ha : Newcomer s af)
    (hv : v ∈ af.getEnumeration) :
    Ready cfg (s.register af v) (arrivalMap s.allocationMap af.fid v) where
  geometry := by
    intro i
    refine (hs.geometry i).congr fun f hf => ?_
    rw [hs.tenants_eq i] at hf
    exact ha.demand_register_of_mem hf
  demand_ok := by
    intro i f hf
    rw [arrivalMap] at hf
    have hold : f ∈ s.allocationMap i →
        (s.register af v).getMinDemand f i = .ok ((s.register af v).demand i f) ∧
          1 ≤ (s.register af v).demand i f := by
      intro hf
      rw [ha.demand_register_of_mem hf, getMinDemand_register_of_ne (ha.ne_of_mem hf)]
      exact hs.demand_ok i f hf
    split_ifs at hf with hi
    · rcases Finset.mem_insert.1 hf with rfl | hf
      · exact ha.demand_register hv hi
      · exact hold hf
    · exact hold hf
  zero_notMem := by
    intro i h0
    rw [arrivalMap] at h0
    split_ifs at h0 with hi
    · rcases Finset.mem_insert.1 h0 with h0 | h0
      · exact absurd h0 ha.pos.ne
      · exact hs.zero_notMem i h0
    · exact hs.zero_notMem i h0
  tenants_subset := by
    intro i
    rw [show (s.register af v).allocationMatrix i = s.allocationMatrix i from rfl, hs.tenants_eq i,
      arrivalMap]
    split_ifs
    · exact Finset.subset_insert _ _
    · exact Finset.Subset.refl _
  arrivals := by
    intro i
    rw [show (s.register af v).allocationMatrix i = s.allocationMatrix i from rfl, hs.tenants_eq i]
    calc (arrivalMap s.allocationMap af.fid v i \ s.allocationMap i).card
        ≤ ({af.fid} : Finset Fid).card := by
          refine Finset.card_le_card fun f hf => ?_
          rw [Finset.mem_sdiff, arrivalMap] at hf
          split_ifs at hf
          · rcases Finset.mem_insert.1 hf.1 with rfl | h'
            · exact Finset.mem_singleton_self _
            · exact absurd h' hf.2
          · exact absurd hf.1 hf.2
      _ = 1 := Finset.card_singleton _

end Register

/-! ### Computing the new columns -/

/-- The new column of a stage, with its offset and holes: a stage without functions is not looked
at. -/
def stageResult (cfg : AllocatorConfig) (s : Allocator) (map : Stage → Finset Fid) (i : Stage) :
    EStateM.Result Exn StageState (List ℕ) :=
  if map i = ∅ then .ok (zeros cfg i) ⟨s.fragmentation i, s.elasticOffset i⟩
  else placeStage (fun fid => s.getMinDemand fid i) (map i) (s.allocationMatrix i)
    ⟨[], s.elasticOffset i⟩

section Columns

variable {s : Allocator} {map : Stage → Finset Fid}

/-- **What the result of a stage is.** -/
theorem Ready.placed (hr : Ready cfg s map) {i : Stage} {col : List ℕ} {st : StageState}
    (h : stageResult cfg s map i = .ok col st) :
    Placed cfg.maxOccupancy (s.demand i) (map i) (s.allocationMatrix i) (s.elasticOffset i) col
      st := by
  unfold stageResult at h
  split_ifs at h with hempty
  · simp only [EStateM.Result.ok.injEq] at h
    obtain ⟨rfl, rfl⟩ := h
    have hnone : tenants (s.allocationMatrix i) = ∅ :=
      Finset.subset_empty.1 (hempty ▸ hr.tenants_subset i)
    have hg := hr.geometry i
    have hsame : s.allocationMatrix i = zeros cfg i := by
      refine ext_owner (by rw [hg.length_eq]; simp [zeros]) fun j => ?_
      rw [tenants_eq_empty_iff.1 hnone j]
      exact (owner_replicate _ j).symm
    refine ⟨hsame ▸ hg, ?_, ?_, le_rfl, fun h => absurd rfl h⟩
    · rw [← hsame, hnone, hempty]
    · intro f hf
      rw [hnone] at hf
      exact absurd hf (Finset.notMem_empty f)
  · exact placeStage_ok (hr.geometry i) (fun f hf => (hr.demand_ok i f hf).1)
      (fun f hf => (hr.demand_ok i f hf).2) (hr.tenants_subset i) (hr.arrivals i)
      (hr.zero_notMem i) h

/-- The columns computed so far, and the state that the computation has reached. -/
structure Sweep (cfg : AllocatorConfig) (s : Allocator) (map : Stage → Finset Fid)
    (ps : List Stage) (new : Stage → List ℕ) (t : Allocator) : Prop where
  /-- Offsets and holes are changed and nothing else. -/
  state : t = { s with elasticOffset := t.elasticOffset, fragmentation := t.fragmentation }
  /-- The stages done have their results. -/
  done : ∀ i ∈ ps, stageResult cfg s map i = .ok (new i) ⟨t.fragmentation i, t.elasticOffset i⟩
  /-- The others are as they were. -/
  todo : ∀ i ∉ ps, new i = zeros cfg i ∧ t.fragmentation i = s.fragmentation i ∧
    t.elasticOffset i = s.elasticOffset i

/-- Writing the result of the next stage. -/
def advance (t : Allocator) (i : Stage) (st : StageState) : Allocator :=
  { t with
    elasticOffset := Function.update t.elasticOffset i st.elasticOffset
    fragmentation := Function.update t.fragmentation i st.fragmentation }

theorem Sweep.snoc {ps : List Stage} {new : Stage → List ℕ} {t : Allocator}
    (h : Sweep cfg s map ps new t) {i : Stage} (hi : i ∉ ps) {col : List ℕ} {st : StageState}
    (hst : stageResult cfg s map i = .ok col st) :
    Sweep cfg s map (ps ++ [i]) (Function.update new i col) (t.advance i st) where
  state := by
    conv_lhs => rw [h.state]
    rfl
  done := by
    intro j hj
    rcases List.mem_append.1 hj with hj | hj
    · have hne : j ≠ i := fun heq => hi (heq ▸ hj)
      simpa [advance, Function.update_of_ne hne] using h.done j hj
    · obtain rfl := List.mem_singleton.1 hj
      simpa [advance] using hst
  todo := by
    intro j hj
    have hne : j ≠ i := fun heq => hj (by simp [heq])
    have hps : j ∉ ps := fun hmem => hj (by simp [hmem])
    simpa [advance, Function.update_of_ne hne] using h.todo j hps

/-- The demands do not change while the columns are computed. -/
theorem Sweep.getMinDemand_eq {ps : List Stage} {new : Stage → List ℕ} {t : Allocator}
    (h : Sweep cfg s map ps new t) : t.getMinDemand = s.getMinDemand := by
  rw [h.state]
  rfl

/-- The live columns do not change while the new ones are computed. -/
theorem Sweep.matrix_eq {ps : List Stage} {new : Stage → List ℕ} {t : Allocator}
    (h : Sweep cfg s map ps new t) : t.allocationMatrix = s.allocationMatrix := by
  rw [h.state]

/-- **No pinned block is lost at a stage that is done.** -/
theorem Sweep.checkPinned_ok (hr : Ready cfg s map) {ps : List Stage} {new : Stage → List ℕ}
    {t : Allocator} (h : Sweep cfg s map ps new t) {j : Stage} (hj : j ∈ ps) (k : ℕ) :
    t.checkPinned new j k = .ok () := by
  unfold checkPinned
  simp only [h.getMinDemand_eq, h.matrix_eq]
  split_ifs with h0
  · rfl
  · have hmem : owner (s.allocationMatrix j) k ∈ tenants (s.allocationMatrix j) :=
      mem_tenants_iff.2 ⟨h0, k, rfl⟩
    have hp := hr.placed (h.done j hj)
    rw [(hr.demand_ok j _ (hr.tenants_subset j hmem)).1]
    dsimp only
    rw [if_neg]
    rintro ⟨hδ, hne⟩
    exact hne ((hp.pinned _ hmem hδ k).2 rfl).symm

/-- **The checks after a stage pass.** -/
theorem Sweep.verifyStage_ok (hr : Ready cfg s map) {ps : List Stage} {i : Stage}
    {new : Stage → List ℕ} {t : Allocator} (h : Sweep cfg s map ps new t)
    (hps : ∀ j ≤ i, j ∈ ps) : t.verifyStage cfg new i (map i) = .ok () := by
  have hpin : t.verifyPinned cfg new (stages.filter (· ≤ i)) = .ok () := by
    refine forM_eq_ok_iff.2 fun k _ => forM_eq_ok_iff.2 fun j hj => ?_
    exact h.checkPinned_ok hr (hps j (by simpa using (List.mem_filter.1 hj).2)) k
  have hp := hr.placed (h.done i (hps i le_rfl))
  unfold verifyStage
  rw [hpin]
  simp only [bind, Except.bind, h.matrix_eq, hp.tenants_eq]
  rw [if_neg (not_not.2 (hr.tenants_subset i)), if_neg (not_not.2 Finset.sdiff_subset)]

/-- The stages before one are those that are smaller. -/
theorem mem_of_stages_eq {ps rest : List Stage} {i : Stage} (h : stages = ps ++ i :: rest)
    {j : Stage} :
    j ∈ ps ↔ j < i := by
  have hsorted : stages.Pairwise (· < ·) := List.pairwise_lt_finRange 20
  rw [h] at hsorted
  obtain ⟨-, hrest, hbefore⟩ := List.pairwise_append.1 hsorted
  constructor
  · intro hj
    exact hbefore j hj i List.mem_cons_self
  · intro hj
    have hmem := mem_stages j
    rw [h] at hmem
    rcases List.mem_append.1 hmem with hmem | hmem
    · exact hmem
    · rcases List.mem_cons.1 hmem with rfl | hmem
      · exact absurd hj (lt_irrefl j)
      · exact absurd hj (lt_asymm ((List.pairwise_cons.1 hrest).1 j hmem))

theorem notMem_of_stages_eq {ps rest : List Stage} {i : Stage} (h : stages = ps ++ i :: rest) :
    i ∉ ps :=
  fun hmem => lt_irrefl i ((mem_of_stages_eq h).1 hmem)

/-- **One stage of the computation.** -/
theorem Sweep.placeAt_eq (hr : Ready cfg s map) {ps rest : List Stage} {i : Stage}
    (hps : stages = ps ++ i :: rest) {new : Stage → List ℕ} {t : Allocator}
    (h : Sweep cfg s map ps new t) {col : List ℕ} {st : StageState}
    (hst : stageResult cfg s map i = .ok col st) :
    placeAt cfg map new i t = .ok (Function.update new i col) (t.advance i st) := by
  have hi := notMem_of_stages_eq hps
  obtain ⟨hnew, hfr, hoff⟩ := h.todo i hi
  have hsweep := h.snoc hi hst
  unfold placeAt
  rw [h.matrix_eq, h.getMinDemand_eq, hoff]
  unfold stageResult at hst
  split_ifs at hst ⊢ with hempty
  · simp only [EStateM.Result.ok.injEq] at hst
    obtain ⟨rfl, rfl⟩ := hst
    rw [← hnew, Function.update_eq_self]
    simp only [advance, ← hfr, ← hoff, Function.update_eq_self]
  · rw [hst]
    -- the stages up to this one are those done
    have hle : ∀ j ≤ i, j ∈ ps ++ [i] := by
      intro j hj
      rcases hj.lt_or_eq with hlt | rfl
      · exact List.mem_append_left _ ((mem_of_stages_eq hps).2 hlt)
      · exact List.mem_append_right _ List.mem_cons_self
    have hver := hsweep.verifyStage_ok hr hle
    simp only [advance, h.matrix_eq] at hver ⊢
    rw [hver]

/-- A stage of the computation that succeeds has a result, and this is what it has written. -/
theorem Sweep.of_placeAt {ps : List Stage} {i : Stage} (hi : i ∉ ps)
    {new new' : Stage → List ℕ} {t t' : Allocator} (h : Sweep cfg s map ps new t)
    (hok : placeAt cfg map new i t = .ok new' t') : Sweep cfg s map (ps ++ [i]) new' t' := by
  obtain ⟨hnew, hfr, hoff⟩ := h.todo i hi
  unfold placeAt at hok
  rw [h.matrix_eq, h.getMinDemand_eq, hoff] at hok
  split_ifs at hok with hempty
  · obtain ⟨rfl, rfl⟩ := EStateM.Result.ok.inj hok
    have hst : stageResult cfg s map i = .ok (zeros cfg i) ⟨s.fragmentation i, s.elasticOffset i⟩ := by
      rw [stageResult, if_pos hempty]
    have hsnoc := h.snoc hi hst
    rwa [← hnew, Function.update_eq_self, advance, ← hfr, ← hoff, Function.update_eq_self,
      Function.update_eq_self] at hsnoc
  · split at hok
    · cases hok
    · rename_i col st hst
      dsimp only at hok
      split at hok
      · cases hok
      · obtain ⟨rfl, rfl⟩ := EStateM.Result.ok.inj hok
        have hres : stageResult cfg s map i = .ok col st := by
          rw [stageResult, if_neg hempty, hst]
        have hsnoc := h.snoc hi hres
        rwa [advance, h.matrix_eq] at hsnoc

/-- Before the first stage. -/
theorem sweep_nil : Sweep cfg s map [] (zeros cfg) s :=
  ⟨rfl, by simp, fun _ _ => ⟨rfl, rfl, rfl⟩⟩

/-- **New columns that were computed are placed at every stage.** -/
theorem computeAllocationMatrix_ok {new : Stage → List ℕ} {t : Allocator}
    (h : computeAllocationMatrix cfg map s = .ok new t) : Sweep cfg s map stages new t := by
  unfold computeAllocationMatrix at h
  simp only [bind, EStateM.bind] at h
  cases hf : stages.foldlM (placeAt cfg map) (zeros cfg) s with
  | error ex t' => simp [hf] at h
  | ok new' t' =>
      rw [hf] at h
      dsimp only at h
      split_ifs at h with hall
      · exact absurd h (by simp [throw, throwThe, MonadExceptOf.throw, EStateM.throw, EStateM.bind])
      obtain ⟨rfl, rfl⟩ : new' = new ∧ t' = t := by simpa [pure, EStateM.pure] using h
      refine foldlM_ok (Sweep cfg s map) ?_ stages [] (zeros cfg) s new' t' rfl sweep_nil hf
      intro ps i rest hps new₀ t₀ new₁ t₁ hsweep hok
      exact hsweep.of_placeAt (notMem_of_stages_eq hps) hok

/-- **New columns are computed exactly when every stage has a result**, as long as there is a
function to place. -/
theorem computeAllocationMatrix_succeeds_iff (hr : Ready cfg s map) (hne : ∃ i, map i ≠ ∅) :
    (∃ new t, computeAllocationMatrix cfg map s = .ok new t) ↔
      ∀ i, ∃ col st, stageResult cfg s map i = .ok col st := by
  constructor
  · rintro ⟨new, t, h⟩ i
    exact ⟨_, _, (computeAllocationMatrix_ok h).done i (mem_stages i)⟩
  · intro h
    obtain ⟨new, t, hf, -⟩ := foldlM_total (f := placeAt cfg map) (l := stages) (Sweep cfg s map) (by
      intro ps i rest hps new₀ t₀ hsweep
      obtain ⟨col, st, hst⟩ := h i
      exact ⟨_, _, hsweep.placeAt_eq hr hps hst, hsweep.snoc (notMem_of_stages_eq hps) hst⟩)
      stages [] (zeros cfg) s rfl sweep_nil
    refine ⟨new, t, ?_⟩
    unfold computeAllocationMatrix
    simp only [bind, EStateM.bind, hf]
    rw [if_neg]
    · rfl
    · obtain ⟨i, hi⟩ := hne
      rw [List.all_eq_true]
      intro hall
      exact hi (by simpa using hall i (mem_stages i))

end Columns

/-! ### Remaps -/

/-- The remaps that the new columns make necessary. -/
def remapsFor (s : Allocator) (new : Stage → List ℕ) : Remaps :=
  (s.computeChanges new).items.foldl (fun d p => d.set p.1 (s.remapsOf new p.1 p.2)) Dict.empty

section Remaps

variable {s : Allocator} {new : Stage → List ℕ}

theorem mem_affectedStages {f : Fid} {i : Stage} :
    i ∈ s.affectedStages new f ↔ s.isElastic f i = true ∧
      ∃ k ∈ blocksOf (s.allocationMatrix i) f, owner (new i) k ≠ f := by
  simp [affectedStages, mem_stages]

/-- The functions that change are entered one after the other. -/
theorem computeChanges_eq_foldl (s : Allocator) (new : Stage → List ℕ) : s.computeChanges new =
    (s.elasticApps.filter fun f => s.affectedStages new f ≠ []).foldl
      (fun d f => d.set f ((s.affectedStages new f).map fun i => (i, i, true))) Dict.empty := by
  rw [List.foldl_filter, computeChanges]
  congr 1
  funext d f
  by_cases hnil : s.affectedStages new f = [] <;> simp [hnil]

/-- The functions that change, and the stages at which they do. -/
theorem get?_computeChanges {f : Fid} {l : List (Stage × Stage × Bool)} :
    (s.computeChanges new).get? f = some l ↔ f ∈ s.elasticApps ∧ s.affectedStages new f ≠ [] ∧
      l = (s.affectedStages new f).map fun i => (i, i, true) := by
  have hnodup : (s.elasticApps.filter fun f => s.affectedStages new f ≠ []).Nodup :=
    (List.nodup_reverse.2 (List.nodup_dedup _)).filter _
  have hget := Dict.get?_foldl_set (d := Dict.empty) (x := f) (y := l) (fun g => g)
    (fun g => (s.affectedStages new g).map fun i => (i, i, true)) (by rwa [List.map_id'])
  rw [computeChanges_eq_foldl, hget]
  simp only [List.mem_filter, decide_eq_true_eq, Dict.get?_empty, reduceCtorEq, and_false,
    or_false]
  constructor
  · rintro ⟨g, ⟨hg, hne⟩, rfl, rfl⟩
    exact ⟨hg, hne, rfl⟩
  · rintro ⟨hf, hne, rfl⟩
    exact ⟨f, ⟨hf, hne⟩, rfl, rfl⟩

/-- **The remaps of a function**: its old and new blocks at each stage where it loses one. -/
theorem get?_remapsFor {f : Fid} {l : List Remap} :
    (s.remapsFor new).get? f = some l ↔ f ∈ s.elasticApps ∧ s.affectedStages new f ≠ [] ∧
      l = (s.affectedStages new f).map fun i =>
        ⟨i, blocksOf (s.allocationMatrix i) f, i, blocksOf (new i) f⟩ := by
  have hall : s.remapsOf new f ((s.affectedStages new f).map fun i => (i, i, true)) =
      (s.affectedStages new f).map fun i =>
        ⟨i, blocksOf (s.allocationMatrix i) f, i, blocksOf (new i) f⟩ := by
    rw [remapsOf, List.map_map]
    refine List.filter_eq_self.2 fun r hr => ?_
    obtain ⟨i, hi, rfl⟩ := List.mem_map.1 hr
    obtain ⟨-, k, hk, hne⟩ := mem_affectedStages.1 hi
    -- a block that is lost is listed before and not after
    have hlost : blocksOf (s.allocationMatrix i) f ≠ blocksOf (new i) f := by
      intro heq
      rw [heq] at hk
      exact hne (mem_blocksOf.1 hk).2
    simp [hlost]
  rw [remapsFor, Dict.get?_foldl_set Prod.fst _ (s.computeChanges new).nodup]
  simp only [Dict.get?_empty, reduceCtorEq, and_false, or_false]
  constructor
  · rintro ⟨⟨g, c⟩, hp, rfl, rfl⟩
    obtain ⟨hf, hne, rfl⟩ := get?_computeChanges.1 ((Dict.mem_items_iff _ _ _).1 hp)
    exact ⟨hf, hne, hall⟩
  · rintro ⟨hf, hne, rfl⟩
    exact ⟨(f, _), (Dict.mem_items_iff _ _ _).2 (get?_computeChanges.2 ⟨hf, hne, rfl⟩), rfl, hall⟩

/-- An elastic function with a block is found. -/
theorem mem_elasticApps {f : Fid} :
    f ∈ s.elasticApps ↔ ∃ i, f ∈ tenants (s.allocationMatrix i) ∧ s.isElastic f i = true := by
  simp only [elasticApps, List.mem_reverse, List.mem_dedup, List.mem_flatMap, List.mem_filter,
    mem_stages, true_and, tenants, Finset.mem_erase, List.mem_toFinset, decide_eq_true_eq]
  constructor
  · rintro ⟨i, hmem, hpos, hel⟩
    exact ⟨i, ⟨hpos.ne', hmem⟩, hel⟩
  · rintro ⟨i, ⟨hne, hmem⟩, hel⟩
    exact ⟨i, hmem, Nat.pos_of_ne_zero hne, hel⟩

end Remaps

/-- The stages that the reverse map lists for a function. -/
theorem get?_reverseMap (map : Stage → Finset Fid) (f : Fid) :
    (reverseMap map).get? f = if stagesOf map f = [] then none else some (stagesOf map f) := by
  have hinner : ∀ (i : Stage) (l : List Fid) (d : Dict Fid (List Stage)), l.Nodup →
      (l.foldl (fun d fid => d.set fid ((d.get? fid).getD [] ++ [i])) d).get? f =
        if f ∈ l then some ((d.get? f).getD [] ++ [i]) else d.get? f := by
    intro i l
    induction l with
    | nil => simp
    | cons g l ih =>
        intro d hn
        rw [List.nodup_cons] at hn
        rw [List.foldl_cons, ih _ hn.2, Dict.get?_set]
        by_cases hg : f = g
        · subst hg
          simp [hn.1]
        · simp [hg]
  have houter : ∀ (l : List Stage) (ps : List Stage) (d : Dict Fid (List Stage)),
      (d.get? f = if ps.filter (fun i => f ∈ map i) = [] then none
        else some (ps.filter fun i => f ∈ map i)) →
      (l.foldl (fun d i => (ascending (map i)).foldl
        (fun d fid => d.set fid ((d.get? fid).getD [] ++ [i])) d) d).get? f =
        if (ps ++ l).filter (fun i => f ∈ map i) = [] then none
        else some ((ps ++ l).filter fun i => f ∈ map i) := by
    intro l
    induction l with
    | nil =>
        intro ps d hd
        simpa using hd
    | cons i l ih =>
        intro ps d hd
        rw [List.foldl_cons, show ps ++ i :: l = (ps ++ [i]) ++ l by simp]
        refine ih (ps ++ [i]) _ ?_
        rw [hinner i _ d (nodup_ascending _), hd, List.filter_append]
        by_cases hi : f ∈ map i
        · by_cases hps : ps.filter (fun i => f ∈ map i) = [] <;> simp [hi, hps]
        · simp [hi]
  have := houter stages [] Dict.empty (by simp)
  rw [List.nil_append] at this
  exact this

/-! ### Queueing -/

section Queue

variable {s t : Allocator} {map : Stage → Finset Fid} {new : Stage → List ℕ}

/-- **Queueing succeeds whenever the new columns can be computed.** -/
theorem enqueueAllocation_eq (hr : Ready cfg s map) (al : Finset Stage)
    (h : computeAllocationMatrix cfg map s = .ok new t) :
    enqueueAllocation cfg al map s =
      .ok (s.computeChanges new, s.remapsFor new, s.elasticApps.length)
        { t with queue := some ⟨al, map, reverseMap map, new⟩ } := by
  have hsw := computeAllocationMatrix_ok h
  have hpin : t.verifyPinned cfg new stages = .ok () :=
    forM_eq_ok_iff.2 fun k _ => forM_eq_ok_iff.2 fun j hj => hsw.checkPinned_ok hr hj k
  have hdem : t.verifyDemands new = .ok () := by
    refine forM_eq_ok_iff.2 fun i hi => forM_eq_ok_iff.2 fun x hx => ?_
    split_ifs with h0
    · rfl
    · have hp := hr.placed (hsw.done i hi)
      have hmem : x ∈ tenants (new i) := by
        rw [tenants, Finset.mem_erase, List.mem_toFinset]
        exact ⟨h0, hx⟩
      rw [hp.tenants_eq] at hmem
      rw [hsw.getMinDemand_eq, (hr.demand_ok i x hmem).1]
      rfl
  have hchanges : t.computeChanges new = s.computeChanges new := by rw [hsw.state]; rfl
  have hremaps : ((s.computeChanges new).items.foldl
      (fun d p => d.set p.1 (t.remapsOf new p.1 p.2)) Dict.empty) = s.remapsFor new := by
    rw [hsw.state]; rfl
  have happs : t.elasticApps = s.elasticApps := by rw [hsw.state]; rfl
  have helastic : t.isElastic = s.isElastic := by rw [hsw.state]; rfl
  -- only elastic functions are remapped
  have hany : ((s.remapsFor new).items.any fun p => p.2.any fun r =>
      r.fromStage = r.toStage ∧ ¬s.isElastic p.1 r.fromStage) = false := by
    rw [List.any_eq_false]
    rintro ⟨f, l⟩ hp hbad
    obtain ⟨-, -, rfl⟩ := get?_remapsFor.1 ((Dict.mem_items_iff _ _ _).1 hp)
    obtain ⟨r, hr', hne⟩ := List.any_eq_true.1 hbad
    obtain ⟨i, hi, rfl⟩ := List.mem_map.1 hr'
    have := (mem_affectedStages.1 hi).1
    simp [this] at hne
  unfold enqueueAllocation
  rw [h]
  simp only [hpin, hdem, hchanges, hremaps, happs, helastic]
  rw [if_neg (by simpa using hany)]

theorem enqueueAllocation_error {al : Finset Stage} {ex : Exn}
    (h : computeAllocationMatrix cfg map s = .error ex t) :
    enqueueAllocation cfg al map s = .error ex t := by
  unfold enqueueAllocation
  rw [h]

/-- The state in which a plan has become the live allocation. -/
def applied (s : Allocator) (plan : Plan) : Allocator :=
  { s with
    allocation := plan.allocation
    allocationMap := plan.allocationMap
    revAllocationMap := plan.revAllocationMap
    allocationMatrix := plan.allocationMatrix
    queueFid := none
    queue := none }

/-- The state after applying the new columns is coherent. -/
theorem Ready.coherent (hr : Ready cfg s map) (hsw : Sweep cfg s map stages new t)
    {al : Finset Stage} (hal : ∀ i, i ∈ al ↔ map i ≠ ∅) :
    Coherent cfg (t.applied ⟨al, map, reverseMap map, new⟩) := by
  have hfun : t.activeFuncs = s.activeFuncs := by rw [hsw.state]
  have hdemand : ∀ i f, (t.applied ⟨al, map, reverseMap map, new⟩).getMinDemand f i
      = s.getMinDemand f i := by
    intro i f
    simp only [getMinDemand, applied, hfun]
  have hdemand' : (t.applied ⟨al, map, reverseMap map, new⟩).demand = s.demand := by
    funext i f
    rw [demand, hdemand, demand]
  refine ⟨⟨hr.zero_notMem, ?_, ?_, ?_, hal⟩, ?_⟩
  · intro i
    exact (hr.placed (hsw.done i (mem_stages i))).tenants_eq
  · intro i f hf
    rw [hdemand, hdemand']
    exact hr.demand_ok i f hf
  · exact get?_reverseMap map
  · intro i
    rw [hdemand']
    exact (hr.placed (hsw.done i (mem_stages i))).inv

/-- What a queued arrival has done, from any state that is ready for it. -/
theorem Ready.enqueue {af : ActiveFunction} {v : List Stage}
    (hr : Ready cfg (s.register af v) (arrivalMap s.allocationMap af.fid v))
    (hocc : ∀ i, i ∈ s.allocation ↔ s.allocationMap i ≠ ∅)
    {r : Dict Fid (List (Stage × Stage × Bool)) × Remaps × ℕ} {s₂ : Allocator}
    (he : enqueueAllocation cfg (s.allocation ∪ v.toFinset) (arrivalMap s.allocationMap af.fid v)
      (s.register af v) = .ok r s₂) :
    ∃ new t, Sweep cfg (s.register af v) (arrivalMap s.allocationMap af.fid v) stages new t ∧
      r.2.1 = (s.register af v).remapsFor new ∧
      s₂ = { t with queue := some ⟨s.allocation ∪ v.toFinset, arrivalMap s.allocationMap af.fid v,
        reverseMap (arrivalMap s.allocationMap af.fid v), new⟩ } ∧
      Coherent cfg (s₂.applied ⟨s.allocation ∪ v.toFinset, arrivalMap s.allocationMap af.fid v,
        reverseMap (arrivalMap s.allocationMap af.fid v), new⟩) := by
  cases hm : computeAllocationMatrix cfg (arrivalMap s.allocationMap af.fid v) (s.register af v) with
  | error ex t =>
      rw [enqueueAllocation_error hm] at he
      simp at he
  | ok new t =>
      rw [enqueueAllocation_eq hr _ hm] at he
      simp only [EStateM.Result.ok.injEq] at he
      obtain ⟨rfl, rfl⟩ := he
      have hsw := computeAllocationMatrix_ok hm
      refine ⟨new, t, hsw, rfl, rfl, hr.coherent hsw ?_⟩
      intro i
      rw [arrivalMap, Finset.mem_union, List.mem_toFinset, hocc i]
      by_cases hi : i ∈ v <;> simp [hi]

/-- **What a chosen and queued arrival has done**: the live columns are untouched, the new ones
are placed at every stage, and applying them gives a coherent state. -/
theorem Coherent.enqueue (hs : Coherent cfg s) {af : ActiveFunction} (ha : Newcomer s af)
    {ch : Choice} {s₁ s₂ : Allocator} (hc : computeAllocation cfg af s = .ok (some ch) s₁)
    {r : Dict Fid (List (Stage × Stage × Bool)) × Remaps × ℕ}
    (he : enqueueAllocation cfg ch.allocation ch.allocationMap s₁ = .ok r s₂) :
    ∃ new t, Sweep cfg (s.register af ch.optimal) ch.allocationMap stages new t ∧
      r.2.1 = (s.register af ch.optimal).remapsFor new ∧
      s₂ = { t with queue := some ⟨ch.allocation, ch.allocationMap,
        reverseMap ch.allocationMap, new⟩ } ∧
      Coherent cfg (s₂.applied ⟨ch.allocation, ch.allocationMap,
        reverseMap ch.allocationMap, new⟩) := by
  obtain ⟨⟨rfl, hv, hal, hmap⟩, -⟩ := computeAllocation_some hc
  rw [hal, hmap] at he ⊢
  exact (hs.ready ha hv).enqueue hs.occupied he

/-- The functions of an arrival's map are the old ones and the arrival. -/
theorem exists_mem_arrivalMap {af : ActiveFunction} (ha : Newcomer s af) {v : List Stage}
    (hv : v ∈ af.getEnumeration) {f : Fid} :
    (∃ i, f ∈ arrivalMap s.allocationMap af.fid v i) ↔ f = af.fid ∨ ∃ i, f ∈ s.allocationMap i := by
  constructor
  · rintro ⟨i, hi⟩
    rw [arrivalMap] at hi
    split_ifs at hi
    · rcases Finset.mem_insert.1 hi with rfl | hi
      · exact Or.inl rfl
      · exact Or.inr ⟨i, hi⟩
    · exact Or.inr ⟨i, hi⟩
  · rintro (rfl | ⟨i, hi⟩)
    · obtain ⟨i, hi⟩ := List.exists_mem_of_ne_nil _ (ha.wellFormed.ne_nil _ hv)
      exact ⟨i, by simp [arrivalMap, hi]⟩
    · refine ⟨i, ?_⟩
      rw [arrivalMap]
      split_ifs
      · exact Finset.mem_insert_of_mem hi
      · exact hi

/-- The active functions after an arrival are those that are somewhere. -/
theorem Sweep.active {af : ActiveFunction} {v : List Stage} (ha : Newcomer s af)
    (hv : v ∈ af.getEnumeration) (hactive : ∀ f, f ∈ s.activeFuncs.keys ↔ ∃ i, f ∈ s.allocationMap i)
    (hsw : Sweep cfg (s.register af v) map stages new t) (f : Fid) :
    f ∈ t.activeFuncs.keys ↔ ∃ i, f ∈ arrivalMap s.allocationMap af.fid v i := by
  have hfun : t.activeFuncs = (s.register af v).activeFuncs := by rw [hsw.state]
  have hkeys : f ∈ (s.register af v).activeFuncs.keys ↔ f = af.fid ∨ f ∈ s.activeFuncs.keys :=
    Dict.mem_keys_set ..
  rw [hfun, hkeys, hactive f, exists_mem_arrivalMap ha hv]

/-- An arrival at a consistent allocator keeps it consistent. -/
theorem Consistent.enqueue (hs : Consistent cfg s) {af : ActiveFunction} (ha : Arrival s af)
    {ch : Choice} {s₁ s₂ : Allocator} (hc : computeAllocation cfg af s = .ok (some ch) s₁)
    {r : Dict Fid (List (Stage × Stage × Bool)) × Remaps × ℕ}
    (he : enqueueAllocation cfg ch.allocation ch.allocationMap s₁ = .ok r s₂) :
    ∃ new t, Sweep cfg (s.register af ch.optimal) ch.allocationMap stages new t ∧
      r.2.1 = (s.register af ch.optimal).remapsFor new ∧
      s₂ = { t with queue := some ⟨ch.allocation, ch.allocationMap,
        reverseMap ch.allocationMap, new⟩ } ∧
      Consistent cfg (s₂.applied ⟨ch.allocation, ch.allocationMap,
        reverseMap ch.allocationMap, new⟩) := by
  obtain ⟨new, t, hsw, hrem, rfl, hcoh⟩ := hs.toCoherent.enqueue (hs.newcomer ha) hc he
  obtain ⟨⟨rfl, hv, -, hmap⟩, -⟩ := computeAllocation_some hc
  refine ⟨new, t, hsw, hrem, rfl, hcoh, fun f => ?_⟩
  have hactive := hsw.active (hs.newcomer ha) hv hs.active f
  rw [← hmap] at hactive
  exact hactive

end Queue

end Allocator

end ActiveRmt
