/-
**Leaked capacity.**

The offset of a stage bounds the blocks that elastic functions may use.  It is raised when an
inelastic function is placed above it and lowered when one right below it departs, but only by the
blocks of that function: a hole that an earlier departure left below these blocks is then right
below the offset, where neither the scan nor the elastic functions use it.  `reset` forgets the
functions and does not touch the offsets.  This module says exactly which steps leak, and that
without them an allocator whose functions have all departed is as good as a new one.

Main definitions:

* `Allocator.Command`, `Allocator.CommandStep` — operations and resets;
* `Allocator.Topped` — the block below the offset belongs to an inelastic function;
* `Allocator.LeaksNothing` — the condition on a step;
* `Allocator.Alike` — two states that behave alike: they differ in holes that no test looks at;
* `Allocator.outcomes` — the answers of the allocator to a sequence of operations.

Main results:

* `Allocator.Alike.outcomes_eq` — states that are alike give the same answers;
* `Allocator.no_leak` — **along a run whose steps leak nothing no capacity is lost**, and an
  allocator without functions answers like a new one; the condition is exact at every step.
-/

import ActiveRmt.AllocatorRuns

set_option relaxedAutoImplicit false
set_option autoImplicit false

namespace ActiveRmt

open Blocks

namespace Allocator

variable {cfg : AllocatorConfig}

/-! ### The block below the offset -/

/-- The operations of the allocator, and its reset. -/
inductive Command
  /-- An arrival or a departure. -/
  | op (o : Op)
  /-- A reset. -/
  | reset
  deriving DecidableEq

/-- One command that raises no exception. -/
def CommandStep (cfg : AllocatorConfig) (s : Allocator) (c : Command) (t : Allocator) : Prop :=
  match c with
  | .op o => Step cfg s o t
  | .reset => t = s.reset cfg

/-- **No capacity is leaked**: every offset is zero or right above a block of an inelastic
function. -/
def Topped (s : Allocator) : Prop :=
  ∀ i, s.elasticOffset i = 0 ∨
    (owner (s.allocationMatrix i) (s.elasticOffset i - 1) ≠ 0 ∧
      1 < s.demand i (owner (s.allocationMatrix i) (s.elasticOffset i - 1)))

/-- The departure of `f` leaks nothing at a stage: when `f` is inelastic there and its blocks end at
the offset, the block below them is occupied or there is none. -/
def LeaksNothingAt (s : Allocator) (f : Fid) (i : Stage) : Prop :=
  f ∈ s.allocationMap i → s.demand i f ≠ 1 →
    endOf (s.allocationMatrix i) f = s.elasticOffset i →
    s.elasticOffset i - (blocksOf (s.allocationMatrix i) f).length = 0 ∨
      owner (s.allocationMatrix i)
        (s.elasticOffset i - (blocksOf (s.allocationMatrix i) f).length - 1) ≠ 0

instance (s : Allocator) (f : Fid) (i : Stage) : Decidable (LeaksNothingAt s f i) :=
  inferInstanceAs (Decidable (f ∈ s.allocationMap i → s.demand i f ≠ 1 →
    endOf (s.allocationMatrix i) f = s.elasticOffset i →
    s.elasticOffset i - (blocksOf (s.allocationMatrix i) f).length = 0 ∨
      owner (s.allocationMatrix i)
        (s.elasticOffset i - (blocksOf (s.allocationMatrix i) f).length - 1) ≠ 0))

/-- **The condition under which a step leaks nothing.**  An inelastic function whose blocks end at
the offset departs only when the block below its own is occupied or there is none; a reset happens
only when all offsets are zero. -/
def LeaksNothing (s : Allocator) : Command → Prop
  | .op (.arrive _) => True
  | .op (.depart f) => ∀ i, LeaksNothingAt s f i
  | .reset => ∀ i, s.elasticOffset i = 0

section Top

variable {s t : Allocator}

theorem Consistent.reset (hs : Consistent cfg s) : Consistent cfg (s.reset cfg) where
  zero_notMem := by simp [Allocator.reset]
  tenants_eq := fun i => tenants_eq_empty_iff.2 (owner_replicate _)
  demand_ok := by simp [Allocator.reset]
  rev := fun f => by simp [Allocator.reset, stagesOf]
  active := fun f => by simp [Allocator.reset, Dict.keys, Dict.empty]
  occupied := by simp [Allocator.reset]
  geometry := by
    intro i
    obtain ⟨hlen, hle, hpos, hpin, hel, -⟩ :=
      stageInv_replicate cfg.maxOccupancy (s.elasticOffset i) (hs.geometry i).offset_le
        ((s.reset cfg).demand i)
    refine ⟨hlen, hle, hpos, hpin, hel, fun fr hfr h0 => ⟨((hs.geometry i).hole fr hfr h0).1, ?_⟩⟩
    exact fun j _ _ => owner_replicate _ j

theorem Consistent.commandStep (hs : Consistent cfg s) {c : Command}
    (h : CommandStep cfg s c t) : Consistent cfg t := by
  cases c with
  | op o => exact hs.step h
  | reset => exact h ▸ hs.reset

/-- The block below the offset of a stage with its geometry: it is enough that it is occupied. -/
theorem Consistent.topped_iff (hs : Consistent cfg s) :
    Topped s ↔ ∀ i, s.elasticOffset i = 0 ∨
      owner (s.allocationMatrix i) (s.elasticOffset i - 1) ≠ 0 := by
  refine forall_congr' fun i => or_congr_right' fun h0 => ⟨And.left, fun hne => ⟨hne, ?_⟩⟩
  exact (hs.geometry i).one_lt_of_lt (by omega) hne

/-- An arrival keeps a block below every offset. -/
theorem Consistent.topped_arrive (hs : Consistent cfg s) (htop : Topped s) {af : ActiveFunction}
    (h : Step cfg s (.arrive af) t) : Topped t := by
  have ht := hs.step h
  obtain ⟨ha, b, h⟩ := h
  rcases hs.arrive_ok ha h with ⟨-, rfl⟩ | ⟨v, hv, new, t', -, hsw, rfl, hcon⟩
  · exact htop
  rw [ht.topped_iff]
  intro i
  have hr := hs.ready (hs.newcomer ha) hv
  have hp := hr.placed (hsw.done i (mem_stages i))
  by_cases hsame : t'.elasticOffset i = s.elasticOffset i
  · -- the offset has not moved, and the function below it is pinned
    rcases htop i with h0 | ⟨hne, hδ⟩
    · exact Or.inl (hsame.trans h0)
    · right
      have hmem : owner (s.allocationMatrix i) (s.elasticOffset i - 1) ∈
          tenants (s.allocationMatrix i) := mem_tenants_iff.2 ⟨hne, _, rfl⟩
      have hown := (hp.pinned _ hmem (by
        rw [(hs.newcomer ha).demand_register_of_mem (hs.tenants_eq i ▸ hmem)]
        exact hδ) (s.elasticOffset i - 1)).2 rfl
      have hnew : owner (new i) (t'.elasticOffset i - 1) ≠ 0 := by
        rw [hsame]
        rw [show owner (new i) (s.elasticOffset i - 1) = _ from hown]
        exact hne
      exact hnew
  · exact Or.inr (hp.top hsame).2

/-- **A departure leaves a block below every offset exactly when it leaks nothing.** -/
theorem Consistent.topped_depart_iff (hs : Consistent cfg s) (htop : Topped s) {f : Fid}
    (h : Step cfg s (.depart f) t) : Topped t ↔ LeaksNothing s (.op (.depart f)) := by
  have ht := hs.step h
  obtain ⟨-, b, h⟩ := h
  by_cases hf : f ∈ s.activeFuncs.keys
  swap
  · rw [perform, deallocate_of_notMem hf] at h
    simp only [EStateM.Result.ok.injEq] at h
    obtain ⟨-, rfl⟩ := h
    refine iff_of_true htop fun i hi => ?_
    exact absurd ((hs.active f).2 ⟨i, hi⟩) hf
  rw [perform, hs.deallocate_eq ((hs.active f).1 hf)] at h
  simp only [EStateM.Result.ok.injEq] at h
  obtain ⟨-, rfl⟩ := h
  have hf0 := hs.ne_zero ((hs.active f).1 hf)
  rw [ht.topped_iff]
  refine forall_congr' fun i => ?_
  rw [elasticOffset_departed, hs.allocationMatrix_departed hf0, LeaksNothingAt]
  by_cases hi : f ∈ s.allocationMap i
  swap
  · simp only [hi, if_false, false_imp_iff, iff_true]
    rcases htop i with h0 | ⟨hne, -⟩
    · exact Or.inl h0
    · right
      rw [owner_release, if_neg]
      · exact hne
      · intro heq
        rw [← hs.tenants_eq i] at hi
        exact hi (mem_tenants_iff.2 ⟨hf0, _, heq⟩)
  simp only [hi, if_true, true_imp_iff]
  have hten : f ∈ tenants (s.allocationMatrix i) := by rw [hs.tenants_eq i]; exact hi
  obtain ⟨a, l, hl, how⟩ := (hs.geometry i).exists_owns hten
  have hend := endOf_eq how hf0 hl
  have hlen := length_blocksOf how hf0
  by_cases hcase : s.demand i f ≠ 1 ∧ endOf (s.allocationMatrix i) f = s.elasticOffset i
  · -- the offset is lowered to the first block of the function
    rw [leftOffset, if_pos hcase]
    simp only [hcase.1, hcase.2, ne_eq, not_false_eq_true, true_imp_iff, hlen]
    rw [hend] at hcase
    have hfirst : s.elasticOffset i - l = a := by omega
    rw [hfirst]
    rcases Nat.eq_zero_or_pos a with h0 | hpos
    · simp [h0]
    · have hnot : owner (s.allocationMatrix i) (a - 1) ≠ f := by
        intro heq
        have := (how _).1 heq
        omega
      rw [owner_release, if_neg hnot]
  · -- the offset stays, and the block below it is not one of those given back
    rw [leftOffset, if_neg hcase]
    refine iff_of_true ?_ fun h1 h2 => absurd ⟨h1, h2⟩ hcase
    rcases htop i with h0 | ⟨hne, hδ⟩
    · exact Or.inl h0
    · right
      rw [owner_release, if_neg]
      · exact hne
      · intro heq
        rw [heq] at hδ
        obtain ⟨b, hbe, hob⟩ := (hs.geometry i).pinned f hten hδ
        obtain ⟨rfl, rfl⟩ := how.unique hob hl
        have := (hob _).1 heq
        have hend' : endOf (s.allocationMatrix i) f = s.elasticOffset i := by omega
        exact hcase ⟨by omega, hend'⟩

/-- A reset leaves a block below every offset exactly when all offsets are zero. -/
theorem Consistent.topped_reset_iff (hs : Consistent cfg s) :
    Topped (s.reset cfg) ↔ LeaksNothing s .reset := by
  rw [hs.reset.topped_iff]
  refine forall_congr' fun i => ?_
  have hzero : owner ((s.reset cfg).allocationMatrix i) ((s.reset cfg).elasticOffset i - 1) = 0 :=
    owner_replicate _ _
  simp only [hzero, ne_eq, not_true_eq_false, or_false]
  rfl

/-- **Exactly the steps that leak nothing keep a block below every offset.** -/
theorem Consistent.topped_step_iff (hs : Consistent cfg s) (htop : Topped s) {c : Command}
    (h : CommandStep cfg s c t) : Topped t ↔ LeaksNothing s c := by
  cases c with
  | op o =>
      cases o with
      | arrive af => exact iff_of_true (hs.topped_arrive htop h) trivial
      | depart f => exact hs.topped_depart_iff htop h
  | reset =>
      obtain rfl : t = s.reset cfg := h
      exact hs.topped_reset_iff

end Top

/-! ### States that behave alike -/

/-- Recorded holes that no test and no placement looks at: none has a block. -/
def Hollow (cfg : AllocatorConfig) (e : ℕ) (frags frags' : List Fragment) : Prop :=
  e ≤ cfg.maxOccupancy ∧ (∀ fr ∈ frags, fr.size ≤ 0) ∧ ∀ fr ∈ frags', fr.size ≤ 0

/-- Two states that differ in the recorded holes, and in the markers of an arrival, only. -/
def SameButHoles (s t : Allocator) : Prop :=
  t = { s with fragmentation := t.fragmentation, queueFid := t.queueFid, queue := t.queue }

/-- **Two states that behave alike**: they differ in the holes of stages without functions only,
and these holes are hollow. -/
structure Alike (cfg : AllocatorConfig) (s t : Allocator) : Prop where
  /-- The states differ in holes only. -/
  same : SameButHoles s t
  /-- The holes differ at stages without functions only. -/
  holes : ∀ i, t.fragmentation i = s.fragmentation i ∨
    (s.allocationMap i = ∅ ∧ Hollow cfg (s.elasticOffset i) (s.fragmentation i) (t.fragmentation i))

section Alike

variable {s t : Allocator}

theorem Alike.refl (s : Allocator) : Alike cfg s s := ⟨rfl, fun _ => Or.inl rfl⟩

/-- A hollow first hole is not taken. -/
theorem Hollow.not_lt {e : ℕ} {frags frags' : List Fragment} (h : Hollow cfg e frags frags')
    {fr : Fragment} (hfr : frags.head? = some fr) : ¬fr.size > (cfg.maxOccupancy : ℤ) - e := by
  have := h.2.1 fr (List.mem_of_mem_head? hfr)
  have := h.1
  omega

theorem Hollow.symm {e : ℕ} {frags frags' : List Fragment} (h : Hollow cfg e frags frags') :
    Hollow cfg e frags' frags := ⟨h.1, h.2.2, h.2.1⟩

/-- A choice between the first hole and the elastic region falls on the region. -/
theorem Hollow.match_eq {α : Type} {e : ℕ} {frags frags' : List Fragment}
    (h : Hollow cfg e frags frags') (x : Fragment → α) (y : α) :
    (match frags.head? with
      | some fr => if fr.size > (cfg.maxOccupancy : ℤ) - e then x fr else y
      | none => y) = y := by
  cases hhd : frags.head? with
  | none => rfl
  | some fr => simp only [if_neg (h.not_lt hhd)]

theorem Alike.costFitAt_eq (h : Alike cfg s t) (i : Stage) (d : ℕ) :
    t.costFitAt cfg i d = s.costFitAt cfg i d := by
  have hdem : t.demandsAt i = s.demandsAt i := by rw [h.same]; rfl
  have hoff : t.elasticOffset i = s.elasticOffset i := by rw [h.same]
  unfold costFitAt
  rw [hdem, hoff]
  rcases h.holes i with heq | ⟨-, hhol⟩
  · rw [heq]
  · congr 1
    funext ds
    refine ite_congr rfl (fun _ => rfl) fun _ => ite_congr rfl (fun _ => rfl) fun _ => ?_
    exact (hhol.symm.match_eq _ _).trans (hhol.match_eq _ _).symm

theorem Alike.costMovingAt_eq (h : Alike cfg s t) (i : Stage) (d : ℕ) :
    t.costMovingAt cfg i d = s.costMovingAt cfg i d := by
  have hdem : t.demandsAt i = s.demandsAt i := by rw [h.same]; rfl
  have hoff : t.elasticOffset i = s.elasticOffset i := by rw [h.same]
  unfold costMovingAt
  rw [hdem, hoff]
  rcases h.holes i with heq | ⟨-, hhol⟩
  · rw [heq]
  · congr 1
    funext ds
    refine ite_congr rfl (fun _ => rfl) fun _ => ite_congr rfl (fun _ => rfl) fun _ => ?_
    exact (hhol.symm.match_eq _ _).trans (hhol.match_eq _ _).symm

theorem Alike.utilityLoop_eq (h : Alike cfg s t) (minDemand : List ℕ) (v : List Stage) (k : ℕ)
    (b : ℤ) (m : ℕ) :
    utilityLoop cfg t minDemand v k b m = utilityLoop cfg s minDemand v k b m := by
  have hdem : t.demandsAt = s.demandsAt := by rw [h.same]; rfl
  induction v generalizing k b m with
  | nil => rfl
  | cons i v ih => simp only [utilityLoop, hdem, ih]

/-- **States that are alike give every variant the same cost.** -/
theorem Alike.getCost_eq (h : Alike cfg s t) (v : List Stage) (af : ActiveFunction) :
    t.getCost cfg v af = s.getCost cfg v af := by
  have hfit : t.costFitAt cfg = s.costFitAt cfg := by
    funext i d
    exact h.costFitAt_eq i d
  have hmoving : t.costMovingAt cfg = s.costMovingAt cfg := by
    funext i d
    exact h.costMovingAt_eq i d
  unfold getCost
  cases cfg.metric with
  | cost => simp only [getCostFit, hfit]
  | realloc => simp only [getCostMoving, hmoving]
  | utility => exact h.utilityLoop_eq _ _ _ _ _
  | utilization => simp only; rw [h.same]; rfl
  | sat => simp only; rw [h.same]; rfl

theorem Alike.search_eq (h : Alike cfg s t) (af : ActiveFunction) (vs : List (List Stage))
    (best : Option (List Stage × ℚ)) : t.search cfg af vs best = s.search cfg af vs best := by
  induction vs generalizing best with
  | nil => rfl
  | cons v vs ih => simp only [search, h.getCost_eq, ih]

theorem computeAllocation_eq (s : Allocator) (af : ActiveFunction) :
    computeAllocation cfg af s =
      match (s.entered af).search cfg af af.getEnumeration none with
      | .error ex => .error ex (s.entered af)
      | .ok none => .ok none
          { s.entered af with activeFuncs := (s.entered af).activeFuncs.erase af.fid }
      | .ok (some (v, cost)) => .ok
          (some ⟨v, cost, (s.entered af).getUtilization cfg, (s.entered af).allocation ∪ v.toFinset,
            arrivalMap (s.entered af).allocationMap af.fid v⟩)
          { s.entered af with
            activeFuncs := ((s.entered af).activeFuncs.set af.fid
              { af with allocation := some (accessMap v) }) } := rfl

/-- **States that are alike choose the same variant.** -/
theorem Alike.computeAllocation (h : Alike cfg s t) (af : ActiveFunction) :
    Agree (fun s t => Alike cfg s t ∧ t.queueFid = s.queueFid ∧ t.queue = s.queue ∧
        s.queueFid = some af.fid)
      (computeAllocation cfg af s) (computeAllocation cfg af t) := by
  have hent : Alike cfg (s.entered af) (t.entered af) := by
    refine ⟨?_, h.holes⟩
    unfold SameButHoles
    rw [entered, h.same]
    rfl
  have hsearch := hent.search_eq af af.getEnumeration none
  have hutil : (t.entered af).getUtilization cfg = (s.entered af).getUtilization cfg := by
    rw [hent.same]
    rfl
  have hmap : (t.entered af).allocationMap = (s.entered af).allocationMap := by rw [hent.same]
  have hocc : (t.entered af).allocation = (s.entered af).allocation := by rw [hent.same]
  have hact : (t.entered af).activeFuncs = (s.entered af).activeFuncs := by rw [hent.same]
  -- registering or removing the function leaves the states alike
  have hset : ∀ d, Alike cfg { s.entered af with activeFuncs := d }
      { t.entered af with activeFuncs := d } := by
    intro d
    refine ⟨?_, hent.holes⟩
    unfold SameButHoles
    conv_lhs => rw [hent.same]
  rw [computeAllocation_eq s, computeAllocation_eq t, hsearch, hutil, hmap, hocc, hact]
  cases (s.entered af).search cfg af af.getEnumeration none with
  | error ex => rfl
  | ok r =>
      cases r with
      | none => exact ⟨rfl, hset _, rfl, rfl, rfl⟩
      | some r => exact ⟨rfl, hset _, rfl, rfl, rfl⟩

/-- Two computations of new columns for `map` that have done the stages `ps`: the states differ in
the holes of stages that are not placed only. -/
structure SweepsAlike (cfg : AllocatorConfig) (map : Stage → Finset Fid) (ps : List Stage)
    (s t : Allocator) : Prop where
  /-- The states differ in holes only. -/
  same : t = { s with fragmentation := t.fragmentation }
  /-- An arrival is in progress. -/
  marked : s.queueFid ≠ none
  /-- The holes differ only at stages that are not placed. -/
  holes : ∀ i, t.fragmentation i = s.fragmentation i ∨
    (¬(i ∈ ps ∧ map i ≠ ∅) ∧
      Hollow cfg (s.elasticOffset i) (s.fragmentation i) (t.fragmentation i))

/-- **One stage of the new columns** comes out the same. -/
theorem SweepsAlike.placeAt {map : Stage → Finset Fid} {ps : List Stage}
    (h : SweepsAlike cfg map ps s t) (new : Stage → List ℕ) (i : Stage) :
    Agree (SweepsAlike cfg map (ps ++ [i])) (placeAt cfg map new i s)
      (placeAt cfg map new i t) := by
  obtain ⟨φ, rfl⟩ : ∃ φ, t = { s with fragmentation := φ } := ⟨_, h.same⟩
  have hholes := h.holes
  simp only at hholes
  unfold Allocator.placeAt
  by_cases hempty : map i = ∅
  · -- nothing is placed
    simp only [if_pos hempty]
    refine ⟨rfl, rfl, h.marked, fun j => ?_⟩
    rcases hholes j with heq | ⟨hnot, hhol⟩
    · exact Or.inl heq
    · refine Or.inr ⟨fun hj => ?_, hhol⟩
      rcases List.mem_append.1 hj.1 with hmem | hmem
      · exact hnot ⟨hmem, hj.2⟩
      · obtain rfl := List.mem_singleton.1 hmem
        exact hj.2 hempty
  · simp only [if_neg hempty]
    -- the demands are looked up in the same functions
    have hget : (fun fid => getMinDemand { s with fragmentation := φ } fid i)
        = fun fid => s.getMinDemand fid i := rfl
    rw [hget]
    cases placeStage (fun fid => s.getMinDemand fid i) (map i) (s.allocationMatrix i)
        ⟨[], s.elasticOffset i⟩ with
    | error ex st => exact rfl
    | ok col st =>
        have hver : ∀ ψ ψ' e, verifyStage cfg { s with elasticOffset := e, fragmentation := ψ }
            (Function.update new i col) i (map i) =
          verifyStage cfg { s with elasticOffset := e, fragmentation := ψ' }
            (Function.update new i col) i (map i) := fun _ _ _ => rfl
        simp only
        rw [hver (Function.update φ i st.fragmentation)
          (Function.update s.fragmentation i st.fragmentation)]
        cases verifyStage cfg { s with
            elasticOffset := Function.update s.elasticOffset i st.elasticOffset
            fragmentation := Function.update s.fragmentation i st.fragmentation }
          (Function.update new i col) i (map i) with
        | error ex => exact rfl
        | ok u =>
            refine ⟨rfl, rfl, h.marked, fun j => ?_⟩
            simp only
            by_cases hj : j = i
            · subst hj
              left
              simp
            · simp only [Function.update_of_ne hj]
              rcases hholes j with heq | ⟨hnot, hhol⟩
              · exact Or.inl heq
              · refine Or.inr ⟨fun hmem => ?_, hhol⟩
                rcases List.mem_append.1 hmem.1 with hps | hsing
                · exact hnot ⟨hps, hmem.2⟩
                · exact hj (List.mem_singleton.1 hsing)

theorem SweepsAlike.computeAllocationMatrix {map : Stage → Finset Fid}
    (h : SweepsAlike cfg map [] s t) :
    Agree (SweepsAlike cfg map stages) (computeAllocationMatrix cfg map s)
      (computeAllocationMatrix cfg map t) := by
  refine Agree.bind (foldlM_agree (SweepsAlike cfg map) (fun ps i rest _ new s t hst =>
    hst.placeAt new i) stages [] (zeros cfg) s t rfl h) ?_
  intro new s' t' hst
  split_ifs
  · rfl
  · exact ⟨rfl, hst⟩

/-- **States that are alike queue the same columns and remaps.** -/
theorem SweepsAlike.enqueueAllocation {map : Stage → Finset Fid} (al : Finset Stage)
    (h : SweepsAlike cfg map [] s t) :
    Agree (fun s t => SweepsAlike cfg map stages s t ∧
        ∃ plan, s.queue = some plan ∧ plan.allocationMap = map)
      (enqueueAllocation cfg al map s) (enqueueAllocation cfg al map t) := by
  unfold Allocator.enqueueAllocation
  rcases agree_iff.1 h.computeAllocationMatrix with
    ⟨ex, s', t', hms, hmt⟩ | ⟨new, s', t', hms, hmt, hst⟩
  · rw [hms, hmt]
    exact rfl
  rw [hms, hmt]
  obtain ⟨φ, rfl⟩ : ∃ φ, t' = { s' with fragmentation := φ } := ⟨_, hst.same⟩
  -- the checks do not look at the holes
  have hpin : verifyPinned cfg { s' with fragmentation := φ } new stages
      = s'.verifyPinned cfg new stages := rfl
  have hdem : verifyDemands { s' with fragmentation := φ } new = s'.verifyDemands new := rfl
  have hchanges : computeChanges { s' with fragmentation := φ } new = s'.computeChanges new := rfl
  have hremaps : remapsOf { s' with fragmentation := φ } new = s'.remapsOf new := rfl
  have helastic : isElastic { s' with fragmentation := φ } = s'.isElastic := rfl
  have happs : elasticApps { s' with fragmentation := φ } = s'.elasticApps := rfl
  simp only [hpin, hdem, hchanges, hremaps, helastic, happs]
  cases s'.verifyPinned cfg new stages with
  | error ex => exact rfl
  | ok u =>
      cases s'.verifyDemands new with
      | error ex => exact rfl
      | ok u =>
          simp only
          split_ifs
          · exact rfl
          · exact ⟨rfl, ⟨rfl, hst.marked, hst.holes⟩, _, rfl, rfl⟩

/-- **States that are alike give an arrival the same answer.** -/
theorem Alike.arrive (h : Alike cfg s t) (af : ActiveFunction) :
    Agree (Alike cfg) (arrive cfg af s) (arrive cfg af t) := by
  unfold Allocator.arrive
  rcases agree_iff.1 (h.computeAllocation af) with
    ⟨ex, s₁, t₁, hcs, hct⟩ | ⟨r, s₁, t₁, hcs, hct, hst, hq, hp, hmark⟩
  · rw [hcs, hct]
    exact rfl
  rw [hcs, hct]
  cases r with
  | none => exact ⟨rfl, hst⟩
  | some ch =>
      have hsw : SweepsAlike cfg ch.allocationMap [] s₁ t₁ := by
        refine ⟨?_, by simp [hmark], fun i => (hst.holes i).imp_right fun hi => ⟨by simp, hi.2⟩⟩
        conv_lhs => rw [hst.same, hq, hp]
      simp only
      rcases agree_iff.1 (hsw.enqueueAllocation ch.allocation) with
        ⟨ex, s₂, t₂, hes, het⟩ | ⟨r, s₂, t₂, hes, het, hst₂, plan, hplan, hmap⟩
      · rw [hes, het]
        exact rfl
      rw [hes, het]
      obtain ⟨φ, rfl⟩ : ∃ φ, t₂ = { s₂ with fragmentation := φ } := ⟨_, hst₂.same⟩
      simp only [applyQueuedAllocation, hplan]
      cases hqf : s₂.queueFid with
      | none => exact absurd hqf hst₂.marked
      | some f =>
          refine ⟨rfl, rfl, fun i => (hst₂.holes i).imp_right fun hi => ⟨?_, hi.2⟩⟩
          by_contra hne
          exact hi.1 ⟨mem_stages i, hmap ▸ hne⟩

/-- One stage of a departure: the holes of a stage with a function are the same. -/
theorem Alike.deallocateAt (h : Alike cfg s t) (f : Fid) (i : Stage) :
    Agree (Alike cfg) (deallocateAt f i s) (deallocateAt f i t) := by
  obtain ⟨φ, q, p, rfl⟩ : ∃ φ q p, t = { s with fragmentation := φ, queueFid := q, queue := p } :=
    ⟨_, _, _, h.same⟩
  have hholes := h.holes
  simp only at hholes
  have hget : ∀ g, Allocator.getMinDemand { s with fragmentation := φ, queueFid := q, queue := p } g i
      = s.getMinDemand g i := fun _ => rfl
  cases hd : s.getMinDemand f i with
  | error ex =>
      unfold Allocator.deallocateAt
      rw [hget, hd]
      exact rfl
  | ok d =>
      by_cases hf : f ∈ s.allocationMap i
      swap
      · unfold Allocator.deallocateAt
        simp only [hget, hd, hf, not_false_eq_true, if_true]
        exact rfl
      by_cases hi : tenants (release (s.allocationMatrix i) f) = ∅ ∧ i ∉ s.allocation
      · unfold Allocator.deallocateAt
        simp only [hget, hd, hf, not_true_eq_false, if_false, if_pos hi]
        exact rfl
      -- a stage with a function has the same holes in both states
      have hsame : φ i = s.fragmentation i := by
        rcases hholes i with heq | ⟨hempty, -⟩
        · exact heq
        · exact absurd hempty (Finset.ne_empty_of_mem hf)
      rw [deallocateAt_eq hd hf hi, deallocateAt_eq ((hget f).trans hd) hf hi]
      refine ⟨rfl, rfl, fun j => ?_⟩
      by_cases hj : j = i
      · subst hj
        left
        simp only [Function.update_self, hsame]
      · simpa only [Function.update_of_ne hj] using hholes j

/-- **States that are alike give a departure the same answer.** -/
theorem Alike.deallocate (h : Alike cfg s t) (f : Fid) :
    Agree (Alike cfg) (deallocate f s) (deallocate f t) := by
  have hact : t.activeFuncs = s.activeFuncs := by rw [h.same]
  have hrev : t.revAllocationMap = s.revAllocationMap := by rw [h.same]
  unfold Allocator.deallocate
  rw [hact, hrev]
  by_cases hf : f ∈ s.activeFuncs.keys
  swap
  · rw [if_pos hf, if_pos hf]
    exact ⟨rfl, h⟩
  rw [if_neg (not_not.2 hf), if_neg (not_not.2 hf)]
  cases s.revAllocationMap.get? f with
  | none => exact rfl
  | some is =>
      simp only
      rcases agree_iff.1 (forM_agree (Alike cfg) (fun i _ s t hst => hst.deallocateAt f i) s t h
        (l := is)) with ⟨ex, s', t', hs, ht⟩ | ⟨u, s', t', hs, ht, hst⟩
      · rw [hs, ht]
        exact rfl
      · rw [hs, ht]
        obtain ⟨φ, q, p, rfl⟩ : ∃ φ q p,
            t' = { s' with fragmentation := φ, queueFid := q, queue := p } := ⟨_, _, _, hst.same⟩
        exact ⟨rfl, rfl, hst.holes⟩

/-- The answers to a sequence of operations, up to the first exception. -/
def outcomes (cfg : AllocatorConfig) : List Op → Allocator → List (Except Exn Bool)
  | [], _ => []
  | op :: ops, s =>
      match perform cfg op s with
      | .ok b t => .ok b :: outcomes cfg ops t
      | .error ex _ => [.error ex]

/-- **States that are alike give the same answers** to every sequence of operations. -/
theorem Alike.outcomes_eq (h : Alike cfg s t) (ops : List Op) :
    outcomes cfg ops t = outcomes cfg ops s := by
  induction ops generalizing s t with
  | nil => rfl
  | cons op ops ih =>
      have hop : Agree (Alike cfg) (perform cfg op s) (perform cfg op t) := by
        cases op with
        | arrive af => exact h.arrive af
        | depart f => exact h.deallocate f
      rcases agree_iff.1 hop with ⟨ex, s', t', hs, ht⟩ | ⟨b, s', t', hs, ht, hst⟩
      · simp only [outcomes, hs, ht]
      · simp only [outcomes, hs, ht, ih hst]

end Alike

/-! ### No leaked capacity -/

section NoLeak

variable {s : Allocator}

/-- A consistent state without functions, whose offsets are zero, is like a new one. -/
theorem Consistent.alike_init (hs : Consistent cfg s) (hkeys : s.activeFuncs.keys = [])
    (hoff : ∀ i, s.elasticOffset i = 0) : Alike cfg s (init cfg) := by
  have hmap : ∀ i, s.allocationMap i = ∅ := by
    intro i
    refine Finset.eq_empty_of_forall_notMem fun f hf => ?_
    have := (hs.active f).2 ⟨i, hf⟩
    rw [hkeys] at this
    exact absurd this List.not_mem_nil
  have hact : s.activeFuncs = Dict.empty := by
    refine Dict.eq_empty_of_get? fun f => ?_
    cases hg : s.activeFuncs.get? f with
    | none => rfl
    | some af =>
        have hmem : f ∈ s.activeFuncs.keys := (Dict.mem_keys_iff _ _).2 ⟨af, hg⟩
        rw [hkeys] at hmem
        exact absurd hmem List.not_mem_nil
  have hrev : s.revAllocationMap = Dict.empty := by
    refine Dict.eq_empty_of_get? fun f => ?_
    rw [hs.rev f, if_pos]
    refine List.eq_nil_iff_forall_not_mem.2 fun i hi => ?_
    rw [mem_stagesOf, hmap i] at hi
    exact absurd hi (Finset.notMem_empty f)
  have hocc : s.allocation = ∅ := by
    refine Finset.eq_empty_of_forall_notMem fun i hi => ?_
    exact (hs.occupied i).1 hi (hmap i)
  have hmat : s.allocationMatrix = zeros cfg := by
    funext i
    refine ext_owner (by rw [(hs.geometry i).length_eq]; simp [zeros]) fun j => ?_
    have hnone : tenants (s.allocationMatrix i) = ∅ := (hs.tenants_eq i).trans (hmap i)
    rw [tenants_eq_empty_iff.1 hnone j]
    exact (owner_replicate _ j).symm
  refine ⟨?_, fun i => Or.inr ⟨hmap i, ?_, ?_, by simp [init]⟩⟩
  · have hmap' : s.allocationMap = fun _ => ∅ := funext hmap
    have hoff' : s.elasticOffset = fun _ => 0 := funext hoff
    simp only [SameButHoles, init, hmap', hact, hrev, hocc, hmat, hoff']
  · rw [hoff i]
    exact Nat.zero_le _
  · -- a recorded hole with a block would lie below the offset
    intro fr hfr
    by_contra hpos
    have := ((hs.geometry i).hole fr hfr (not_le.1 hpos)).1
    rw [hoff i] at this
    omega

/-- **No leaked capacity.**  In every state of a run of arrivals, departures and resets whose steps
leak nothing, every offset is zero or right above a block of an inelastic function; when no
function is left, in particular after a reset, the offsets are zero and the allocator answers every
sequence of operations like a new one.  The condition is exact: the next step keeps this property
if and only if it leaks nothing. -/
theorem no_leak {cs : List Command}
    (h : Run (fun s c t => CommandStep cfg s c t ∧ LeaksNothing s c) (init cfg) cs s) :
    (∀ i, s.elasticOffset i = 0 ∨ ∃ f d, owner (s.allocationMatrix i) (s.elasticOffset i - 1) = f ∧
      f ≠ 0 ∧ s.getMinDemand f i = .ok d ∧ 1 < d) ∧
    (s.activeFuncs.keys = [] → (∀ i, s.elasticOffset i = 0) ∧
      ∀ ops, outcomes cfg ops s = outcomes cfg ops (init cfg)) ∧
    ∀ c t, CommandStep cfg s c t → (Topped t ↔ LeaksNothing s c) := by
  obtain ⟨hs, htop⟩ : Consistent cfg s ∧ Topped s := by
    refine h.invariant (I := fun s => Consistent cfg s ∧ Topped s) ?_
      ⟨consistent_init cfg, fun i => Or.inl rfl⟩
    rintro s c t ⟨hs, htop⟩ ⟨hstep, hleak⟩
    exact ⟨hs.commandStep hstep, (hs.topped_step_iff htop hstep).2 hleak⟩
  refine ⟨fun i => ?_, fun hkeys => ?_, fun c t hstep => hs.topped_step_iff htop hstep⟩
  · refine (htop i).imp_right fun ⟨hne, hδ⟩ => ⟨_, _, rfl, hne, ?_, hδ⟩
    have hmem : owner (s.allocationMatrix i) (s.elasticOffset i - 1) ∈ s.allocationMap i := by
      rw [← hs.tenants_eq i]
      exact mem_tenants_iff.2 ⟨hne, _, rfl⟩
    exact (hs.demand_ok i _ hmem).1
  · have hoff : ∀ i, s.elasticOffset i = 0 := by
      intro i
      rcases htop i with h0 | ⟨hne, -⟩
      · exact h0
      · -- the function below the offset would be active
        have hmem : owner (s.allocationMatrix i) (s.elasticOffset i - 1) ∈ s.allocationMap i := by
          rw [← hs.tenants_eq i]
          exact mem_tenants_iff.2 ⟨hne, _, rfl⟩
        have := (hs.active _).2 ⟨i, hmem⟩
        rw [hkeys] at this
        exact absurd this List.not_mem_nil
    exact ⟨hoff, fun ops => ((hs.alike_init hkeys hoff).outcomes_eq ops).symm⟩

/-- A function of three blocks arrives and departs: the allocator is as good as new. -/
theorem no_leak_arrive_depart :
    ∃ s, execute ⟨8, .cost, true, true⟩ [.arrive (.singleAccess 1 0 3), .depart 1]
        (init ⟨8, .cost, true, true⟩) = some s ∧
      ∀ ops, outcomes ⟨8, .cost, true, true⟩ ops s =
        outcomes ⟨8, .cost, true, true⟩ ops (init ⟨8, .cost, true, true⟩) := by
  have hex : (execute ⟨8, .cost, true, true⟩ [.arrive (.singleAccess 1 0 3)]
      (init ⟨8, .cost, true, true⟩)).any (fun s => (∀ i, LeaksNothingAt s 1 i) ∧
        (execute ⟨8, .cost, true, true⟩ [.depart 1] s).any (fun t => t.activeFuncs.keys = []))
        = true := by
    decide +kernel
  obtain ⟨s, hs, hex⟩ := (Option.any_eq_true _ _).1 hex
  obtain ⟨hleak, hex⟩ := of_decide_eq_true hex
  obtain ⟨t, ht, hkeys⟩ := (Option.any_eq_true _ _).1 hex
  have hrun : Run (fun s c t => CommandStep ⟨8, .cost, true, true⟩ s c t ∧ LeaksNothing s c)
      (init ⟨8, .cost, true, true⟩)
      ([.op (.arrive (.singleAccess 1 0 3))] ++ [.op (.depart 1)]) t :=
    Run.snoc (Run.single ⟨execute_singleton.1 hs, trivial⟩) ⟨execute_singleton.1 ht, hleak⟩
  refine ⟨t, ?_, ((no_leak hrun).2.1 (of_decide_eq_true hkeys)).2⟩
  rw [show ([.arrive (.singleAccess 1 0 3), .depart 1] : List Op) =
    [.arrive (.singleAccess 1 0 3)] ++ [.depart 1] from rfl, execute_append, hs]
  exact ht

/-- **Leaked capacity.**  On eight blocks two functions of three blocks arrive and depart, the
lower one first: the offset stays at three and a function of six blocks, which a new allocator
admits, is refused.  And a reset leaves the offset where a resident function has put it. -/
theorem capacity_leaked :
    (∃ s, Run (Step ⟨8, .cost, true, true⟩) (init ⟨8, .cost, true, true⟩)
        [.arrive (.singleAccess 1 0 3), .arrive (.singleAccess 2 0 3), .depart 1, .depart 2] s ∧
      s.activeFuncs.keys = [] ∧ s.elasticOffset 0 = 3 ∧
      outcomes ⟨8, .cost, true, true⟩ [.arrive (.singleAccess 3 0 6)] s = [.ok false]) ∧
    outcomes ⟨8, .cost, true, true⟩ [.arrive (.singleAccess 3 0 6)] (init ⟨8, .cost, true, true⟩) =
      [.ok true] ∧
    ∃ s, Run (Step ⟨8, .cost, true, true⟩) (init ⟨8, .cost, true, true⟩)
        [.arrive (.singleAccess 1 0 3)] s ∧
      (s.reset ⟨8, .cost, true, true⟩).elasticOffset 0 = 3 := by
  have hex : (execute ⟨8, .cost, true, true⟩
      [.arrive (.singleAccess 1 0 3), .arrive (.singleAccess 2 0 3), .depart 1, .depart 2]
      (init ⟨8, .cost, true, true⟩)).any (fun s => s.activeFuncs.keys = [] ∧
        s.elasticOffset 0 = 3 ∧
        outcomes ⟨8, .cost, true, true⟩ [.arrive (.singleAccess 3 0 6)] s = [.ok false]) = true := by
    decide +kernel
  have hreset : (execute ⟨8, .cost, true, true⟩ [.arrive (.singleAccess 1 0 3)]
      (init ⟨8, .cost, true, true⟩)).any (fun s =>
        (s.reset ⟨8, .cost, true, true⟩).elasticOffset 0 = 3) = true := by decide +kernel
  refine ⟨?_, by decide +kernel, ?_⟩
  · obtain ⟨s, hs, hex⟩ := (Option.any_eq_true _ _).1 hex
    exact ⟨s, run_iff_execute.2 hs, of_decide_eq_true hex⟩
  · obtain ⟨s, hs, hreset⟩ := (Option.any_eq_true _ _).1 hreset
    exact ⟨s, run_iff_execute.2 hs, of_decide_eq_true hreset⟩

end NoLeak

end Allocator

end ActiveRmt
