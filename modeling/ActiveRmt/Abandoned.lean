/-
**An arrival that is given up.**

An arrival is queued before it is applied, and may be given up in between.  The live maps and columns are
not touched by the queueing.  The offsets and the recorded holes are: each stage that is looked at has
its holes scanned anew and recorded, and an inelastic arrival uses a hole up or raises the offset at
once.  The outcome at each stage is known from the state before, and so is the stage at which the
placement fails, if it does.

Main definitions:

* `tried`, `abandoned` — the state after an attempt, and after it was given up;
* `PlacementFails` — the stage at which the placement fails;
* `SettledAt` — a stage at which the attempt changes nothing.

Main results:

* `Consistent.stageResult_outcome` — **the outcome at a stage**;
* `Consistent.ends_computeAllocationMatrix` — the state after all stages, or after the one that fails;
* `undisturbed_iff` — **exactly when an attempt that is given up leaves no trace**;
* `abandoned_raises_offset` — an attempt that does.
-/

import ActiveRmt.Handlers
import ActiveRmt.Remapping

set_option relaxedAutoImplicit false
set_option autoImplicit false

namespace ActiveRmt

open Blocks

namespace Allocator

variable {cfg : AllocatorConfig}

/-! ### Attempts -/

/-- The state after `computeAllocation` and, if a variant is chosen, `enqueueAllocation`, whether they
return or raise. -/
def tried (cfg : AllocatorConfig) (s : Allocator) (af : ActiveFunction) : Allocator :=
  match computeAllocation cfg af s with
  | .error _ s₁ => s₁
  | .ok none s₁ => s₁
  | .ok (some ch) s₁ =>
      match enqueueAllocation cfg ch.allocation ch.allocationMap s₁ with
      | .error _ s₂ => s₂
      | .ok _ s₂ => s₂

/-- **An attempt that is given up**: the queue is reset and the function taken off again. -/
def abandoned (cfg : AllocatorConfig) (s : Allocator) (af : ActiveFunction) : Allocator :=
  let t := s.tried cfg af
  { t with
    queueFid := none
    queue := none
    activeFuncs := t.activeFuncs.erase af.fid }

/-- The live structures are the same. -/
structure SameLive (s t : Allocator) : Prop where
  /-- `allocationMatrix`. -/
  allocationMatrix : t.allocationMatrix = s.allocationMatrix
  /-- `allocation`. -/
  allocation : t.allocation = s.allocation
  /-- `allocationMap`. -/
  allocationMap : t.allocationMap = s.allocationMap
  /-- `revAllocationMap`. -/
  revAllocationMap : t.revAllocationMap = s.revAllocationMap
  /-- `elastic_offset`. -/
  elasticOffset : t.elasticOffset = s.elasticOffset
  /-- `fragmentation`. -/
  fragmentation : t.fragmentation = s.fragmentation

/-! ### The outcome at a stage -/

section Stage

variable (cfg : AllocatorConfig) (s : Allocator) (af : ActiveFunction) (v : List Stage) (i : Stage)

/-- The holes that are found below the offset. -/
def holesAt : List Fragment := holesBelow (s.elasticOffset i) (s.allocationMatrix i)

/-- The function arrives at the stage and is inelastic there. -/
def InelasticAt : Prop := i ∈ v ∧ 1 < demandFound v af.minDemand i

instance : Decidable (InelasticAt af v i) := inferInstanceAs (Decidable (_ ∧ _))

/-- The hole that an inelastic arrival is placed in, with its index. -/
def holeFor : Option (Fragment × ℕ) := bestHole (demandFound v af.minDemand i) (s.holesAt i)

/-- The holes that are left when the demand is placed in one of them. -/
def holesLeft (d : ℕ) (holes : List Fragment) (p : Fragment × ℕ) : List Fragment :=
  if (d : ℤ) = p.1.size then holes.eraseIdx p.2
  else holes.set p.2 ⟨p.1.start + d, p.1.size - d⟩

/-- **The placement fails at a stage**: the elastic functions do not fit above the offset, or do not fit
any more when an inelastic arrival without a hole is placed there. -/
def PlacementFails : Prop :=
  arrivalMap s.allocationMap af.fid v i ≠ ∅ ∧
    (cfg.maxOccupancy < s.elasticOffset i + (s.nextTenants af v i).length ∨
      (InelasticAt af v i ∧ s.holeFor af v i = none ∧
        cfg.maxOccupancy < s.elasticOffset i + demandFound v af.minDemand i +
          (s.nextTenants af v i).length))

/-- The offset and the holes that the attempt leaves at a stage. -/
def stageAfter : StageState :=
  if arrivalMap s.allocationMap af.fid v i = ∅ then ⟨s.fragmentation i, s.elasticOffset i⟩
  else if cfg.maxOccupancy < s.elasticOffset i + (s.nextTenants af v i).length then
    ⟨s.holesAt i, s.elasticOffset i⟩
  else if InelasticAt af v i then
    match s.holeFor af v i with
    | none =>
        let d := demandFound v af.minDemand i
        if cfg.maxOccupancy < s.elasticOffset i + d then ⟨s.holesAt i, s.elasticOffset i⟩
        else if cfg.maxOccupancy < s.elasticOffset i + d + (s.nextTenants af v i).length then
          ⟨s.holesAt i, s.elasticOffset i + d⟩
        else ⟨sortFragments (s.holesAt i), s.elasticOffset i + d⟩
    | some p =>
        ⟨sortFragments (holesLeft (demandFound v af.minDemand i) (s.holesAt i) p), s.elasticOffset i⟩
  else ⟨sortFragments (s.holesAt i), s.elasticOffset i⟩

/-- **The attempt changes nothing at a stage**: the recorded holes are those that are found, sorted by
their lengths (if the placement fails for want of blocks, as they are found), less the blocks that an
inelastic arrival takes from one of them; and there is no inelastic arrival that is placed at the
offset. -/
def SettledAt : Prop :=
  if cfg.maxOccupancy < s.elasticOffset i + (s.nextTenants af v i).length then
    s.fragmentation i = s.holesAt i
  else if InelasticAt af v i then
    match s.holeFor af v i with
    | none => cfg.maxOccupancy < s.elasticOffset i + demandFound v af.minDemand i ∧
        s.fragmentation i = s.holesAt i
    | some p => s.fragmentation i =
        sortFragments (holesLeft (demandFound v af.minDemand i) (s.holesAt i) p)
  else s.fragmentation i = sortFragments (s.holesAt i)

end Stage

section Outcome

variable {s : Allocator} {af : ActiveFunction} {v : List Stage} {i : Stage}

/-- A stage is settled if it is left as it is. -/
theorem stageAfter_eq_iff (hne : arrivalMap s.allocationMap af.fid v i ≠ ∅) :
    stageAfter cfg s af v i = ⟨s.fragmentation i, s.elasticOffset i⟩ ↔ SettledAt cfg s af v i := by
  unfold stageAfter SettledAt
  rw [if_neg hne]
  by_cases hfit : cfg.maxOccupancy < s.elasticOffset i + (s.nextTenants af v i).length
  · simp only [if_pos hfit, StageState.mk.injEq, and_true]
    exact eq_comm
  · simp only [if_neg hfit]
    by_cases hin : InelasticAt af v i
    · simp only [if_pos hin]
      have hpos : ¬ s.elasticOffset i + demandFound v af.minDemand i = s.elasticOffset i := by
        have := hin.2
        omega
      cases s.holeFor af v i with
      | none =>
          simp only
          split_ifs with h₁ h₂
          · simp only [h₁, StageState.mk.injEq, and_true, true_and]
            exact eq_comm
          · simp only [StageState.mk.injEq, hpos, h₁, and_false, false_and]
          · simp only [StageState.mk.injEq, hpos, h₁, and_false, false_and]
      | some p =>
          simp only [StageState.mk.injEq, and_true]
          exact eq_comm
    · simp only [if_neg hin, StageState.mk.injEq, and_true]
      exact eq_comm

/-- The elastic fill of a column with its `n` blocks. -/
theorem fillRuns_eq {n e : ℕ} {E : List Fid} {col : List ℕ} (hlen : col.length = n) (he : e ≤ n) :
    (n < e + E.length ∧ fillRuns e E col = .error .assertionError) ∨
      (¬ n < e + E.length ∧ ∃ col', fillRuns e E col = .ok col') := by
  unfold fillRuns
  by_cases hnil : E = []
  · rw [if_pos hnil, hnil]
    exact .inr ⟨by simpa using he, _, rfl⟩
  · rw [if_neg hnil, hlen]
    by_cases hfit : n < e + E.length
    · exact .inl ⟨hfit, if_pos hfit⟩
    · exact .inr ⟨hfit, _, if_neg hfit⟩

/-- **The outcome at a stage.** -/
theorem Consistent.stageResult_outcome (hs : Consistent cfg s) (ha : Arrival s af)
    (hv : v ∈ af.getEnumeration) (i : Stage) :
    (PlacementFails cfg s af v i ∧ ∃ ex, stageResult cfg (s.register af v)
        (arrivalMap s.allocationMap af.fid v) i = .error ex (stageAfter cfg s af v i)) ∨
      (¬ PlacementFails cfg s af v i ∧ ∃ col, stageResult cfg (s.register af v)
        (arrivalMap s.allocationMap af.fid v) i = .ok col (stageAfter cfg s af v i)) := by
  have hnew := hs.newcomer ha
  have hr := hs.ready hnew hv
  have hg := hs.geometry i
  unfold PlacementFails stageResult stageAfter
  by_cases hempty : arrivalMap s.allocationMap af.fid v i = ∅
  · simp only [if_pos hempty]
    exact .inr ⟨fun h => h.1 hempty, _, rfl⟩
  simp only [if_neg hempty]
  rw [placeStage_eq (hr.geometry i) (fun f hf => (hr.demand_ok i f hf).1)
    (fun f hf => (hr.demand_ok i f hf).2) (hr.tenants_subset i) (hr.arrivals i)]
  rw [show (s.register af v).allocationMatrix i = s.allocationMatrix i from rfl,
    show (s.register af v).elasticOffset i = s.elasticOffset i from rfl,
    hnew.inelasticArrivals_eq hs.toLinked hv i, ← nextTenants, ← holesAt]
  by_cases hfit : cfg.maxOccupancy < s.elasticOffset i + (s.nextTenants af v i).length
  · simp only [if_pos hfit]
    exact .inl ⟨⟨hempty, .inl hfit⟩, _, rfl⟩
  simp only [if_neg hfit]
  have hlen : (copyBelow (s.elasticOffset i) (s.allocationMatrix i)).length = cfg.maxOccupancy :=
    (length_copyBelow _ _).trans hg.length_eq
  by_cases hin : InelasticAt af v i
  · have hd : ¬ demandFound v af.minDemand i ≤ 1 := Nat.not_le.2 hin.2
    rw [if_pos (show i ∈ v ∧ 1 < demandFound v af.minDemand i from hin)]
    unfold holeFor
    cases hb : bestHole (demandFound v af.minDemand i) (s.holesAt i) with
    | none =>
        simp only [placeInelastic, if_neg hd, hb, hlen, if_pos hin]
        by_cases h₁ : cfg.maxOccupancy < s.elasticOffset i + demandFound v af.minDemand i
        · simp only [if_pos h₁]
          exact .inl ⟨⟨hempty, .inr ⟨hin, trivial, by omega⟩⟩, _, rfl⟩
        · simp only [if_neg h₁]
          rcases fillRuns_eq (E := s.nextTenants af v i) (show (writeRange (copyBelow
              (s.elasticOffset i) (s.allocationMatrix i)) (s.elasticOffset i)
              (demandFound v af.minDemand i) af.fid).length = cfg.maxOccupancy by
                rw [length_writeRange, hlen]) (Nat.not_lt.1 h₁) with ⟨h₂, hfill⟩ | ⟨h₂, col, hfill⟩
          · simp only [hfill, if_pos h₂]
            exact .inl ⟨⟨hempty, .inr ⟨hin, trivial, h₂⟩⟩, _, rfl⟩
          · simp only [hfill, if_neg h₂]
            refine .inr ⟨?_, _, rfl⟩
            rintro ⟨-, h | h⟩
            · exact hfit h
            · exact h₂ h.2.2
    | some p =>
        obtain ⟨hk, hsize⟩ := bestHole_some (show bestHole _ _ = some (p.1, p.2) from hb)
        have hd' := hin.2
        obtain ⟨hlt, -⟩ := hg.scanAt.sound p.1 (List.mem_of_getElem? hk) (by omega)
        have hle := hg.offset_le
        have hroom : ¬ cfg.maxOccupancy < p.1.start + demandFound v af.minDemand i := by omega
        simp only [placeInelastic, if_neg hd, hb, hlen, if_pos hin, if_neg hroom]
        rcases fillRuns_eq (E := s.nextTenants af v i) (show (writeRange (copyBelow
            (s.elasticOffset i) (s.allocationMatrix i)) p.1.start
            (demandFound v af.minDemand i) af.fid).length = cfg.maxOccupancy by
              rw [length_writeRange, hlen]) hle with ⟨h₂, -⟩ | ⟨-, col, hfill⟩
        · exact absurd h₂ hfit
        · simp only [hfill]
          refine .inr ⟨?_, _, rfl⟩
          rintro ⟨-, h | h⟩
          · exact hfit h
          · exact absurd h.2.1 (by simp)
  · rw [if_neg (show ¬ (i ∈ v ∧ 1 < demandFound v af.minDemand i) from hin)]
    simp only [placeInelastic, if_neg hin]
    rcases fillRuns_eq (E := s.nextTenants af v i) hlen hg.offset_le with
      ⟨h₂, -⟩ | ⟨-, col, hfill⟩
    · exact absurd h₂ hfit
    · simp only [hfill]
      refine .inr ⟨?_, _, rfl⟩
      rintro ⟨-, h | h⟩
      · exact hfit h
      · exact hin h.1

/-! ### The state after the stages -/

/-- What an attempt leaves: each stage up to the first at which the placement fails is as it is known to
be, and the others are as they were. -/
structure Left (cfg : AllocatorConfig) (s : Allocator) (af : ActiveFunction) (v : List Stage)
    (u : Allocator) : Prop where
  /-- Offsets and holes are changed and nothing else. -/
  state : ∃ e fr, u = (s.register af v).reshaped e fr
  /-- The stages that are looked at. -/
  seen : ∀ i, (∀ j < i, ¬ PlacementFails cfg s af v j) →
    ⟨u.fragmentation i, u.elasticOffset i⟩ = stageAfter cfg s af v i
  /-- The others. -/
  unseen : ∀ i, (∃ j < i, PlacementFails cfg s af v j) →
    u.fragmentation i = s.fragmentation i ∧ u.elasticOffset i = s.elasticOffset i

/-- A stage at which the placement fails. -/
theorem Sweep.placeAt_error {s t : Allocator} {map : Stage → Finset Fid} {ps : List Stage}
    {new : Stage → List ℕ} (h : Sweep cfg s map ps new t) (hi : i ∉ ps) {ex : Exn} {st : StageState}
    (hst : stageResult cfg s map i = .error ex st) :
    placeAt cfg map new i t = .error ex (t.advance i st) := by
  obtain ⟨-, -, hoff⟩ := h.todo i hi
  unfold placeAt
  rw [h.matrix_eq, h.getMinDemand_eq, hoff]
  unfold stageResult at hst
  split_ifs at hst ⊢ with hempty
  simp only [hst, advance, h.matrix_eq]

/-- The state after the stage at which the placement fails. -/
theorem Sweep.left_of_fails {ps rest : List Stage} {new : Stage → List ℕ} {u : Allocator}
    (hsw : Sweep cfg (s.register af v) (arrivalMap s.allocationMap af.fid v) ps new u)
    (hdone : ∀ j ∈ ps, ⟨u.fragmentation j, u.elasticOffset j⟩ = stageAfter cfg s af v j)
    (hok : ∀ j ∈ ps, ¬ PlacementFails cfg s af v j) (hps : stages = ps ++ i :: rest)
    (hfail : PlacementFails cfg s af v i) :
    Left cfg s af v (u.advance i (stageAfter cfg s af v i)) where
  state := by
    rw [hsw.state]
    exact ⟨_, _, rfl⟩
  seen := by
    intro j hj
    rcases lt_trichotomy j i with hlt | rfl | hgt
    · simpa [advance, Function.update_of_ne hlt.ne] using hdone j ((mem_of_stages_eq hps).2 hlt)
    · simp [advance]
    · exact absurd hfail (hj i hgt)
  unseen := by
    rintro j ⟨k, hkj, hk⟩
    have hki : ¬ k < i := fun hlt => hok k ((mem_of_stages_eq hps).2 hlt) hk
    have hij : i < j := lt_of_le_of_lt (not_lt.1 hki) hkj
    have hps' : j ∉ ps := fun hmem => lt_asymm hij ((mem_of_stages_eq hps).1 hmem)
    simpa [advance, Function.update_of_ne hij.ne', register] using (hsw.todo j hps').2

/-- **The state after the new columns are computed**, whether or not a placement fails. -/
theorem Consistent.ends_computeAllocationMatrix (hs : Consistent cfg s) (ha : Arrival s af)
    (hv : v ∈ af.getEnumeration) :
    Ends (computeAllocationMatrix cfg (arrivalMap s.allocationMap af.fid v)) (s.register af v)
      (fun _ u => Left cfg s af v u) (Left cfg s af v) := by
  have hr := hs.ready (hs.newcomer ha) hv
  have hdone : ∀ {ps new u}, Sweep cfg (s.register af v) (arrivalMap s.allocationMap af.fid v) ps new u →
      ∀ j ∈ ps, ⟨u.fragmentation j, u.elasticOffset j⟩ = stageAfter cfg s af v j := by
    intro ps new u hsw j hj
    rcases hs.stageResult_outcome ha hv j with ⟨-, ex, h⟩ | ⟨-, col, h⟩
    · rw [hsw.done j hj] at h
      cases h
    · rw [hsw.done j hj] at h
      exact (EStateM.Result.ok.inj h).2
  -- no placement has failed at the stages that are done
  have hloop : Ends (stages.foldlM (placeAt cfg (arrivalMap s.allocationMap af.fid v)) (zeros cfg))
      (s.register af v) (fun _ u => Left cfg s af v u) (Left cfg s af v) := by
    refine (ends_foldlM_done (fun ps new u => Sweep cfg (s.register af v)
      (arrivalMap s.allocationMap af.fid v) ps new u ∧ ∀ j ∈ ps, ¬ PlacementFails cfg s af v j)
      (fun ps i rest hps new u ⟨hsw, hok⟩ => ?_) stages [] (zeros cfg) _ rfl
      ⟨sweep_nil, by simp⟩).mono (fun new u ⟨hsw, hok⟩ => ?_) fun _ h => h
    · rcases hs.stageResult_outcome ha hv i with ⟨hfail, ex, h⟩ | ⟨hno, col, h⟩
      · exact ends_of_error (hsw.placeAt_error (notMem_of_stages_eq hps) h)
          (hsw.left_of_fails (hdone hsw) hok hps hfail)
      · refine ends_of_ok (hsw.placeAt_eq hr hps h) ⟨hsw.snoc (notMem_of_stages_eq hps) h, ?_⟩
        intro j hj
        rcases List.mem_append.1 hj with hj | hj
        · exact hok j hj
        · rw [List.mem_singleton.1 hj]
          exact hno
    · refine ⟨⟨_, _, hsw.state⟩, fun i _ => hdone hsw i (mem_stages i), ?_⟩
      rintro i ⟨j, -, hj⟩
      exact absurd hj (hok j (mem_stages j))
  unfold computeAllocationMatrix
  refine ends_bind.2 (hloop.mono (fun new u hleft => ?_) fun _ h => h)
  exact ends_ite (fun _ => ends_bind.2 (ends_throw.2 hleft)) fun _ => ends_pure.2 hleft

/-- **What an attempt leaves** if a variant is chosen. -/
theorem Consistent.left_tried (hs : Consistent cfg s) (ha : Arrival s af) {ch : Choice} {s₁ : Allocator}
    (hc : computeAllocation cfg af s = .ok (some ch) s₁) :
    ∃ u q, Left cfg s af ch.optimal u ∧ s.tried cfg af = { u with queue := q } := by
  obtain ⟨⟨rfl, hv, -, hmap⟩, -⟩ := computeAllocation_some hc
  have hr := hs.ready (hs.newcomer ha) hv
  have hends := hs.ends_computeAllocationMatrix ha hv
  unfold tried
  rw [hc]
  dsimp only
  rw [hmap]
  cases hm : computeAllocationMatrix cfg (arrivalMap s.allocationMap af.fid ch.optimal)
      (s.register af ch.optimal) with
  | error ex u =>
      rw [enqueueAllocation_error hm]
      exact ⟨u, u.queue, hends.2 ex u hm, rfl⟩
  | ok new u =>
      rw [enqueueAllocation_eq hr ch.allocation hm]
      exact ⟨u, _, hends.1 new u hm, rfl⟩

/-- An attempt without a choice marks the arrival, and may leave its function registered. -/
theorem tried_of_not_chosen (hnew : af.fid ∉ s.activeFuncs.keys)
    (h : ∀ ch s₁, computeAllocation cfg af s ≠ .ok (some ch) s₁) :
    ∃ d, s.tried cfg af = s.marked af.fid d ∧ d.erase af.fid = s.activeFuncs := by
  have herase := Dict.erase_set_of_notMem hnew af
  unfold tried
  cases hsearch : (s.entered af).search cfg af af.getEnumeration none with
  | error ex =>
      have hc : computeAllocation cfg af s = .error ex (s.entered af) := by
        unfold computeAllocation
        rw [entered] at hsearch
        simp only [hsearch]
        rfl
      rw [hc]
      exact ⟨s.activeFuncs.set af.fid af, rfl, herase⟩
  | ok r =>
      cases r with
      | none =>
          have hc : computeAllocation cfg af s =
              .ok none (s.marked af.fid ((s.activeFuncs.set af.fid af).erase af.fid)) := by
            unfold computeAllocation
            rw [entered] at hsearch
            simp only [hsearch]
            rfl
          rw [hc]
          exact ⟨_, rfl, by rw [herase, Dict.erase_of_notMem hnew]⟩
      | some p =>
          refine absurd ?_ (not_exists.2 fun ch => not_exists.2 (h ch))
          unfold computeAllocation
          rw [entered] at hsearch
          simp only [hsearch]
          exact ⟨_, _, rfl⟩

/-- **A function that is refused leaves no trace**, and neither does one whose costs cannot be computed. -/
theorem sameLive_of_not_chosen (hnew : af.fid ∉ s.activeFuncs.keys)
    (h : ∀ ch s₁, computeAllocation cfg af s ≠ .ok (some ch) s₁) :
    SameLive s (s.abandoned cfg af) := by
  obtain ⟨d, htried, -⟩ := tried_of_not_chosen hnew h
  unfold abandoned
  rw [htried]
  exact ⟨rfl, rfl, rfl, rfl, rfl, rfl⟩

/-- The registered functions are the same again. -/
theorem Consistent.abandoned_activeFuncs (hs : Consistent cfg s) (ha : Arrival s af) :
    (s.abandoned cfg af).activeFuncs = s.activeFuncs := by
  unfold abandoned
  by_cases hch : ∃ ch s₁, computeAllocation cfg af s = .ok (some ch) s₁
  · obtain ⟨ch, s₁, hc⟩ := hch
    obtain ⟨u, q, hleft, htried⟩ := hs.left_tried ha hc
    obtain ⟨e, fr, rfl⟩ := hleft.state
    rw [htried]
    exact Dict.erase_set_of_notMem ha.fresh _
  · obtain ⟨d, htried, herase⟩ := tried_of_not_chosen ha.fresh fun ch s₁ hc => hch ⟨ch, s₁, hc⟩
    rw [htried]
    exact herase

/-- The variant that the search finds is the one that is chosen. -/
theorem search_eq_some_iff :
    (∃ cost, (s.entered af).search cfg af af.getEnumeration none = .ok (some (v, cost))) ↔
      ∃ ch s₁, computeAllocation cfg af s = .ok (some ch) s₁ ∧ ch.optimal = v := by
  unfold computeAllocation
  rw [entered]
  dsimp only
  split
  · rename_i ex hsearch
    simp [hsearch]
  · rename_i hsearch
    simp [hsearch]
  · rename_i optimal cost hsearch
    simp [hsearch]

end Outcome

/-! ### Runs -/

/-- **The attempt changes nothing**: the search refuses every variant or cannot compute a cost, or each
stage that is looked at is settled. -/
def Settles (cfg : AllocatorConfig) (s : Allocator) (af : ActiveFunction) : Prop :=
  ∀ (v : List Stage) (cost : ℚ),
    (s.entered af).search cfg af af.getEnumeration none = .ok (some (v, cost)) →
      ∀ i : Stage, arrivalMap s.allocationMap af.fid v i ≠ ∅ →
        (∀ j < i, ¬ PlacementFails cfg s af v j) → SettledAt cfg s af v i

/-- What is done with the allocator. -/
inductive Move
  /-- An operation that is completed. -/
  | perform (op : Op)
  /-- An arrival that is given up. -/
  | giveUp (af : ActiveFunction)

/-- **One move**; an arrival that is given up is one that changes nothing. -/
def Moves (cfg : AllocatorConfig) (s : Allocator) : Move → Allocator → Prop
  | .perform op, t => Step cfg s op t
  | .giveUp af, t => Arrival s af ∧ Settles cfg s af ∧ t = s.abandoned cfg af

section Runs

variable {s t : Allocator} {af : ActiveFunction} {ms : List Move}

/-- **An attempt leaves no trace exactly if it settles**, in a consistent state. -/
theorem Consistent.sameLive_iff (hs : Consistent cfg s) (ha : Arrival s af) :
    SameLive s (s.abandoned cfg af) ↔ Settles cfg s af := by
  by_cases hch : ∃ ch s₁, computeAllocation cfg af s = .ok (some ch) s₁
  · obtain ⟨ch, s₁, hc⟩ := hch
    obtain ⟨u, q, hleft, htried⟩ := hs.left_tried ha hc
    have hsame : SameLive s (s.abandoned cfg af) ↔
        ∀ i, (⟨u.fragmentation i, u.elasticOffset i⟩ : StageState) =
          ⟨s.fragmentation i, s.elasticOffset i⟩ := by
      unfold abandoned
      rw [htried]
      constructor
      · intro h i
        rw [← h.fragmentation, ← h.elasticOffset]
      · intro h
        obtain ⟨e, fr, rfl⟩ := hleft.state
        exact ⟨rfl, rfl, rfl, rfl, funext fun i => (StageState.mk.inj (h i)).2,
          funext fun i => (StageState.mk.inj (h i)).1⟩
    have hcond : Settles cfg s af ↔ ∀ i : Stage, arrivalMap s.allocationMap af.fid ch.optimal i ≠ ∅ →
        (∀ j < i, ¬ PlacementFails cfg s af ch.optimal j) → SettledAt cfg s af ch.optimal i := by
      constructor
      · intro h
        obtain ⟨cost, hsearch⟩ := search_eq_some_iff.2 ⟨ch, s₁, hc, rfl⟩
        exact h _ cost hsearch
      · intro h v cost hsearch
        obtain ⟨ch', s₁', hc', rfl⟩ := search_eq_some_iff.1 ⟨cost, hsearch⟩
        rw [hc] at hc'
        cases hc'
        exact h
    rw [hsame, hcond]
    refine forall_congr' fun i => ?_
    by_cases hseen : ∀ j < i, ¬ PlacementFails cfg s af ch.optimal j
    · rw [hleft.seen i hseen]
      by_cases hne : arrivalMap s.allocationMap af.fid ch.optimal i = ∅
      · exact iff_of_true (by rw [stageAfter, if_pos hne]) fun h => absurd hne h
      · rw [stageAfter_eq_iff hne]
        exact ⟨fun h _ _ => h, fun h => h hne hseen⟩
    · refine iff_of_true ?_ fun _ h => absurd h hseen
      obtain ⟨j, hj, hfail⟩ : ∃ j < i, PlacementFails cfg s af ch.optimal j := by
        simpa using hseen
      obtain ⟨hfrag, hoff⟩ := hleft.unseen i ⟨j, hj, hfail⟩
      rw [hfrag, hoff]
  · refine iff_of_true (sameLive_of_not_chosen ha.fresh fun ch s₁ hc => hch ⟨ch, s₁, hc⟩) ?_
    intro v cost hsearch
    obtain ⟨ch, s₁, hc, -⟩ := search_eq_some_iff.1 ⟨cost, hsearch⟩
    exact absurd ⟨ch, s₁, hc⟩ hch

/-- An attempt that leaves no trace leaves a consistent state. -/
theorem Consistent.abandoned (hs : Consistent cfg s) (ha : Arrival s af)
    (h : SameLive s (s.abandoned cfg af)) : Consistent cfg (s.abandoned cfg af) := by
  have hall : s.abandoned cfg af = { s with queueFid := none, queue := none } := by
    rw [← h.allocationMatrix, ← h.allocation, ← h.allocationMap, ← h.revAllocationMap,
      ← h.elasticOffset, ← h.fragmentation, ← hs.abandoned_activeFuncs ha]
    rfl
  rw [hall]
  exact { hs with }

/-- **Every state of a run with attempts that change nothing is consistent.** -/
theorem consistent_of_moves (h : Run (Moves cfg) (init cfg) ms s) : Consistent cfg s := by
  refine h.invariant (fun s m t hs hm => ?_) (consistent_init cfg)
  cases m with
  | perform op => exact hs.step hm
  | giveUp af =>
      obtain ⟨ha, hset, rfl⟩ := hm
      exact hs.abandoned ha ((hs.sameLive_iff ha).2 hset)

/-- **Exactly when an attempt that is given up leaves no trace**, in every state of every run in which
the attempts before were such. -/
theorem undisturbed_iff (h : Run (Moves cfg) (init cfg) ms s) (ha : Arrival s af) :
    SameLive s (s.abandoned cfg af) ↔ Settles cfg s af :=
  (consistent_of_moves h).sameLive_iff ha

/-- An access that asks for a share settles on empty memory. -/
theorem undisturbed_iff_share :
    Settles ⟨8, .cost, true, true⟩ (init ⟨8, .cost, true, true⟩) (.singleAccess 1 0 1) :=
  (undisturbed_iff (Run.nil _) (by decide +kernel)).1
    ⟨funext (by decide +kernel), by decide +kernel, funext (by decide +kernel), by decide +kernel,
      funext (by decide +kernel), funext (by decide +kernel)⟩

/-- **An attempt that leaves a trace.**  An access that asks for three of eight empty blocks is given up, and
the offset of its stage stays at three. -/
theorem abandoned_raises_offset :
    Arrival (init ⟨8, .cost, true, true⟩) (.singleAccess 1 0 3) ∧
      ((init ⟨8, .cost, true, true⟩).abandoned ⟨8, .cost, true, true⟩
        (.singleAccess 1 0 3)).elasticOffset 0 = 3 ∧
      ¬ SameLive (init ⟨8, .cost, true, true⟩)
        ((init ⟨8, .cost, true, true⟩).abandoned ⟨8, .cost, true, true⟩ (.singleAccess 1 0 3)) := by
  have hoff : ((init ⟨8, .cost, true, true⟩).abandoned ⟨8, .cost, true, true⟩
      (.singleAccess 1 0 3)).elasticOffset 0 = 3 := by decide +kernel
  refine ⟨by decide +kernel, hoff, fun h => ?_⟩
  rw [h.elasticOffset] at hoff
  exact absurd hoff (by decide)

end Runs

end Allocator

end ActiveRmt
