/-
**Who is in memory, and who the controller knows.**

The maps of the allocator, the functions it has registered, the list of active functions and the queued
copy of the maps are changed in different places.  A reset deallocates the active functions in the live
maps; an allocation that waits for its round holds a copy of the maps of before, and applying it puts the
functions back that the reset has removed.

Main definitions:

* `Controller.Housed` — **who is placed is active or in progress**, in the live maps and in the queued ones;
* `Controller.Answered` — the active functions that are placed have a reply and a quota;
* `Controller.Calm` — no reset while an allocation waits.

Main results:

* `Controller.ends_deallocate_housed` — a departure;
* `Controller.Housed.step` — every step without such a reset keeps the invariant, exceptions included;
* `Controller.placed_registered` — **whoever is placed is registered, and active or in progress**;
* `Controller.resurrected` — a reset while an allocation waits brings a function back.
-/

import ActiveRmt.AllocatorRuns
import ActiveRmt.Protocol
import ActiveRmt.Bookkeeping

set_option relaxedAutoImplicit false
set_option autoImplicit false

namespace ActiveRmt

open Blocks
open Allocator (Remaps)

theorem Ends.and {ε σ α : Type} {x : EStateM ε σ α} {s : σ} {Q Q' : α → σ → Prop} {E E' : σ → Prop}
    (h : Ends x s Q E) (h' : Ends x s Q' E') :
    Ends x s (fun a t => Q a t ∧ Q' a t) fun t => E t ∧ E' t :=
  ⟨fun a t ht => ⟨h.1 a t ht, h'.1 a t ht⟩, fun ex t ht => ⟨h.2 ex t ht, h'.2 ex t ht⟩⟩

/-! ### The allocator with a function that is registered -/

namespace Allocator

variable {cfg : AllocatorConfig} {s t : Allocator} {f : Fid} {d : Dict Fid ActiveFunction}

theorem getMinDemand_congr {g : Fid} (h : t.activeFuncs.get? g = s.activeFuncs.get? g) (i : Stage) :
    t.getMinDemand g i = s.getMinDemand g i := by
  simp only [getMinDemand, h]

/-- What the structures say does not depend on offsets, holes, markers, or functions that are placed
nowhere. -/
theorem Linked.congr (hs : Linked s) (hmap : t.allocationMap = s.allocationMap)
    (hmatrix : t.allocationMatrix = s.allocationMatrix) (hrev : t.revAllocationMap = s.revAllocationMap)
    (hal : t.allocation = s.allocation)
    (hfun : ∀ i, ∀ g ∈ s.allocationMap i, t.activeFuncs.get? g = s.activeFuncs.get? g) : Linked t := by
  refine ⟨?_, ?_, ?_, ?_, ?_⟩
  · rw [hmap]
    exact hs.zero_notMem
  · rw [hmap, hmatrix]
    exact hs.tenants_eq
  · intro i g hg
    rw [hmap] at hg
    rw [demand, getMinDemand_congr (hfun i g hg)]
    exact hs.demand_ok i g hg
  · rw [hmap, hrev]
    exact hs.rev
  · rw [hmap, hal]
    exact hs.occupied

/-- A function that is placed nowhere is registered. -/
theorem Coherent.marked (hs : Coherent cfg s) (hf : ∀ i, f ∉ s.allocationMap i)
    (hd : ∀ k ≠ f, d.get? k = s.activeFuncs.get? k) : Coherent cfg (s.marked f d) := by
  have hfun : ∀ i, ∀ g ∈ s.allocationMap i, (s.marked f d).activeFuncs.get? g = s.activeFuncs.get? g :=
    fun i g hg => hd g fun h => hf i (h ▸ hg)
  refine ⟨hs.toLinked.congr rfl rfl rfl rfl hfun, fun i => ?_⟩
  refine (hs.geometry i).congr fun g hg => ?_
  rw [hs.tenants_eq i] at hg
  rw [demand, getMinDemand_congr (hfun i g hg), demand]

/-- An arrival that has failed leaves the structures as they are. -/
theorem Linked.touched (hs : Linked s) (hf : ∀ i, f ∉ s.allocationMap i)
    (ht : Controller.Touched s f t) : Linked t := by
  rcases ht with rfl | ⟨d, e, fr, rfl, hd⟩
  · exact hs
  · exact hs.congr rfl rfl rfl rfl fun i g hg => hd g fun h => hf i (h ▸ hg)

/-- A function that is placed nowhere cannot be deallocated. -/
theorem Linked.deallocate_absent (hs : Linked s) (hf : ∀ i, f ∉ s.allocationMap i) :
    deallocate f s = .ok false s ∨ deallocate f s = .error .keyError s := by
  by_cases hreg : f ∈ s.activeFuncs.keys
  · refine Or.inr ?_
    have hnil : stagesOf s.allocationMap f = [] :=
      List.eq_nil_iff_forall_not_mem.2 fun i hi => hf i (mem_stagesOf.1 hi)
    rw [deallocate, if_neg (not_not.2 hreg), hs.rev f, if_pos hnil]
  · exact Or.inl (deallocate_of_notMem hreg)

end Allocator

namespace Switch

/-- **A departure leaves the replies and quotas of others alone.** -/
theorem leaves_removeFunction (f : Fid) {g : Fid} (hg : g ≠ f) :
    Leaves (fun sw => (sw.allocation.get? g, sw.quotaRecirc.get? g)) (removeFunction f) := by
  have hentries : ∀ p i, Leaves (fun sw : Switch => (sw.allocation.get? g, sw.quotaRecirc.get? g))
      (removeEntries p i) := fun p i =>
    leaves_part (leaves_removeEntries p i) fun r => (r.1.1.get? g, r.1.2.2.get? g)
  have hranges : ∀ k, Leaves (fun sw : Switch => (sw.allocation.get? g, sw.quotaRecirc.get? g))
      (changeAllocations k fun d => .ok (d.erase f)) := fun k =>
    leaves_part (leaves_changeAllocations k _) fun r => (r.1.1.get? g, r.1.2.2.get? g)
  refine (Leaves.forM fun i _ => hentries _ i).bind fun _ => ?_
  refine (Leaves.forM fun k _ => hentries _ _).bind fun _ => ?_
  refine (Leaves.forM fun k _ => (hentries _ _).bind fun _ => hranges k).bind fun _ => ?_
  refine Leaves.get.bind fun _ => Leaves.ite Leaves.pure ?_
  have hreply : Leaves (fun sw : Switch => (sw.allocation.get? g, sw.quotaRecirc.get? g))
      (changeAllocation fun d => .ok (d.erase f)) := fun sw =>
    ends_zoom.2 (ends_of_ok rfl (by simp only [Dict.get?_erase, if_neg hg]))
  have hquota : Leaves (fun sw : Switch => (sw.allocation.get? g, sw.quotaRecirc.get? g))
      (changeQuotaRecirc fun d => tableDelete d f) := fun sw =>
    ends_zoom.2 (ends_delete (fun _ => by simp only [Dict.get?_erase, if_neg hg]) fun _ => rfl)
  exact hreply.bind fun _ => hquota.bind fun _ => Leaves.pure

end Switch

namespace Controller

variable {cfg : ControllerConfig} {c c' : Controller}

/-! ### The invariant -/

/-- **The active functions that are placed have a reply and a quota.** -/
def Answered (c : Controller) : Prop :=
  ∀ f ∈ c.active, (∃ i, f ∈ c.allocator.allocationMap i) →
    f ∈ c.switch.allocation.keys ∧ f ∈ c.switch.quotaRecirc.keys

/-- **Who is placed is active or in progress.** -/
structure Housed (cfg : ControllerConfig) (c : Controller) : Prop where
  /-- The live structures agree. -/
  linked : c.allocator.Linked
  /-- Every stage has its geometry when nothing is in progress. -/
  coherent : c.queue = [] → c.allocator.Coherent cfg.allocator
  /-- Who is placed is active or in progress. -/
  placed : ∀ i, ∀ f ∈ c.allocator.allocationMap i, f ∈ c.active ∨ f ∈ c.queue
  /-- A queued allocation can be applied, and places only the function in progress besides those that
  are placed. -/
  plan : ∀ plan, c.allocator.queue = some plan →
    (c.allocator.applied plan).Coherent cfg.allocator ∧
      ∀ i, ∀ f ∈ plan.allocationMap i, f ∈ c.queue ∨ ∃ j, f ∈ c.allocator.allocationMap j
  /-- The active functions have their replies, unless an exception has stopped an allocation. -/
  answered : c.mutex = false ∨ c.queue = [] → Answered c

/-- What the invariant does not mention. -/
theorem Housed.congr (h : Housed cfg c) (hal : c'.allocator = c.allocator) (hact : c'.active = c.active)
    (hq : c'.queue = c.queue) (hreply : c'.switch.allocation = c.switch.allocation)
    (hquota : c'.switch.quotaRecirc = c.switch.quotaRecirc) (hm : c'.mutex = c.mutex) :
    Housed cfg c' := by
  refine ⟨?_, ?_, ?_, ?_, ?_⟩
  · rw [hal]
    exact h.linked
  · rw [hal, hq]
    exact h.coherent
  · rw [hal, hact, hq]
    exact h.placed
  · rw [hal, hq]
    exact h.plan
  · unfold Answered
    rw [hal, hact, hq, hreply, hquota, hm]
    exact h.answered

theorem housed_init : Housed cfg (init cfg) := by
  have hs := Allocator.consistent_init cfg.allocator
  refine ⟨hs.toLinked, fun _ => hs.toCoherent, ?_, ?_, ?_⟩
  · intro i f hf
    simp [init, Allocator.init] at hf
  · intro plan hplan
    simp [init, Allocator.init] at hplan
  · intro _ f hf
    simp [init] at hf

/-! ### Departures -/

/-- Taking a function off leaves the replies and quotas of the others. -/
theorem Answered.removed (ha : Answered c) {f : Fid} {sw : Switch}
    (hsw : ∀ g ≠ f, (sw.allocation.get? g, sw.quotaRecirc.get? g) =
      (c.switch.allocation.get? g, c.switch.quotaRecirc.get? g)) {s : Allocator}
    (hnot : ∀ i, f ∉ s.allocationMap i) (hsub : ∀ i, s.allocationMap i ⊆ c.allocator.allocationMap i) :
    Answered { c with switch := sw, allocator := s } := by
  intro g hg hplaced
  obtain ⟨i, hi⟩ := hplaced
  have hne : g ≠ f := fun heq => hnot i (heq ▸ hi)
  obtain ⟨hreply, hquota⟩ := Prod.ext_iff.1 (hsw g hne)
  have hold := ha g hg ⟨i, hsub i hi⟩
  simp only [Dict.mem_keys_iff] at hold ⊢
  dsimp only at hreply hquota
  rw [hreply, hquota]
  exact hold

/-- The invariant with other tables and an allocator that places fewer functions. -/
theorem Housed.removed (h : Housed cfg c) {sw : Switch} {s : Allocator} (hlinked : s.Linked)
    (hcoherent : c.queue = [] → s.Coherent cfg.allocator) (hnone : s.queue = none)
    (hsub : ∀ i, s.allocationMap i ⊆ c.allocator.allocationMap i)
    (hans : Answered { c with switch := sw, allocator := s }) :
    Housed cfg { c with switch := sw, allocator := s } := by
  refine ⟨hlinked, hcoherent, fun i g hg => h.placed i g (hsub i hg), ?_, fun _ => hans⟩
  intro plan hp
  exact absurd (hnone.symm.trans hp) (Option.some_ne_none plan).symm

/-- A departure of a function that is placed. -/
theorem ends_deallocate_placed (h : Housed cfg c) (ha : Answered c) (hplan : c.allocator.queue = none)
    {f : Fid} (hf : f ∈ c.active) (hplaced : ∃ i, f ∈ c.allocator.allocationMap i) :
    Ends (deallocate f) c
      (fun _ c' => (∃ sw s, c' = { c with switch := sw, allocator := s } ∧ s.queue = none) ∧
        Housed cfg c' ∧ Answered c' ∧ (∀ i, f ∉ c'.allocator.allocationMap i) ∧
        ∀ i, c'.allocator.allocationMap i ⊆ c.allocator.allocationMap i)
      fun c' => (∃ sw s, c' = { c with switch := sw, allocator := s } ∧ s.queue = none) ∧
        Housed cfg c' ∧ Answered c' := by
  have hdep := h.linked.deallocate_eq hplaced
  have hf0 := h.linked.ne_zero hplaced
  refine (ends_deallocate hf).mono ?_ ?_
  · intro _ c' hc'
    rcases hc' with ⟨sw, hsw, rfl⟩ | ⟨sw, b, s, hsw, hs, rfl⟩
    · -- the function has a reply, so the table is not empty
      have hempty := ((Switch.ends_removeFunction f c.switch).1 false sw hsw).2
      rw [if_neg Bool.false_ne_true] at hempty
      have hkeys := (ha f hf hplaced).1
      rw [Dict.keys, hempty.1] at hkeys
      exact absurd hkeys List.not_mem_nil
    · obtain ⟨-, rfl⟩ := EStateM.Result.ok.inj (hdep.symm.trans hs)
      have hnot : ∀ i, f ∉ (c.allocator.departed f).allocationMap i := fun i => by
        rw [Allocator.allocationMap_departed]
        exact Finset.notMem_erase f _
      have hsub : ∀ i, (c.allocator.departed f).allocationMap i ⊆ c.allocator.allocationMap i :=
        fun i => by
          rw [Allocator.allocationMap_departed]
          exact Finset.erase_subset f _
      have hans := ha.removed (fun g hg => (Switch.leaves_removeFunction f hg c.switch).1 true sw hsw)
        hnot hsub
      exact ⟨⟨sw, _, rfl, hplan⟩, h.removed (h.linked.departed hf0)
        (fun hq => (h.coherent hq).departed hf0) hplan hsub hans, hans, hnot, hsub⟩
  · intro c' hc'
    rcases hc' with ⟨ex, sw, hsw, rfl⟩ | ⟨sw, ex, s, -, hs, rfl⟩
    · obtain ⟨-, hquota, hreply⟩ := (Switch.ends_removeFunction f c.switch).2 ex sw hsw
      have hreply := hreply (ha f hf hplaced).2
      have hans : Answered { c with switch := sw } := by
        unfold Answered
        dsimp only
        rw [hreply, hquota]
        exact ha
      exact ⟨⟨sw, c.allocator, rfl, hplan⟩, h.congr rfl rfl rfl hreply hquota rfl, hans⟩
    · rw [hdep] at hs
      cases hs

/-- A departure of a function that is placed nowhere. -/
theorem ends_deallocate_absent (h : Housed cfg c) (ha : Answered c) (hplan : c.allocator.queue = none)
    {f : Fid} (hf : f ∈ c.active) (hnot : ∀ i, f ∉ c.allocator.allocationMap i) :
    Ends (deallocate f) c
      (fun _ c' => (∃ sw s, c' = { c with switch := sw, allocator := s } ∧ s.queue = none) ∧
        Housed cfg c' ∧ Answered c' ∧ (∀ i, f ∉ c'.allocator.allocationMap i) ∧
        ∀ i, c'.allocator.allocationMap i ⊆ c.allocator.allocationMap i)
      fun c' => (∃ sw s, c' = { c with switch := sw, allocator := s } ∧ s.queue = none) ∧
        Housed cfg c' ∧ Answered c' := by
  have hsub : ∀ i, c.allocator.allocationMap i ⊆ c.allocator.allocationMap i := fun i => subset_rfl
  -- the allocator does not change
  have hsame : ∀ sw, (∀ g ≠ f, (sw.allocation.get? g, sw.quotaRecirc.get? g) =
      (c.switch.allocation.get? g, c.switch.quotaRecirc.get? g)) →
      Housed cfg { c with switch := sw } ∧ Answered { c with switch := sw } := by
    intro sw hsw
    have hans := ha.removed hsw hnot hsub
    exact ⟨h.removed h.linked h.coherent hplan hsub hans, hans⟩
  have hleaves := fun g (hg : g ≠ f) => Switch.leaves_removeFunction f hg c.switch
  refine (ends_deallocate hf).mono ?_ ?_
  · intro _ c' hc'
    rcases hc' with ⟨sw, hsw, rfl⟩ | ⟨sw, b, s, hsw, hs, rfl⟩
    · obtain ⟨hhoused, hans⟩ := hsame sw fun g hg => (hleaves g hg).1 false sw hsw
      exact ⟨⟨sw, c.allocator, rfl, hplan⟩, hhoused, hans, hnot, hsub⟩
    · rcases h.linked.deallocate_absent hnot with heq | heq
      · obtain ⟨-, rfl⟩ := EStateM.Result.ok.inj (heq.symm.trans hs)
        obtain ⟨hhoused, hans⟩ := hsame sw fun g hg => (hleaves g hg).1 true sw hsw
        exact ⟨⟨sw, c.allocator, rfl, hplan⟩, hhoused, hans, hnot, hsub⟩
      · rw [heq] at hs
        cases hs
  · intro c' hc'
    rcases hc' with ⟨ex, sw, hsw, rfl⟩ | ⟨sw, ex, s, hsw, hs, rfl⟩
    · obtain ⟨hhoused, hans⟩ := hsame sw fun g hg => (hleaves g hg).2 ex sw hsw
      exact ⟨⟨sw, c.allocator, rfl, hplan⟩, hhoused, hans⟩
    · rcases h.linked.deallocate_absent hnot with heq | heq
      · rw [heq] at hs
        cases hs
      · obtain ⟨-, rfl⟩ := EStateM.Result.error.inj (heq.symm.trans hs)
        obtain ⟨hhoused, hans⟩ := hsame sw fun g hg => (hleaves g hg).1 true sw hsw
        exact ⟨⟨sw, c.allocator, rfl, hplan⟩, hhoused, hans⟩

/-- **A departure**: the function is placed nowhere afterwards, or an exception was raised. -/
theorem ends_deallocate_housed (h : Housed cfg c) (ha : Answered c) (hplan : c.allocator.queue = none)
    {f : Fid} (hf : f ∈ c.active) :
    Ends (deallocate f) c
      (fun _ c' => (∃ sw s, c' = { c with switch := sw, allocator := s } ∧ s.queue = none) ∧
        Housed cfg c' ∧ Answered c' ∧ (∀ i, f ∉ c'.allocator.allocationMap i) ∧
        ∀ i, c'.allocator.allocationMap i ⊆ c.allocator.allocationMap i)
      fun c' => (∃ sw s, c' = { c with switch := sw, allocator := s } ∧ s.queue = none) ∧
        Housed cfg c' ∧ Answered c' := by
  by_cases hplaced : ∃ i, f ∈ c.allocator.allocationMap i
  · exact ends_deallocate_placed h ha hplan hf hplaced
  · exact ends_deallocate_absent h ha hplan hf (not_exists.1 hplaced)

/-- A function that is placed nowhere is forgotten. -/
theorem Housed.forgets (h : Housed cfg c) {l : List Fid}
    (hl : ∀ i, ∀ f ∈ c.allocator.allocationMap i, f ∈ c.active → f ∈ l) (hsub : ∀ f ∈ l, f ∈ c.active) :
    Housed cfg { c with active := l } := by
  refine ⟨h.linked, h.coherent, fun i f hf => (h.placed i f hf).imp_left (hl i f hf), h.plan, ?_⟩
  exact fun hcalm f hf => h.answered hcalm f (hsub f hf)

/-- **The monitor starts a departure.** -/
theorem Housed.departs (h : Housed cfg c) (ho : Orderly c) (hq : c.queue = []) (req : Request) :
    Ends (do deallocate req.fid; leaveActive req.fid) c
      (fun _ c' => Housed cfg { c' with monitor := .waiting req })
      fun c' => Housed cfg { c' with monitor := .dead req } := by
  by_cases hact : req.fid ∈ c.active
  · refine ends_bind.2 ((ends_deallocate_housed h (h.answered (Or.inr hq)) (ho.quiet hq).2.2.1
      hact).mono ?_ ?_)
    · intro _ c₁ h₁
      obtain ⟨⟨sw, s, rfl, -⟩, hhoused, -, hnot, -⟩ := h₁
      unfold leaveActive
      refine ends_bind.2 (ends_get.2 (ends_ite (fun _ => ends_modify.2 ?_) fun hno => absurd hact hno))
      refine (hhoused.forgets (l := c.active.erase req.fid) ?_ ?_).congr rfl rfl rfl rfl rfl rfl
      · intro i f hf hmem
        have hne : f ≠ req.fid := by
          rintro rfl
          exact hnot i hf
        exact (List.mem_erase_of_ne hne).2 hmem
      · exact fun f hf => List.mem_of_mem_erase hf
    · intro c₁ h₁
      exact h₁.2.1.congr rfl rfl rfl rfl rfl rfl
  · unfold deallocate leaveActive
    refine ends_bind.2 (ends_bind.2 (ends_get.2 (ends_ite_neg hact (ends_pure.2 ?_))))
    refine ends_bind.2 (ends_get.2 (ends_ite_neg hact (ends_throw.2 ?_)))
    exact h.congr rfl rfl rfl rfl rfl rfl

/-- **A reset** while no allocation waits. -/
theorem Housed.reset (h : Housed cfg c) (hplan : c.allocator.queue = none) :
    Ends resetAllocation c (fun _ => Housed cfg) (Housed cfg) := by
  unfold resetAllocation
  refine ends_bind.2 (ends_get.2 (ends_ite (fun _ => ends_bind.2 (ends_throw.2 h)) fun hm => ?_))
  have hm : c.mutex = false := by simpa using hm
  have hans := h.answered (Or.inl hm)
  refine ends_bind.2 (ends_modify.2 (ends_bind.2 (ends_get.2 (ends_bind.2 ?_))))
  have hlocked : Housed cfg { c with mutex := true } :=
    ⟨h.linked, h.coherent, h.placed, h.plan, fun _ => hans⟩
  refine Ends.mono (Q := fun _ c' => (∃ sw s,
      c' = { c with switch := sw, allocator := s, mutex := true } ∧ s.queue = none) ∧
    Housed cfg c' ∧ Answered c' ∧ ∀ f ∈ c.active, ∀ i, f ∉ c'.allocator.allocationMap i) ?_ ?_ fun _ h => h
  · refine ends_forM (fun ps c' => (∃ sw s,
        c' = { c with switch := sw, allocator := s, mutex := true } ∧ s.queue = none) ∧
      Housed cfg c' ∧ Answered c' ∧ ∀ f ∈ ps, ∀ i, f ∉ c'.allocator.allocationMap i) ?_ c.active [] _ rfl
      ⟨⟨c.switch, c.allocator, rfl, hplan⟩, hlocked, hans, fun f hf => absurd hf List.not_mem_nil⟩
    intro ps f rest hps c₁ h₁
    obtain ⟨⟨sw₁, s₁, rfl, hnone₁⟩, hhoused₁, hans₁, hgone₁⟩ := h₁
    have hf : f ∈ c.active := by
      have hmem : f ∈ [] ++ c.active := hps ▸ List.mem_append_right _ (List.mem_cons_self ..)
      exact hmem
    refine (ends_deallocate_housed hhoused₁ hans₁ hnone₁ hf).mono ?_ fun _ h₂ => h₂.2.1
    intro _ c₂ h₂
    obtain ⟨⟨sw, s, rfl, hnone⟩, hhoused, hans, hnot, hsub⟩ := h₂
    refine ⟨⟨sw, s, rfl, hnone⟩, hhoused, hans, fun g hg i => ?_⟩
    rcases List.mem_append.1 hg with hg | hg
    · exact fun hi => hgone₁ g hg i (hsub i hi)
    · rw [List.mem_singleton.1 hg]
      exact hnot i
  · intro _ c₁ h₁
    obtain ⟨⟨sw, s, rfl, -⟩, hhoused, -, hgone⟩ := h₁
    refine ends_bind.2 (ends_modify.2 (ends_modify.2 ?_))
    have hempty := hhoused.forgets (l := []) (fun i f hf hmem => absurd hf (hgone f hmem i))
      fun f hf => absurd hf List.not_mem_nil
    simp only [foldl_erase_eq_nil]
    refine ⟨hempty.linked, hempty.coherent, hempty.placed, hempty.plan, fun _ f hf => ?_⟩
    exact absurd hf List.not_mem_nil

/-! ### Applying an allocation -/

/-- **An allocation is applied.** -/
theorem Housed.completed (h : Housed cfg c) {plan : Plan} {f : Fid} {r : Remaps}
    {sw : Switch} {v : Dict Fid ℕ} (hplan : c.allocator.queue = some plan) (hq : c.queue = [f])
    (hm : c.mutex = false) (hren : Renewed c f sw v) : Housed cfg (c.completed plan f r sw v) := by
  obtain ⟨hcoherent, hmap⟩ := h.plan plan hplan
  have hnil : c.queue.erase f = [] := by rw [hq]; simp
  have hold : ∀ i, ∀ g ∈ plan.allocationMap i, g = f ∨
      (g ∈ c.active ∧ ∃ j, g ∈ c.allocator.allocationMap j) := by
    intro i g hg
    rcases hmap i g hg with hqueue | ⟨j, hj⟩
    · rw [hq, List.mem_singleton] at hqueue
      exact Or.inl hqueue
    · rcases h.placed j g hj with hact | hqueue
      · exact Or.inr ⟨hact, j, hj⟩
      · rw [hq, List.mem_singleton] at hqueue
        exact Or.inl hqueue
  refine ⟨hcoherent.toLinked, fun _ => hcoherent, ?_, ?_, ?_⟩
  · intro i g hg
    refine Or.inl (List.mem_append.2 ?_)
    rcases hold i g hg with rfl | ⟨hact, -⟩
    · exact Or.inr (List.mem_singleton_self g)
    · exact Or.inl hact
  · intro plan' hplan'
    exact absurd hplan' (Option.some_ne_none plan').symm
  · intro _ g hg hplaced
    obtain ⟨i, hi⟩ := hplaced
    refine ⟨?_, ?_⟩
    · refine (hren.replies g).2 ?_
      rcases hold i g hi with rfl | ⟨hact, hplaced⟩
      · exact (hren.replies g).1 hren.reply
      · exact (h.answered (Or.inl hm) g hact hplaced).1
    · refine (hren.quota g).2 ?_
      exact (hold i g hi).imp id fun hg => (h.answered (Or.inl hm) g hg.1 hg.2).2

/-- **An exception while an allocation is applied.** -/
theorem Housed.stuck (h : Housed cfg c) {plan : Plan} {f : Fid} (r : Remaps) (sw : Switch)
    (v : Dict Fid ℕ) (hplan : c.allocator.queue = some plan) (hq : c.queue = [f]) :
    Housed cfg (c.stuck plan f r sw v) := by
  obtain ⟨hcoherent, hmap⟩ := h.plan plan hplan
  refine ⟨hcoherent.toLinked, fun _ => hcoherent, ?_, ?_, ?_⟩
  · intro i g hg
    rcases hmap i g hg with hqueue | ⟨j, hj⟩
    · exact Or.inr hqueue
    · exact h.placed j g hj
  · intro plan' hplan'
    exact absurd hplan' (Option.some_ne_none plan').symm
  · rintro (hm | hnil)
    · exact absurd hm (by simp [Controller.stuck])
    · have hnil : c.queue = [] := hnil
      rw [hq] at hnil
      cases hnil

/-- **The second half of a remap handler** that has read what can be resumed. -/
theorem Housed.finishAck (h : Housed cfg c) (ho : Orderly c) {a : Ack}
    (hres : ∀ f r, a.resume = some (f, r) → Resumable c f r) :
    Ends (finishAck cfg a) c (fun _ => Housed cfg) (Housed cfg) := by
  by_cases hidle : a.resume = none ∨ c.mutex = true ∨ c.remoteDrainInitiator = none
  · refine (ends_finishAck_idle hidle).mono ?_ ?_
    · intro _ c' hc'
      rw [hc'.1]
      exact h.congr rfl rfl rfl rfl rfl rfl
    · intro c' hc'
      rw [hc'.1]
      exact h
  · rw [not_or, not_or, ← ne_eq, Option.ne_none_iff_exists'] at hidle
    obtain ⟨⟨⟨f, r⟩, hr⟩, hm, hi⟩ := hidle
    obtain ⟨hf, hlast, hplan⟩ := ((hres f r hr).resolve_left hm).resolve_left hi
    have hm : c.mutex = false := by simpa using hm
    have hp := ho.pending_of_last hlast hplan
    obtain ⟨plan, hplan⟩ := Option.ne_none_iff_exists'.1 hplan
    obtain ⟨g, hg⟩ := hp.queueFid
    have hqueue := ho.queue_of_pending hp
    have hq : f ∈ c.queue := by rw [hqueue]; exact List.mem_singleton_self f
    refine (ends_finishAck hr hm hi hg hplan hq (ho.queue_new f hq).1).mono ?_ ?_
    · intro _ c' hc'
      obtain ⟨sw, v, rfl, hren⟩ := hc'
      exact (h.completed (r := r) hplan hqueue hm hren).congr rfl rfl rfl rfl rfl rfl
    · intro c' hc'
      obtain ⟨sw, v, ⟨rfl, -⟩ | ⟨rfl, hren, -⟩⟩ := hc'
      · exact h.stuck r sw v hplan hqueue
      · exact h.completed hplan hqueue hm hren

theorem Housed.readAck (h : Housed cfg c) (d : RemapDigest) :
    Ends (readAck d) c (fun _ => Housed cfg) (Housed cfg) := by
  refine (ends_readAck d c).mono ?_ ?_
  · intro a c' hread
    rcases hread with ⟨-, I, m, rfl, -⟩ | ⟨rs, m, -, -, -, -, -, rfl, -⟩
    · exact h.congr rfl rfl rfl rfl rfl rfl
    · exact h.congr rfl rfl rfl rfl rfl rfl
  · intro c' hfail
    obtain ⟨⟨I, T, m, rfl⟩, -⟩ := hfail
    exact h.congr rfl rfl rfl rfl rfl rfl

/-- **The timeout of the monitor.** -/
theorem Housed.onTimeout (h : Housed cfg c) (ho : Orderly c) {req : Request}
    (hm : c.monitor = .waiting req) (hreq : req.fid ∈ c.queue) :
    Ends (onTimeout cfg) c (fun _ c' => Housed cfg { c' with monitor := .leaving req })
      fun c' => Housed cfg { c' with monitor := .dead req } := by
  obtain ⟨f, r, hi, hlast, hremaps, hts, hplan⟩ := ho.waiting req hm (List.ne_nil_of_mem hreq)
  unfold Controller.onTimeout
  refine ends_bind.2 (ends_get.2 (ends_ite_neg (by rw [hts]; decide) ?_))
  refine ends_bind.2 (ends_get.2 ?_)
  rw [hremaps]
  refine ends_bind.2 ((ends_dropPeers r.keys c).mono ?_ ?_)
  · intro _ c₁ h₁
    obtain ⟨m, rfl, -⟩ := h₁
    have hdropped : Housed cfg (c.dropped r.keys m) := h.congr rfl rfl rfl rfl rfl rfl
    refine ends_bind.2 (ends_get.2 ?_)
    rw [show (c.dropped r.keys m).remoteDrainInitiator = some f from hi]
    by_cases hmut : c.mutex = true
    · refine (ends_resumeAllocation_idle (c := c.dropped r.keys m) f r (.inl hmut)).mono ?_ ?_
      · intro _ c' hc'
        exact absurd (hc'.2.symm.trans hmut) (by decide)
      · intro c' hc'
        rw [hc'.1]
        exact hdropped.congr rfl rfl rfl rfl rfl rfl
    · have hmut : c.mutex = false := by simpa using hmut
      have hp : Pending c f r := ho.pending_of_last hlast (hplan hmut)
      obtain ⟨plan, hplan⟩ := Option.ne_none_iff_exists'.1 (hplan hmut)
      obtain ⟨g, hg⟩ := hp.queueFid
      have hqueue := ho.queue_of_pending hp
      have hq : f ∈ c.queue := by rw [hqueue]; exact List.mem_singleton_self f
      have hi' : (c.dropped r.keys m).remoteDrainInitiator ≠ none := by
        rw [show (c.dropped r.keys m).remoteDrainInitiator = some f from hi]
        exact Option.some_ne_none f
      refine (ends_resumeAllocation (c := c.dropped r.keys m) r hmut hi' hg hplan hq
        (ho.queue_new f hq).1).mono ?_ ?_
      · intro _ c' hc'
        obtain ⟨sw, v, rfl, hren⟩ := hc'
        have hren' : Renewed c f { sw with remapCheck := c.switch.remapCheck } v :=
          ⟨rfl, hren.quota, hren.reply, hren.replies, hren.versions⟩
        exact (h.completed (r := r) hplan hqueue hmut hren').congr rfl rfl rfl rfl rfl rfl
      · intro c' hc'
        obtain ⟨sw, v, rfl, -⟩ := hc'
        exact (hdropped.stuck r sw v hplan hqueue).congr rfl rfl rfl rfl rfl rfl
  · intro c₁ h₁
    obtain ⟨Q, I, m, rfl, -⟩ := h₁
    exact h.congr rfl rfl rfl rfl rfl rfl

/-! ### Arrivals -/

/-- A request can be served: it is for a function, and asks for a block at least. -/
def Sane (req : Request) : Prop :=
  (req.allocate = true → 0 < req.fid) ∧ ∀ d ∈ req.minDemand, 1 ≤ d

theorem built_of_init {fid : Fid} {accessIdx : List ℕ} {igLim : ℤ} {progLen : ℕ} {minDemand : List ℕ}
    {allow : Bool} {af : ActiveFunction}
    (h : ActiveFunction.init fid accessIdx igLim progLen minDemand allow = .ok af) :
    ActiveFunction.init af.fid af.accessIdx af.igLim af.progLen af.minDemand af.allowRecirculations =
      .ok af := by
  have hbuilt := h
  unfold ActiveFunction.init at h
  split_ifs at h
  obtain rfl := Except.ok.inj h
  exact hbuilt

/-- **The function of a request** is a newcomer when it is placed nowhere. -/
theorem newcomer_of_activeFunction {req : Request} {af : ActiveFunction} {s : Allocator}
    (hfun : activeFunction cfg req = .ok af) (hsane : Sane req) (hal : req.allocate = true)
    (habsent : ∀ i, req.fid ∉ s.allocationMap i) : Allocator.Newcomer s af := by
  obtain ⟨-, hfid, hdemand⟩ := ActiveFunction.init_wellFormed hfun
  refine ⟨built_of_init hfun, ?_, ?_, ?_⟩
  · rw [hfid]
    exact habsent
  · rw [hfid]
    exact hsane.1 hal
  · rw [hdemand]
    exact hsane.2

/-- While no request waits, a function that is not active is placed nowhere. -/
theorem Housed.absent (h : Housed cfg c) (hq : c.queue = []) {f : Fid} (hf : f ∉ c.active) (i : Stage) :
    f ∉ c.allocator.allocationMap i := by
  intro hi
  rcases h.placed i _ hi with hact | hqueue
  · exact hf hact
  · rw [hq] at hqueue
    exact absurd hqueue List.not_mem_nil

/-- The state in which an allocation has been queued. -/
theorem Housed.issues (h : Housed cfg c) (hq : c.queue = []) {req : Request}
    (hsane : Sane req) (hal : req.allocate = true) (ha : req.fid ∉ c.active) {r : Remaps}
    {c₁ : Controller} (hissue : Issues cfg req c r c₁) :
    Housed cfg c₁ ∧ c₁.queue = [req.fid] ∧ c₁.mutex = c.mutex := by
  have habsent := h.absent hq ha
  cases hissue with
  | @intro af ch s₁ s₂ changes n p hfun hchoice hqueue =>
      have hfid := activeFunction_fid hfun
      have hnew := newcomer_of_activeFunction hfun hsane hal habsent
      obtain ⟨d, hs₁, hd⟩ := (Allocator.ends_computeAllocation _ _).1 _ _ hchoice
      obtain ⟨new, e, fr, -, -, -, hs₂⟩ := (Allocator.ends_enqueueAllocation _ _ _).1 _ _ hqueue
      obtain ⟨new', t, -, -, hs₂', hcoherent⟩ := (h.coherent hq).enqueue hnew hchoice hqueue
      obtain ⟨⟨-, -, -, hmap⟩, -⟩ := Allocator.computeAllocation_some hchoice
      have hqueue' : c.queue ++ [req.fid] = [req.fid] := by rw [hq]; rfl
      have hmaps : s₂.allocationMap = c.allocator.allocationMap := by rw [hs₂, hs₁]; rfl
      refine ⟨⟨?_, ?_, ?_, ?_, ?_⟩, hqueue', rfl⟩
      · show s₂.Linked
        rw [hs₂, hs₁]
        refine h.linked.congr rfl rfl rfl rfl fun i g hg => hd g ?_
        rw [hfid]
        rintro rfl
        exact habsent i hg
      · intro hnil
        have hnil : c.queue ++ [req.fid] = [] := hnil
        rw [hqueue'] at hnil
        cases hnil
      · intro i g hg
        have hg : g ∈ s₂.allocationMap i := hg
        rw [hmaps] at hg
        exact (h.placed i g hg).imp_right fun hmem => List.mem_append_left _ hmem
      · intro plan hplan
        have hplan : s₂.queue = some plan := hplan
        rw [hs₂'] at hplan
        obtain rfl := Option.some.inj hplan
        refine ⟨hcoherent, fun i g hg => ?_⟩
        have hg : g ∈ ch.allocationMap i := hg
        rw [hmap, Allocator.arrivalMap] at hg
        show g ∈ c.queue ++ [req.fid] ∨ ∃ j, g ∈ s₂.allocationMap j
        rw [hqueue', hmaps, List.mem_singleton, ← hfid]
        split_ifs at hg
        · exact (Finset.mem_insert.1 hg).imp_right fun hmem => ⟨i, hmem⟩
        · exact Or.inr ⟨i, hg⟩
      · intro _ g hg hplaced
        obtain ⟨i, hi⟩ := hplaced
        have hi : g ∈ s₂.allocationMap i := hi
        rw [hmaps] at hi
        obtain ⟨hreply, hquota⟩ := h.answered (Or.inr hq) g hg ⟨i, hi⟩
        exact ⟨(Dict.mem_keys_set ..).2 (Or.inr hreply), hquota⟩

/-- **The monitor starts an arrival.** -/
theorem Housed.allocate (h : Housed cfg c) (ho : Orderly c) (hq : c.queue = []) {req : Request}
    (hsane : Sane req) (hal : req.allocate = true) (ha : req.fid ∉ c.active) :
    Ends (allocate cfg req) c (fun _ c' => Housed cfg { c' with monitor := .waiting req })
      fun c' => Housed cfg { c' with monitor := .dead req } := by
  have hnone := (ho.quiet hq).2.2.1
  have habsent := h.absent hq ha
  have hnotq : req.fid ∉ c.queue := by
    rw [hq]
    exact List.not_mem_nil
  refine (ends_allocate hnotq ha).mono ?_ ?_
  · intro _ c' hret
    cases hret with
    | @refused af o s p hfun hchoice =>
        obtain ⟨d, rfl, hd⟩ := (Allocator.ends_computeAllocation _ _).1 _ _ hchoice
        rw [activeFunction_fid hfun] at hd
        have hcoherent := (h.coherent hq).marked habsent hd
        rw [← activeFunction_fid hfun] at hcoherent
        refine ⟨hcoherent.toLinked, fun _ => hcoherent, h.placed, ?_, fun _ => h.answered (Or.inr hq)⟩
        intro plan hplan
        exact absurd hplan (Option.some_ne_none plan).symm
    | @applied r c₁ plan sw v hissue hr hm hplan hren =>
        obtain ⟨h₁, hq₁, hm₁⟩ := h.issues hq hsane hal ha hissue
        have h₁' : Housed cfg { c₁ with monitor := .dead req } := h₁.congr rfl rfl rfl rfl rfl rfl
        have hren' : Renewed { c₁ with monitor := .dead req } req.fid sw v :=
          ⟨hren.remapCheck, hren.quota, hren.reply, hren.replies, hren.versions⟩
        exact (h₁'.completed (r := r) hplan hq₁ (hm₁.trans hm) hren').congr rfl rfl rfl rfl rfl rfl
    | @waits r c₁ m hissue hr htold =>
        obtain ⟨h₁, -, -⟩ := h.issues hq hsane hal ha hissue
        exact h₁.congr rfl rfl rfl rfl rfl rfl
  · intro c' hraise
    cases hraise with
    | @early d p s i hs hi hd =>
        refine ⟨h.linked.touched habsent hs, ?_, ?_, ?_, ?_⟩
        · intro hnil
          have hnil : c.queue ++ [req.fid] = [] := hnil
          rw [hq] at hnil
          cases hnil
        · intro j g hg
          have hg : g ∈ s.allocationMap j := hg
          rw [hs.allocationMap_eq] at hg
          exact (h.placed j g hg).imp_right fun hmem => List.mem_append_left _ hmem
        · intro plan hplan
          have hplan : s.queue = some plan := hplan
          rw [hs.queue_eq_none hnone] at hplan
          cases hplan
        · intro _ g hg hplaced
          obtain ⟨j, hj⟩ := hplaced
          have hj : g ∈ s.allocationMap j := hj
          rw [hs.allocationMap_eq] at hj
          obtain ⟨hreply, hquota⟩ := h.answered (Or.inr hq) g hg ⟨j, hj⟩
          exact ⟨hd g hreply, hquota⟩
    | blocked hissue hr hm =>
        exact (h.issues hq hsane hal ha hissue).1.congr rfl rfl rfl rfl rfl rfl
    | @stuck r c₁ plan sw v hissue hr hm hplan hsw =>
        obtain ⟨h₁, hq₁, -⟩ := h.issues hq hsane hal ha hissue
        exact (h₁.stuck r sw v hplan hq₁).congr rfl rfl rfl rfl rfl rfl
    | @partway r c₁ ps rest f m hissue hr hwhy =>
        obtain ⟨h₁, -, -⟩ := h.issues hq hsane hal ha hissue
        exact h₁.congr rfl rfl rfl rfl rfl rfl

/-! ### Runs -/

/-- **A reset keeps the invariant of the protocol.** -/
theorem Orderly.reset (h : Orderly c) : Ends resetAllocation c (fun _ => Orderly) Orderly := by
  refine (ends_resetAllocation c).mono ?_ ?_
  · intro _ c' hc'
    obtain ⟨-, sw, s, rfl, hf, hq⟩ := hc'
    have h₁ := h.irrelevant sw c.allocVersion c.remapTiming c.remoteDrainInit c.enqueued
      c.allocationRequests c.programDefs c.digestMutex c.resetThreads s hf hq
    refine ⟨List.nodup_nil, h₁.queue_eq, fun f hf => ⟨(h₁.queue_new f hf).1, List.not_mem_nil⟩,
      h₁.initiator_queue, h₁.waiting, h₁.drained, h₁.draining, ?_, h₁.applied_nodup, h₁.applied_match,
      h₁.unapplied, h₁.inFlight⟩
    intro hplan
    obtain ⟨f, r, hp⟩ := h₁.pending hplan
    exact ⟨f, r, hp.initiator, hp.last, hp.drain, hp.fresh, hp.queueFid⟩
  · intro c' hc'
    obtain ⟨sw, s, rfl, hf, hq⟩ := hc'
    have h₁ := h.irrelevant sw c.allocVersion c.remapTiming c.remoteDrainInit c.enqueued
      c.allocationRequests c.programDefs c.digestMutex c.resetThreads s hf hq
    refine ⟨h₁.active_nodup, h₁.queue_eq, h₁.queue_new, h₁.initiator_queue, ?_, h₁.drained, ?_, ?_,
      h₁.applied_nodup, h₁.applied_match, h₁.unapplied, ?_⟩
    · intro req hreq hne
      obtain ⟨g, rs, h1, h2, h3, h4, -⟩ := h₁.waiting req hreq hne
      exact ⟨g, rs, h1, h2, h3, h4, fun hm => absurd hm (by simp)⟩
    · exact fun hm => absurd hm (by simp)
    · intro hplan
      obtain ⟨f, r, hp⟩ := h₁.pending hplan
      exact ⟨f, r, hp.initiator, hp.last, hp.drain, hp.fresh, hp.queueFid⟩
    · exact fun a g rs ha hr => ⟨(h₁.inFlight a g rs ha hr).1, Or.inl rfl⟩

/-- **No reset while an allocation waits.**  The identifier `0` stands for free memory, and the monitor
takes no request while a remap handler is between its two halves. -/
def Calm (c : Controller) : Event → Prop
  | .malloc d => d.fid ≠ 0
  | .take => c.inFlight = none
  | .reset => c.allocator.queue = none
  | .remapAck _ | .ackRead _ | .ackFinish | .timeout | .finish => True

instance (c : Controller) (e : Event) : Decidable (c.Calm e) :=
  match e with
  | .malloc d => inferInstanceAs (Decidable (d.fid ≠ 0))
  | .take => decidable_of_iff (c.inFlight.isNone = true) Option.isNone_iff_eq_none
  | .reset => decidable_of_iff (c.allocator.queue.isNone = true) Option.isNone_iff_eq_none
  | .remapAck _ | .ackRead _ | .ackFinish | .timeout | .finish => .isTrue trivial

/-- **A step keeps the invariant of the protocol**, a reset as well, when the monitor takes no request
while a remap handler is between its two halves. -/
theorem Orderly.step_of_free {e : Event} (h : Orderly c) (hstep : Step cfg c e c')
    (hfree : e = .take → c.inFlight = none) : Orderly c' := by
  by_cases hreset : e = .reset
  · subst hreset
    have h' : Orderly { c with resetThreads := c.resetThreads - 1 } :=
      h.irrelevant _ _ _ _ _ _ _ _ _ _ rfl rfl
    obtain ⟨-, hc⟩ := hstep
    rcases hc with ⟨u, hu⟩ | ⟨ex, hex⟩
    · exact h'.reset.1 u c' hu
    · exact h'.reset.2 ex c' hex
  · refine h.step hreset (fun htake req rest _ _ _ a ha => ?_) hstep
    exact absurd ((hfree htake).symm.trans ha) (Option.some_ne_none a).symm

/-- A digest that is not for the identifier `0` is a request that can be served. -/
theorem sane_request {d : MallocDigest} (hd : d.fid ≠ 0) : Sane d.request := by
  refine ⟨fun _ => Nat.pos_of_ne_zero hd, fun n hn => ?_⟩
  obtain ⟨p, hp, rfl⟩ := List.mem_map.1 hn
  have hpos := List.mem_takeWhile_imp hp
  exact of_decide_eq_true hpos

/-- **Every step without a reset while an allocation waits keeps the invariant**, exceptions included. -/
theorem Housed.step {e : Event} (h : Housed cfg c) (ho : Orderly c)
    (hsane : ∀ req ∈ c.allocationRequests, Sane req) (hstep : Step cfg c e c') (hcalm : c.Calm e) :
    Housed cfg c' := by
  obtain ⟨hen, hperform⟩ := hstep
  suffices hends : Ends (perform cfg e) c (fun _ => Housed cfg) (Housed cfg) by
    rcases hperform with ⟨u, hu⟩ | ⟨ex, hex⟩
    · exact hends.1 u c' hu
    · exact hends.2 ex c' hex
  cases e with
  | malloc d =>
      show Ends (onMallocRequest d) c (fun _ => Housed cfg) (Housed cfg)
      unfold onMallocRequest
      refine ends_modify.2 ?_
      dsimp only
      split_ifs
      · exact h.congr rfl rfl rfl rfl rfl rfl
      · exact h
      · exact h
      · exact h.congr rfl rfl rfl rfl rfl rfl
  | remapAck d =>
      show Ends (onRemapAck cfg d) c (fun _ => Housed cfg) (Housed cfg)
      unfold onRemapAck
      refine ends_bind.2 ((Ends.and (ho.readAck d) (h.readAck d)).mono ?_ fun _ h => h.2)
      rintro a c₁ ⟨⟨ho₁, -, hres⟩, h₁⟩
      cases a with
      | none => exact ends_pure.2 h₁
      | some a => exact h₁.finishAck ho₁ fun f r hr => (hres a f r rfl hr).2
  | ackRead d =>
      refine ends_bind.2 ((h.readAck d).mono ?_ fun _ h => h)
      intro a c₁ h₁
      exact ends_modify.2 (h₁.congr rfl rfl rfl rfl rfl rfl)
  | ackFinish =>
      obtain ⟨a, ha⟩ := Option.ne_none_iff_exists'.1 hen
      have heq : perform cfg .ackFinish c =
          Controller.finishAck cfg a { c with inFlight := none } := by
        simp only [perform, ha]
      have ho₁ : Orderly { c with inFlight := none } :=
        ho.flies fun b _ _ hb => absurd hb (Option.some_ne_none b).symm
      have h₁ : Housed cfg { c with inFlight := none } := h.congr rfl rfl rfl rfl rfl rfl
      have hends := h₁.finishAck ho₁ fun f r hr => (ho.inFlight a f r ha hr).2
      exact ⟨fun u t ht => hends.1 u t (heq.symm.trans ht),
        fun ex t ht => hends.2 ex t (heq.symm.trans ht)⟩
  | take =>
      have hq := ho.queue_of_idle hen.1
      show Ends (takeRequest cfg) c (fun _ => Housed cfg) (Housed cfg)
      cases hreq : c.allocationRequests with
      | nil => exact absurd hreq hen.2
      | cons req rest =>
          have h₁ : Housed cfg { c with allocationRequests := rest } :=
            h.congr rfl rfl rfl rfl rfl rfl
          have ho₁ : Orderly { c with allocationRequests := rest } :=
            ho.irrelevant _ _ _ _ _ rest _ _ _ _ rfl rfl
          refine ends_takeRequest hreq (fun hal ha => ?_) ?_ h₁
          · have hreq' := hsane req (by rw [hreq]; exact List.mem_cons_self)
            exact ends_monitorStep (h₁.allocate ho₁ hq hreq' hal ha)
          · exact ends_monitorStep (h₁.departs ho₁ hq req)
  | timeout =>
      obtain ⟨req, hm, hreq⟩ := hen
      have heq : perform cfg .timeout c =
          monitorStep req (.leaving req) (Controller.onTimeout cfg) c := by
        simp only [perform, hm]
      have hends : Ends (monitorStep req (.leaving req) (Controller.onTimeout cfg)) c
          (fun _ => Housed cfg) (Housed cfg) := ends_monitorStep (h.onTimeout ho hm hreq)
      exact ⟨fun u t ht => hends.1 u t (heq.symm.trans ht),
        fun ex t ht => hends.2 ex t (heq.symm.trans ht)⟩
  | finish =>
      obtain ⟨req, hreq⟩ := hen
      have hcur : c.monitor.current = some req := by
        rcases hreq with ⟨hm, -⟩ | hm <;> rw [hm] <;> rfl
      have heq : perform cfg .finish c =
          .ok () { c with enqueued := c.enqueued.erase req.fid, monitor := .idle } := by
        simp only [perform, hcur]
        rfl
      exact ends_of_ok heq (h.congr rfl rfl rfl rfl rfl rfl)
  | reset =>
      have h₁ : Housed cfg { c with resetThreads := c.resetThreads - 1 } :=
        h.congr rfl rfl rfl rfl rfl rfl
      exact h₁.reset hcalm

/-- The invariants of a run without a reset while an allocation waits. -/
theorem housed_of_run {es : List Event}
    (h : Run (fun c e c' => Step cfg c e c' ∧ c.Calm e) (init cfg) es c) : Orderly c ∧ Housed cfg c := by
  have hall := h.invariant
    (I := fun c => Orderly c ∧ Housed cfg c ∧ ∀ req ∈ c.allocationRequests, Sane req) ?_
    ⟨orderly_init cfg, housed_init, fun req hreq => absurd hreq List.not_mem_nil⟩
  · exact ⟨hall.1, hall.2.1⟩
  · rintro c₁ e c₂ ⟨ho, hh, hsane⟩ ⟨hstep, hcalm⟩
    have hfree : e = .take → c₁.inFlight = none := by
      rintro rfl
      exact hcalm
    refine ⟨ho.step_of_free hstep hfree, hh.step ho hsane hstep hcalm, fun req hreq => ?_⟩
    rcases mem_requests_of_step hstep hreq with hreq | ⟨d, rfl, rfl⟩
    · exact hsane req hreq
    · exact sane_request hcalm

/-- **Whoever is placed is registered, and active or in progress**, in every run without a reset while an
allocation waits; so its demand is known. -/
theorem placed_registered {es : List Event}
    (h : Run (fun c e c' => Step cfg c e c' ∧ c.Calm e) (init cfg) es c) {f : Fid} {i : Stage}
    (hf : f ∈ c.allocator.allocationMap i ∨ f ≠ 0 ∧ f ∈ c.allocator.allocationMatrix i) :
    f ∈ c.allocator.activeFuncs.keys ∧ (f ∈ c.active ∨ f ∈ c.queue) ∧
      ∃ d, c.allocator.getMinDemand f i = .ok d := by
  obtain ⟨-, hh⟩ := housed_of_run h
  have hmem : f ∈ c.allocator.allocationMap i := by
    rcases hf with hf | ⟨hf0, hf⟩
    · exact hf
    · rw [← hh.linked.tenants_eq i, Allocator.mem_tenants_iff_mem (Nat.pos_of_ne_zero hf0)]
      exact hf
  exact ⟨hh.linked.mem_activeFuncs hmem, hh.placed i f hmem, _, (hh.linked.demand_ok i f hmem).1⟩

/-- A function arrives, another one arrives and moves it; then there is a reset. -/
def roundAndReset : List Event :=
  [.malloc (arrival 1 1), .take, .finish, .malloc (arrival 2 2), .take, .remapAck (acknowledgement 1),
    .finish, .malloc (departure 255), .malloc (departure 2), .take, .reset]

/-- A run with a reset between allocations, seen after its first round. -/
theorem placed_registered_round :
    ∃ c i, Run (fun c e c' => Step smallConfig c e c' ∧ c.Calm e) (init smallConfig)
        (roundAndReset.take 6) c ∧ 1 ∈ c.allocator.allocationMap i ∧
      1 ∈ c.allocator.activeFuncs.keys ∧ (1 ∈ c.active ∨ 1 ∈ c.queue) ∧
        ∃ d, c.allocator.getMinDemand 1 i = .ok d := by
  have hrun : ((roundAndReset.take 6).foldlM
      (fun c e => if Calm c e then execute smallConfig [e] c else none) (init smallConfig)).map
        (fun c => decide (1 ∈ c.allocator.allocationMap 0)) = some true := by decide +kernel
  obtain ⟨c, hc, hend⟩ := Option.map_eq_some_iff.1 hrun
  have hmem := of_decide_eq_true hend
  have hrun := (run_of_foldlM hc).mono fun _ _ _ h => (⟨step_of_execute h.1, h.2⟩ : _ ∧ _)
  exact ⟨c, 0, hrun, hmem, placed_registered hrun (Or.inl hmem)⟩

/-- A reset while an allocation waits for the function that it moves. -/
def resetInRound : List Event :=
  [.malloc (arrival 1 1), .take, .finish, .malloc (arrival 2 2), .take, .malloc (departure 255), .reset,
    .remapAck (acknowledgement 1)]

/-- The state after a step, whether or not it raises an exception. -/
def next (cfg : ControllerConfig) (c : Controller) (e : Event) : Option Controller :=
  if enabled c e then
    match perform cfg e c with
    | .ok _ c' | .error _ c' => some c'
  else none

theorem step_of_next {e : Event} (h : next cfg c e = some c') : Step cfg c e c' := by
  unfold next at h
  split_ifs at h with he
  cases hp : perform cfg e c with
  | ok u c₁ =>
      rw [hp] at h
      obtain rfl := Option.some.inj h
      exact ⟨enabled_of_eq_true he, Or.inl ⟨u, hp⟩⟩
  | error ex c₁ =>
      rw [hp] at h
      obtain rfl := Option.some.inj h
      exact ⟨enabled_of_eq_true he, Or.inr ⟨ex, hp⟩⟩

/-- **A reset while an allocation waits brings a function back**: it is placed, and neither registered
nor active nor in progress. -/
theorem resurrected :
    ∃ c i, Run (Step smallConfig) (init smallConfig) resetInRound c ∧
      1 ∈ c.allocator.allocationMap i ∧ 1 ∉ c.allocator.activeFuncs.keys ∧ 1 ∉ c.active ∧ 1 ∉ c.queue ∧
        c.allocator.getMinDemand 1 i = .error .assertionError := by
  have hrun : (resetInRound.foldlM (next smallConfig) (init smallConfig)).map
        (fun c => decide (1 ∈ c.allocator.allocationMap 0 ∧ 1 ∉ c.allocator.activeFuncs.keys ∧
          1 ∉ c.active ∧ 1 ∉ c.queue ∧ c.allocator.getMinDemand 1 0 = .error .assertionError)) =
      some true := by decide +kernel
  obtain ⟨c, hc, hend⟩ := Option.map_eq_some_iff.1 hrun
  exact ⟨c, 0, (Run.of_foldlM hc).mono fun _ _ _ h => step_of_next h, of_decide_eq_true hend⟩

end Controller

end ActiveRmt
