/-
**The departure of a function.**

`deallocate` takes a function off stage by stage.  At a stage where the function is inelastic it
lowers the offset when the blocks given back are the topmost ones below it, and records a hole
otherwise.  On a consistent state none of its lookups can fail, so that the whole departure has a
closed form.

Main definitions:

* `Allocator.leftOffset`, `Allocator.leftFrags` — the offset and the holes of a stage after a
  departure;
* `Allocator.departed` — the state after a departure.

Main results:

* `Allocator.deallocate_eq` — **a departure from a consistent state succeeds**, with the state
  `departed`; the departure of a function that is not there changes nothing;
* `Allocator.Consistent.departed` — it keeps the state consistent.
-/

import ActiveRmt.Arrivals

set_option relaxedAutoImplicit false
set_option autoImplicit false

namespace ActiveRmt

open Blocks

namespace Allocator

variable {cfg : AllocatorConfig}

/-! ### One stage -/

/-- The offset of a stage after the departure of `f` with demand `d`. -/
def leftOffset (col : List ℕ) (e d : ℕ) (f : Fid) : ℕ :=
  if d ≠ 1 ∧ endOf col f = e then e - (blocksOf col f).length else e

/-- The holes of a stage after the departure of `f` with demand `d`. -/
def leftFrags (col : List ℕ) (e d : ℕ) (f : Fid) (frags : List Fragment) : List Fragment :=
  if d ≠ 1 ∧ endOf col f ≠ e then
    frags ++ [⟨endOf col f - (blocksOf col f).length, (blocksOf col f).length⟩]
  else frags

theorem length_blocksOf {col : List ℕ} {f : Fid} {a l : ℕ} (h : Owns col f a l) (hf : f ≠ 0) :
    (blocksOf col f).length = l := by
  rw [h.blocksOf_eq hf, List.length_range']

theorem endOf_eq {col : List ℕ} {f : Fid} {a l : ℕ} (h : Owns col f a l) (hf : f ≠ 0)
    (hl : 0 < l) : endOf col f = a + l := by
  rw [endOf, h.blocksOf_eq hf, List.getLast?_range']
  rw [if_neg hl.ne']
  simp only [Option.map_some, Option.getD_some]
  omega

theorem FreeRun.release {col : List ℕ} {a l : ℕ} (h : FreeRun col a l) (f : Fid) :
    FreeRun (release col f) a l := by
  intro j hj hjl
  rw [owner_release, h j hj hjl]
  split_ifs <;> rfl

theorem owns_release {col : List ℕ} {f g : Fid} {a l : ℕ} (h : Owns col g a l) (hg : g ≠ 0)
    (hgf : g ≠ f) : Owns (release col f) g a l := by
  intro j
  rw [owner_release, ← h j]
  split_ifs with hj
  · constructor
    · intro h0
      exact absurd h0.symm hg
    · intro hj'
      exact absurd (hj'.symm.trans hj) hgf
  · rfl

/-- **The geometry of a stage after a departure.** -/
theorem StageInv.release {n e : ℕ} {δ δ' : Fid → ℕ} {col : List ℕ} {frags : List Fragment}
    (h : StageInv n δ col e frags) {f : Fid} (hf : f ∈ tenants col)
    (hδ : ∀ g ∈ tenants col, g ≠ f → δ' g = δ g) :
    StageInv n δ' (release col f) (leftOffset col e (δ f) f) (leftFrags col e (δ f) f frags) := by
  have hf0 := (mem_tenants_iff.1 hf).1
  obtain ⟨a, l, hl, how⟩ := h.exists_owns hf
  have hend := endOf_eq how hf0 hl
  have hlen := length_blocksOf how hf0
  have hle : leftOffset col e (δ f) f ≤ e := by
    unfold leftOffset
    split_ifs <;> omega
  -- blocks that are not among those given back stay below the offset
  have hbelow : ∀ b m, 0 < m → b + m ≤ e → owner col (b + m - 1) ≠ f →
      b + m ≤ leftOffset col e (δ f) f := by
    intro b m hm hbm hne
    unfold leftOffset
    split_ifs with hcase
    · rw [hend] at hcase
      by_contra hgt
      exact hne ((how _).2 ⟨by omega, by omega⟩)
    · exact hbm
  have hmem : ∀ g, g ∈ tenants (Blocks.release col f) → g ≠ f ∧ g ∈ tenants col := by
    intro g hg
    rw [tenants_release, Finset.mem_erase] at hg
    exact hg
  refine ⟨by rw [length_release, h.length_eq], hle.trans h.offset_le, ?_, ?_, ?_, ?_⟩
  · intro g hg
    obtain ⟨hgf, hg⟩ := hmem g hg
    rw [hδ g hg hgf]
    exact h.demand_pos g hg
  · intro g hg
    obtain ⟨hgf, hg⟩ := hmem g hg
    rw [hδ g hg hgf]
    intro hg1
    obtain ⟨b, hbe, hob⟩ := h.pinned g hg hg1
    have hlast : owner col (b + δ g - 1) = g := (hob _).2 ⟨by omega, by omega⟩
    exact ⟨b, hbelow b (δ g) (by omega) hbe (by rw [hlast]; exact hgf),
      owns_release hob (mem_tenants_iff.1 hg).1 hgf⟩
  · intro g hg
    obtain ⟨hgf, hg⟩ := hmem g hg
    rw [hδ g hg hgf]
    intro hg1
    obtain ⟨b, m, hm, heb, hob⟩ := h.elastic g hg hg1
    exact ⟨b, m, hm, by omega, owns_release hob (mem_tenants_iff.1 hg).1 hgf⟩
  · have hold : ∀ fr ∈ frags, 0 < fr.size → fr.start + fr.size.toNat ≤ leftOffset col e (δ f) f ∧
        FreeRun (Blocks.release col f) fr.start fr.size.toNat := by
      intro fr hfr hpos
      obtain ⟨hfe, hfree⟩ := h.hole fr hfr hpos
      refine ⟨hbelow _ _ (by omega) hfe ?_, FreeRun.release hfree f⟩
      rw [hfree _ (by omega) (by omega)]
      exact Ne.symm hf0
    intro fr hfr hpos
    rw [leftFrags] at hfr
    split_ifs at hfr with hcase
    · rcases List.mem_append.1 hfr with hfr | hfr
      · exact hold fr hfr hpos
      · -- the blocks given back
        obtain rfl := List.mem_singleton.1 hfr
        have hδf : 1 < δ f := lt_of_le_of_ne (h.demand_pos f hf) (Ne.symm hcase.1)
        obtain ⟨b, hbe, hob⟩ := h.pinned f hf hδf
        obtain ⟨rfl, rfl⟩ := how.unique hob hl
        simp only [hend, hlen, Int.toNat_natCast, Nat.add_sub_cancel]
        refine ⟨?_, ?_⟩
        · rw [leftOffset, if_neg (by rw [hend]; rw [hend] at hcase; tauto)]
          exact hbe
        · intro j hj hjl
          rw [owner_release, if_pos ((how j).2 ⟨hj, hjl⟩)]
    · exact hold fr hfr hpos

/-! ### All stages -/

/-- The state in which `f` has left the stages `ps`. -/
def leaving (s : Allocator) (f : Fid) (ps : List Stage) : Allocator :=
  { s with
    allocation := s.allocation.filter fun i => ¬(i ∈ ps ∧ (s.allocationMap i).erase f = ∅)
    allocationMap := fun i => if i ∈ ps then (s.allocationMap i).erase f else s.allocationMap i
    allocationMatrix := fun i =>
      if i ∈ ps then release (s.allocationMatrix i) f else s.allocationMatrix i
    elasticOffset := fun i =>
      if i ∈ ps then leftOffset (s.allocationMatrix i) (s.elasticOffset i) (s.demand i f) f
      else s.elasticOffset i
    fragmentation := fun i =>
      if i ∈ ps then leftFrags (s.allocationMatrix i) (s.elasticOffset i) (s.demand i f) f
        (s.fragmentation i)
      else s.fragmentation i }

/-- **The state after the departure of `f`.** -/
def departed (s : Allocator) (f : Fid) : Allocator :=
  { s.leaving f (stagesOf s.allocationMap f) with
    revAllocationMap := s.revAllocationMap.erase f
    activeFuncs := s.activeFuncs.erase f }

/-- Updating one more stage. -/
theorem update_ite_mem {β : Type} {ps : List Stage} {i : Stage} (x y : Stage → β) :
    Function.update (fun j => if j ∈ ps then x j else y j) i (x i) =
      fun j => if j ∈ ps ++ [i] then x j else y j := by
  funext j
  by_cases hj : j = i
  · subst hj
    simp
  · simp [hj]

/-- A stage at which nothing changes. -/
theorem ite_mem_snoc {β : Type} {ps : List Stage} {i : Stage} (x y : Stage → β) (h : x i = y i) :
    (fun j => if j ∈ ps then x j else y j) = fun j => if j ∈ ps ++ [i] then x j else y j := by
  funext j
  by_cases hj : j = i
  · subst hj
    simp [h]
  · simp [hj]

/-- **One stage of a departure**, when no lookup fails. -/
theorem deallocateAt_eq {s : Allocator} {f : Fid} {i : Stage} {d : ℕ}
    (hd : s.getMinDemand f i = .ok d) (hf : f ∈ s.allocationMap i)
    (hi : ¬(tenants (release (s.allocationMatrix i) f) = ∅ ∧ i ∉ s.allocation)) :
    deallocateAt f i s = .ok ()
      { s with
        allocation := if tenants (release (s.allocationMatrix i) f) = ∅ then s.allocation.erase i
          else s.allocation
        allocationMap := Function.update s.allocationMap i ((s.allocationMap i).erase f)
        allocationMatrix :=
          Function.update s.allocationMatrix i (release (s.allocationMatrix i) f)
        elasticOffset := Function.update s.elasticOffset i
          (leftOffset (s.allocationMatrix i) (s.elasticOffset i) d f)
        fragmentation := Function.update s.fragmentation i
          (leftFrags (s.allocationMatrix i) (s.elasticOffset i) d f (s.fragmentation i)) } := by
  unfold deallocateAt
  rw [hd]
  simp only [hf, hi, not_true_eq_false, if_false]
  unfold leftOffset leftFrags
  by_cases hempty : tenants (release (s.allocationMatrix i) f) = ∅ <;>
    by_cases hd1 : d = 1 <;>
    by_cases hend : endOf (s.allocationMatrix i) f = s.elasticOffset i <;>
    simp [hempty, hd1, hend]

section Leave

variable {s : Allocator} {f : Fid}

/-- One stage of a departure, in whatever order the stages are taken. -/
theorem deallocateAt_leaving {ps : List Stage} {i : Stage}
    (hdem : s.getMinDemand f i = .ok (s.demand i f))
    (hten : tenants (s.allocationMatrix i) = s.allocationMap i) (hocc : i ∈ s.allocation)
    (hi : i ∉ ps) (hf : f ∈ s.allocationMap i) :
    deallocateAt f i (s.leaving f ps) = .ok () (s.leaving f (ps ++ [i])) := by
  have hdem : (s.leaving f ps).getMinDemand f i = .ok (s.demand i f) := hdem
  have hmap : (s.leaving f ps).allocationMap i = s.allocationMap i := by simp [leaving, hi]
  have hmat : (s.leaving f ps).allocationMatrix i = s.allocationMatrix i := by simp [leaving, hi]
  have hoff : (s.leaving f ps).elasticOffset i = s.elasticOffset i := by simp [leaving, hi]
  have hfrag : (s.leaving f ps).fragmentation i = s.fragmentation i := by simp [leaving, hi]
  have halloc : i ∈ (s.leaving f ps).allocation := by
    simp only [leaving, Finset.mem_filter, hi, false_and, not_false_eq_true, and_true]
    exact hocc
  have hempty : tenants (release (s.allocationMatrix i) f) = ∅ ↔ (s.allocationMap i).erase f = ∅ := by
    rw [tenants_release, hten]
  have hleft : (if tenants (release (s.allocationMatrix i) f) = ∅
        then (s.leaving f ps).allocation.erase i else (s.leaving f ps).allocation) =
      (s.leaving f (ps ++ [i])).allocation := by
    ext j
    by_cases hj : j = i
    · subst hj
      by_cases he : (s.allocationMap j).erase f = ∅ <;> simp [hempty, he, leaving, hi]
    · split_ifs <;> simp [leaving, hj]
  have hm : Function.update (s.leaving f ps).allocationMap i ((s.allocationMap i).erase f) =
      (s.leaving f (ps ++ [i])).allocationMap :=
    update_ite_mem (fun i => (s.allocationMap i).erase f) _
  have hx : Function.update (s.leaving f ps).allocationMatrix i (release (s.allocationMatrix i) f) =
      (s.leaving f (ps ++ [i])).allocationMatrix :=
    update_ite_mem (fun i => release (s.allocationMatrix i) f) _
  have ho : Function.update (s.leaving f ps).elasticOffset i
      (leftOffset (s.allocationMatrix i) (s.elasticOffset i) (s.demand i f) f) =
      (s.leaving f (ps ++ [i])).elasticOffset :=
    update_ite_mem (fun i => leftOffset (s.allocationMatrix i) (s.elasticOffset i) (s.demand i f) f) _
  have hg : Function.update (s.leaving f ps).fragmentation i
      (leftFrags (s.allocationMatrix i) (s.elasticOffset i) (s.demand i f) f (s.fragmentation i)) =
      (s.leaving f (ps ++ [i])).fragmentation :=
    update_ite_mem (fun i => leftFrags (s.allocationMatrix i) (s.elasticOffset i) (s.demand i f) f
      (s.fragmentation i)) _
  rw [deallocateAt_eq hdem (by rw [hmap]; exact hf) (fun h => h.2 halloc), hmap, hmat, hoff, hfrag, hleft, hm, hx,
    ho, hg]
  rfl

/-- A function that is placed is registered. -/
theorem Linked.mem_activeFuncs (hs : Linked s) {i : Stage} (hi : f ∈ s.allocationMap i) :
    f ∈ s.activeFuncs.keys := by
  have hdem := (hs.demand_ok i f hi).1
  rw [Dict.mem_keys_iff]
  cases hget : s.activeFuncs.get? f with
  | none => simp [getMinDemand, hget] at hdem
  | some af => exact ⟨af, rfl⟩

/-- **A departure succeeds in whatever order the stages of the function are listed.** -/
theorem deallocate_listed {l : List Stage} (hactive : f ∈ s.activeFuncs.keys)
    (hrev : s.revAllocationMap.get? f = some l) (hl : l.Perm (stagesOf s.allocationMap f))
    (hdem : ∀ i, f ∈ s.allocationMap i → s.getMinDemand f i = .ok (s.demand i f))
    (hten : ∀ i, tenants (s.allocationMatrix i) = s.allocationMap i)
    (hocc : ∀ i, i ∈ s.allocation ↔ s.allocationMap i ≠ ∅) :
    deallocate f s = .ok true (s.departed f) := by
  have hnodup : l.Nodup := hl.nodup_iff.2 (nodup_stages.filter _)
  have hloop : l.forM (deallocateAt f) s = .ok ⟨⟩ (s.leaving f l) := by
    obtain ⟨t, ht, rfl⟩ := forM_total (f := deallocateAt f) (l := l)
      (fun ps t => t = s.leaving f ps) (by
        rintro ps j rest hps _ rfl
        have hj : f ∈ s.allocationMap j := mem_stagesOf.1 (hl.mem_iff.1 (hps ▸ by simp))
        have hnot : j ∉ ps := by
          rw [hps] at hnodup
          exact fun hmem => List.disjoint_of_nodup_append hnodup hmem (List.mem_cons_self ..)
        have hin : j ∈ s.allocation := (hocc j).2 (Finset.ne_empty_of_mem hj)
        exact ⟨_, deallocateAt_leaving (hdem j hj) (hten j) hin hnot hj, rfl⟩)
      l [] s rfl (by simp [leaving])
    exact ht
  -- which stages are left does not depend on their order
  have hleave : s.leaving f l = s.leaving f (stagesOf s.allocationMap f) := by
    simp only [leaving, hl.mem_iff]
  unfold deallocate
  rw [if_neg (not_not.2 hactive), hrev]
  simp only [hloop, hleave]
  rfl

/-- **The departure of a function that is placed succeeds.** -/
theorem Linked.deallocate_eq (hs : Linked s) (hf : ∃ i, f ∈ s.allocationMap i) :
    deallocate f s = .ok true (s.departed f) := by
  obtain ⟨i, hi⟩ := hf
  have hne : stagesOf s.allocationMap f ≠ [] := List.ne_nil_of_mem (mem_stagesOf.2 hi)
  have hrev := hs.rev f
  rw [if_neg hne] at hrev
  exact deallocate_listed (hs.mem_activeFuncs hi) hrev (List.Perm.refl _)
    (fun i hi => (hs.demand_ok i f hi).1) hs.tenants_eq hs.occupied

theorem deallocate_of_notMem (hf : f ∉ s.activeFuncs.keys) : deallocate f s = .ok false s := by
  rw [deallocate, if_pos hf]

theorem getMinDemand_departed_of_ne {g : Fid} (hg : g ≠ f) (i : Stage) :
    (s.departed f).getMinDemand g i = s.getMinDemand g i := by
  simp only [getMinDemand, departed, Dict.get?_erase, if_neg hg]

/-- The map after a departure. -/
theorem allocationMap_departed (i : Stage) :
    (s.departed f).allocationMap i = (s.allocationMap i).erase f := by
  simp only [departed, leaving, mem_stagesOf]
  split_ifs with hi
  · rfl
  · rw [Finset.erase_eq_of_notMem hi]

/-- The stages after a departure. -/
theorem stagesOf_departed (g : Fid) : stagesOf (s.departed f).allocationMap g =
    if g = f then [] else stagesOf s.allocationMap g := by
  split_ifs with hg
  · subst hg
    refine List.eq_nil_iff_forall_not_mem.2 fun i hi => ?_
    rw [mem_stagesOf, allocationMap_departed] at hi
    exact Finset.notMem_erase _ _ hi
  · unfold stagesOf
    refine List.filter_congr fun i _ => ?_
    rw [allocationMap_departed]
    simp [hg]

/-- The columns after a departure. -/
theorem Linked.allocationMatrix_departed (hs : Linked s) (hf : f ≠ 0) (i : Stage) :
    (s.departed f).allocationMatrix i = release (s.allocationMatrix i) f := by
  simp only [departed, leaving, mem_stagesOf]
  split_ifs with hi
  · rfl
  · refine ext_owner (by rw [length_release]) fun j => ?_
    rw [owner_release, if_neg]
    rintro rfl
    rw [← hs.tenants_eq i] at hi
    exact hi (mem_tenants_iff.2 ⟨hf, j, rfl⟩)

theorem elasticOffset_departed (i : Stage) :
    (s.departed f).elasticOffset i = if f ∈ s.allocationMap i then
      leftOffset (s.allocationMatrix i) (s.elasticOffset i) (s.demand i f) f
      else s.elasticOffset i := by
  simp only [departed, leaving, mem_stagesOf]

theorem fragmentation_departed (i : Stage) :
    (s.departed f).fragmentation i = if f ∈ s.allocationMap i then
      leftFrags (s.allocationMatrix i) (s.elasticOffset i) (s.demand i f) f (s.fragmentation i)
      else s.fragmentation i := by
  simp only [departed, leaving, mem_stagesOf]

theorem Linked.ne_zero (hs : Linked s) (hf : ∃ i, f ∈ s.allocationMap i) : f ≠ 0 := by
  obtain ⟨i, hi⟩ := hf
  rintro rfl
  exact hs.zero_notMem i hi

theorem demand_departed_of_ne {g : Fid} (hg : g ≠ f) (i : Stage) :
    (s.departed f).demand i g = s.demand i g := by
  rw [demand, getMinDemand_departed_of_ne hg, demand]

/-- **After a departure the structures still agree.** -/
theorem Linked.departed (hs : Linked s) (hf0 : f ≠ 0) : Linked (s.departed f) := by
  have hdem : ∀ (i : Stage) (g : Fid), g ≠ f → (s.departed f).demand i g = s.demand i g :=
    fun i g hg => demand_departed_of_ne hg i
  refine ⟨?_, ?_, ?_, ?_, ?_⟩
  · intro i h0
    rw [allocationMap_departed] at h0
    exact hs.zero_notMem i (Finset.mem_of_mem_erase h0)
  · intro i
    rw [allocationMap_departed, hs.allocationMatrix_departed hf0, tenants_release, hs.tenants_eq i]
  · intro i g hg
    rw [allocationMap_departed, Finset.mem_erase] at hg
    rw [getMinDemand_departed_of_ne hg.1, hdem i g hg.1]
    exact hs.demand_ok i g hg.2
  · intro g
    have hrev : (s.departed f).revAllocationMap.get? g = (s.revAllocationMap.erase f).get? g := rfl
    rw [hrev, Dict.get?_erase, hs.rev g]
    rw [stagesOf_departed]
    by_cases hg : g = f <;> simp [hg]
  · intro i
    have hocc : (s.departed f).allocation = s.allocation.filter fun i =>
        ¬(i ∈ stagesOf s.allocationMap f ∧ (s.allocationMap i).erase f = ∅) := rfl
    rw [hocc, allocationMap_departed, Finset.mem_filter, hs.occupied i, mem_stagesOf]
    by_cases hi : f ∈ s.allocationMap i
    · simp only [hi, true_and, and_iff_right_iff_imp]
      intro _
      exact Finset.ne_empty_of_mem hi
    · simp [hi]

/-- **A departure keeps the geometry of every stage.** -/
theorem Coherent.departed (hs : Coherent cfg s) (hf0 : f ≠ 0) : Coherent cfg (s.departed f) := by
  refine ⟨hs.toLinked.departed hf0, fun i => ?_⟩
  rw [hs.allocationMatrix_departed hf0, elasticOffset_departed, fragmentation_departed]
  have hten := hs.tenants_eq i
  split_ifs with hi
  · exact (hs.geometry i).release (by rw [hten]; exact hi) fun g _ hg => demand_departed_of_ne hg i
  · -- a stage without the function is not touched
    have hsame : release (s.allocationMatrix i) f = s.allocationMatrix i := by
      rw [← hs.allocationMatrix_departed hf0]
      simp [Allocator.departed, leaving, mem_stagesOf, hi]
    rw [hsame]
    refine (hs.geometry i).congr fun g hg => demand_departed_of_ne ?_ i
    rintro rfl
    exact hi (hten ▸ hg)

/-- **A departure keeps the state consistent.** -/
theorem Consistent.departed (hs : Consistent cfg s) (hf : f ∈ s.activeFuncs.keys) :
    Consistent cfg (s.departed f) := by
  refine ⟨hs.toCoherent.departed (hs.ne_zero ((hs.active f).1 hf)), fun g => ?_⟩
  have hact : (s.departed f).activeFuncs.keys = (s.activeFuncs.erase f).keys := rfl
  rw [hact, Dict.mem_keys_erase, hs.active g]
  constructor
  · rintro ⟨hg, i, hi⟩
    exact ⟨i, by rw [allocationMap_departed]; exact Finset.mem_erase.2 ⟨hg, hi⟩⟩
  · rintro ⟨i, hi⟩
    rw [allocationMap_departed, Finset.mem_erase] at hi
    exact ⟨hi.1, i, hi.2⟩

end Leave

end Allocator

end ActiveRmt
