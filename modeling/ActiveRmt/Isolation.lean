/-
**Every function has memory of its own.**

The blocks that the instruction tables let a function access are changed by the controller, and the blocks
that belong to it by the allocator; the two meet when a queued allocation is applied, and the remaps that
were announced long before are all that tells the tables what has changed.

Main definitions:

* `GrantTable.Fits` — **whoever is placed is granted memory, and only memory that belongs to it**;
* `Allocator.Report` — what the remaps of a queued allocation say of the new columns;
* `Controller.Secure`, `Controller.Guarded` — the tables fit the live columns, and the plan its report;
* `Switch.InBlock` — an address is in a block.

Main results:

* `GrantTable.Fits.applied`, `GrantTable.Fits.departed` — an allocation, and a departure;
* `Controller.Guarded.step` — every step without a reset while an allocation waits;
* `Controller.memory_isolated` — **no address may be accessed by two functions**;
* `Controller.placed_granted` — **whoever is placed may access memory of its own at each of its stages**.
-/

import ActiveRmt.GrantTable
import ActiveRmt.Remapping
import ActiveRmt.Confinement

set_option relaxedAutoImplicit false
set_option autoImplicit false

namespace ActiveRmt

open Blocks
open Allocator (Remaps)

/-! ### Plans and their remaps -/

namespace Allocator

/-- **What the remaps of a queued allocation say of the new columns.**  `old` are the live columns and
`new` the queued ones, in which `f` is new. -/
structure Report (old new : Stage → List ℕ) (f : Fid) (remaps : Remaps) : Prop where
  /-- The columns have as many blocks. -/
  length_eq : ∀ i, (new i).length = (old i).length
  /-- Free memory is not a function. -/
  ne_zero : f ≠ 0
  /-- The new function is placed nowhere. -/
  fresh : ∀ i, f ∉ tenants (old i)
  /-- Nobody else is new. -/
  tenants_new : ∀ i, ∀ h ∈ tenants (new i), h = f ∨ h ∈ tenants (old i)
  /-- The blocks of a function are a run. -/
  runs : ∀ i, ∀ h ∈ tenants (new i), ∃ a n, 0 < n ∧ Owns (new i) h a n
  /-- The new function is not remapped. -/
  unreported : remaps.get? f = none
  /-- A remap has the new blocks of its function. -/
  reported : ∀ h l, remaps.get? h = some l → ∀ r ∈ l, h ∈ tenants (new r.fromStage) ∧
    r.newAlloc = blocksOf (new r.fromStage) h
  /-- A function without a remap keeps its blocks. -/
  kept : ∀ i h, h ≠ 0 → ¬Reported remaps h i → ∀ k, owner (old i) k = h → owner (new i) k = h

variable {cfg : AllocatorConfig} {s : Allocator}

/-- The blocks of a function, by stage. -/
theorem get?_getAllocationBlocks (s : Allocator) (f : Fid) (i : Stage) :
    (s.getAllocationBlocks f).get? i =
      if blocksOf (s.allocationMatrix i) f = [] then none else some (blocksOf (s.allocationMatrix i) f) := by
  have hfold : s.getAllocationBlocks f =
      (stages.filter fun j => blocksOf (s.allocationMatrix j) f ≠ []).foldl
        (fun d j => d.set j (blocksOf (s.allocationMatrix j) f)) Dict.empty := by
    rw [List.foldl_filter, getAllocationBlocks]
    congr 1
    funext d j
    by_cases hnil : blocksOf (s.allocationMatrix j) f = [] <;> simp [hnil]
  have hnodup : ((stages.filter fun j => blocksOf (s.allocationMatrix j) f ≠ []).map fun j => j).Nodup := by
    rw [List.map_id']
    exact nodup_stages.filter _
  have hget := fun y => Dict.get?_foldl_set (d := Dict.empty) (x := i) (y := y) (fun j => j)
    (fun j => blocksOf (s.allocationMatrix j) f) hnodup
  rw [hfold]
  split_ifs with hnil
  · refine Option.eq_none_iff_forall_ne_some.2 fun y hy => ?_
    rcases (hget y).1 hy with ⟨j, hj, rfl, -⟩ | ⟨-, hy⟩
    · exact of_decide_eq_true (List.mem_filter.1 hj).2 hnil
    · exact absurd hy (by simp)
  · exact (hget _).2 (.inl ⟨i, List.mem_filter.2 ⟨mem_stages i, decide_eq_true hnil⟩, rfl, rfl⟩)

/-- A function has blocks where it is placed. -/
theorem blocksOf_ne_nil_iff {col : List ℕ} {f : Fid} (hf : f ≠ 0) :
    blocksOf col f ≠ [] ↔ f ∈ tenants col := by
  rw [mem_tenants_iff]
  constructor
  · intro hne
    obtain ⟨k, hk⟩ := List.exists_mem_of_ne_nil _ hne
    exact ⟨hf, k, (mem_blocksOf.1 hk).2⟩
  · rintro ⟨-, k, hk⟩
    refine List.ne_nil_of_mem (mem_blocksOf.2 ⟨lt_length_of_owner_ne ?_, hk⟩)
    rwa [hk]

/-- **The report of an arrival** says what changes. -/
theorem Coherent.report (hs : Coherent cfg s) {af : ActiveFunction} (ha : Newcomer s af)
    {ch : Choice} {s₁ s₂ : Allocator} (hc : computeAllocation cfg af s = .ok (some ch) s₁)
    {r : Dict Fid (List (Stage × Stage × Bool)) × Remaps × ℕ}
    (he : enqueueAllocation cfg ch.allocation ch.allocationMap s₁ = .ok r s₂) {plan : Plan}
    (hplan : s₂.queue = some plan) :
    Report s.allocationMatrix plan.allocationMatrix af.fid r.2.1 := by
  obtain ⟨new, t, hsw, hrem, rfl, hcoherent⟩ := hs.enqueue ha hc he
  obtain rfl := Option.some.inj hplan
  obtain ⟨⟨-, hv, -, hmap⟩, -⟩ := computeAllocation_some hc
  have hr := hs.ready ha hv
  rw [hmap] at hsw
  have hplaced := fun i => hr.placed (hsw.done i (mem_stages i))
  have hsub : ∀ i, tenants (s.allocationMatrix i) ⊆ tenants (new i) := fun i => by
    rw [(hplaced i).tenants_eq]
    exact hr.tenants_subset i
  have htenants : ∀ i, ∀ h ∈ tenants (new i), h = af.fid ∨ h ∈ tenants (s.allocationMatrix i) := by
    intro i h hh
    rw [(hplaced i).tenants_eq, arrivalMap] at hh
    rw [hs.tenants_eq i]
    split_ifs at hh
    · exact Finset.mem_insert.1 hh
    · exact .inr hh
  have hfresh : ∀ i, af.fid ∉ tenants (s.allocationMatrix i) := fun i => by
    rw [hs.tenants_eq i]
    exact ha.absent i
  -- the functions that are remapped have a block now
  have happ : ∀ {h : Fid} {i : Stage}, i ∈ (s.register af ch.optimal).affectedStages new h → h ≠ 0 →
      h ∈ tenants (s.allocationMatrix i) := by
    intro h i hi hh
    obtain ⟨-, k, hk, -⟩ := mem_affectedStages.1 hi
    exact (blocksOf_ne_nil_iff hh).1 (List.ne_nil_of_mem hk)
  have hne : ∀ {h : Fid}, h ∈ (s.register af ch.optimal).elasticApps → h ≠ 0 := by
    intro h hh
    obtain ⟨i, hi, -⟩ := mem_elasticApps.1 hh
    exact (mem_tenants_iff.1 hi).1
  have hlength : ∀ i, (new i).length = (s.allocationMatrix i).length := fun i =>
    (hplaced i).inv.length_eq.trans (hs.geometry i).length_eq.symm
  refine ⟨hlength, ha.pos.ne', hfresh, htenants, fun i h hh => (hcoherent.geometry i).exists_owns hh, ?_, ?_, ?_⟩
  · refine Option.eq_none_iff_forall_ne_some.2 fun l hl => ?_
    rw [hrem] at hl
    obtain ⟨hmem, -⟩ := get?_remapsFor.1 hl
    obtain ⟨i, hi, -⟩ := mem_elasticApps.1 hmem
    exact hfresh i hi
  · intro h l hl rm hrm
    rw [hrem] at hl
    obtain ⟨hmem, -, rfl⟩ := get?_remapsFor.1 hl
    obtain ⟨i, hi, rfl⟩ := List.mem_map.1 hrm
    exact ⟨hsub i (happ hi (hne hmem)), rfl⟩
  · intro i h hh hnot k hk
    have hmem : h ∈ tenants (s.allocationMatrix i) := mem_tenants_iff.2 ⟨hh, k, hk⟩
    have hmap : h ∈ s.allocationMap i := hs.tenants_eq i ▸ hmem
    rw [hrem, reported_iff, not_and_or] at hnot
    obtain ⟨hdemand, hpos⟩ := hs.demand_ok i h hmap
    have hregister := getMinDemand_register_of_ne (s := s) (v := ch.optimal) (ha.ne_of_mem hmap) i
    rcases hpos.lt_or_eq with hlt | heq
    · -- an inelastic function keeps its blocks
      refine ((hplaced i).pinned h hmem ?_ k).2 hk
      rwa [ha.demand_register_of_mem hmap]
    · have hel : (s.register af ch.optimal).isElastic h i = true := by
        rw [isElastic, hregister, hdemand, ← heq]
        rfl
      have hin : h ∈ (s.register af ch.optimal).elasticApps := mem_elasticApps.2 ⟨i, hmem, hel⟩
      by_contra hlost
      refine hnot.elim (fun hno => hno hin) fun hno => hno (mem_affectedStages.2 ⟨hel, k, ?_, hlost⟩)
      have hlen : k < (s.allocationMatrix i).length := lt_length_of_owner_ne (by rwa [hk])
      exact mem_blocksOf.2 ⟨hlen, hk⟩

end Allocator

/-! ### Grants and columns -/

namespace GrantTable

open Allocator (Report)

/-- What a function is granted in a column: a run of blocks that belong to it. -/
structure Within (col : List ℕ) (f : Fid) (blocks : List ℕ) : Prop where
  /-- Free memory is granted to nobody. -/
  ne_zero : f ≠ 0
  /-- The blocks are a run. -/
  run : ∃ a n, 0 < n ∧ blocks = List.range' a n
  /-- They belong to the function. -/
  owned : ∀ k ∈ blocks, owner col k = f

theorem Within.mem_tenants {col : List ℕ} {f : Fid} {blocks : List ℕ} (h : Within col f blocks) :
    f ∈ tenants col := by
  obtain ⟨a, n, hn, rfl⟩ := h.run
  refine mem_tenants_iff.2 ⟨h.ne_zero, a, h.owned a ?_⟩
  exact List.mem_range'_1.2 ⟨le_rfl, by omega⟩

/-- **Whoever is placed is granted memory, and only memory that belongs to it**, in columns of `n`
blocks. -/
structure Fits (n : ℕ) (g : GrantTable) (cols : Stage → List ℕ) : Prop where
  /-- The columns have their blocks. -/
  sized : ∀ i, (cols i).length = n
  /-- Whoever is placed has a grant. -/
  placed : ∀ i, ∀ f ∈ tenants (cols i), ∃ blocks, g i f = some blocks
  /-- It is for memory of the function. -/
  within : ∀ i f blocks, g i f = some blocks → Within (cols i) f blocks

variable {n : ℕ} {g : GrantTable} {old new : Stage → List ℕ} {f : Fid} {remaps : Remaps}

theorem fits_zeros (cfg : AllocatorConfig) :
    Fits cfg.maxOccupancy (fun _ _ => none) (Allocator.zeros cfg) := by
  refine ⟨fun _ => List.length_replicate, fun i f hf => ?_, fun i f blocks hg => absurd hg (by simp)⟩
  obtain ⟨hf0, k, hk⟩ := mem_tenants_iff.1 hf
  exact absurd (hk.symm.trans (owner_replicate _ k)) hf0

/-- Who is placed nowhere has no grants. -/
theorem Fits.eq_none (h : Fits n g old) {i : Stage} (hf : f ∉ tenants (old i)) : g i f = none :=
  Option.eq_none_iff_forall_ne_some.2 fun _ hg => hf (h.within i f _ hg).mem_tenants

/-- The grants after an allocation has been applied. -/
def reallocated (g : GrantTable) (remaps : Remaps) (f : Fid) (allocation : Dict Stage (List ℕ)) :
    GrantTable :=
  (g.puts (Switch.grantsOf (Switch.remappedStages remaps))).puts
    (Switch.newGrants f allocation.items)

/-- **An allocation is applied**: who is remapped is granted its new blocks. -/
theorem Fits.applied (h : Fits n g old) (hr : Report old new f remaps) {s : Allocator}
    (hs : s.allocationMatrix = new) : Fits n (g.reallocated remaps f (s.getAllocationBlocks f)) new := by
  classical
  have hnew : ∀ {i blocks}, (i, blocks) ∈ (s.getAllocationBlocks f).items ↔
      f ∈ tenants (new i) ∧ blocks = blocksOf (new i) f := fun {i blocks} => by
    rw [Dict.mem_items_iff, Allocator.get?_getAllocationBlocks, hs, ← Allocator.blocksOf_ne_nil_iff hr.ne_zero]
    split_ifs with hnil <;> simp [hnil, eq_comm]
  -- what a function is granted: its new blocks, or what it was granted before
  have happly : ∀ i h', g.reallocated remaps f (s.getAllocationBlocks f) i h' =
      if h' = f ∧ f ∈ tenants (new i) ∨ Allocator.Reported remaps h' i then some (blocksOf (new i) h')
      else g i h' := by
    intro i h'
    rw [reallocated, puts_apply (fun i h' => some (blocksOf (new i) h')),
      puts_apply (fun i h' => some (blocksOf (new i) h'))]
    · have hfirst : (∃ p ∈ Switch.newGrants f (s.getAllocationBlocks f).items, p.1 = i ∧ p.2.1 = h') ↔
          h' = f ∧ f ∈ tenants (new i) := by
        constructor
        · rintro ⟨p, hp, rfl, rfl⟩
          obtain ⟨q, hq, rfl⟩ := List.mem_map.1 hp
          exact ⟨rfl, (hnew.1 hq).1⟩
        · rintro ⟨rfl, hmem⟩
          exact ⟨_, List.mem_map_of_mem (hnew.2 ⟨hmem, rfl⟩), rfl, rfl⟩
      have hsecond : (∃ p ∈ Switch.grantsOf (Switch.remappedStages remaps), p.1 = i ∧ p.2.1 = h') ↔
          Allocator.Reported remaps h' i := by
        constructor
        · rintro ⟨p, hp, rfl, rfl⟩
          obtain ⟨l, hl, rm, hrm, hfrom, -⟩ := Switch.mem_grantsOf.1 hp
          exact ⟨l, hl, rm, hrm, hfrom⟩
        · rintro ⟨l, hl, rm, hrm, hfrom⟩
          exact ⟨(i, h', some rm.newAlloc), Switch.mem_grantsOf.2 ⟨l, hl, rm, hrm, hfrom, rfl⟩, rfl, rfl⟩
      rw [if_congr hfirst rfl rfl, if_congr hsecond rfl rfl, ite_or]
    · intro p hp
      obtain ⟨l, hl, rm, hrm, hfrom, hblocks⟩ := Switch.mem_grantsOf.1 hp
      rw [hblocks, (hr.reported _ l hl rm hrm).2, hfrom]
    · intro p hp
      obtain ⟨q, hq, rfl⟩ := List.mem_map.1 hp
      rw [(hnew.1 hq).2]
  refine ⟨fun i => (hr.length_eq i).trans (h.sized i), fun i h' hh => ?_, fun i h' blocks hg => ?_⟩
  · rw [happly]
    split_ifs with hcase
    · exact ⟨_, rfl⟩
    · rcases hr.tenants_new i h' hh with rfl | hold
      · exact absurd (.inl ⟨rfl, hh⟩) hcase
      · exact h.placed i h' hold
  · rw [happly] at hg
    split_ifs at hg with hcase
    · have hmem : h' ∈ tenants (new i) := by
        rcases hcase with ⟨rfl, hmem⟩ | ⟨l, hl, rm, hrm, rfl⟩
        · exact hmem
        · exact (hr.reported h' l hl rm hrm).1
      obtain rfl := Option.some.inj hg
      have h0 := (mem_tenants_iff.1 hmem).1
      obtain ⟨a, l, hl, hown⟩ := hr.runs i h' hmem
      exact ⟨h0, ⟨a, l, hl, hown.blocksOf_eq h0⟩, fun k hk => (mem_blocksOf.1 hk).2⟩
    · have hwithin := h.within i h' blocks hg
      exact ⟨hwithin.ne_zero, hwithin.run, fun k hk =>
        hr.kept i h' hwithin.ne_zero (fun hrep => hcase (.inr hrep)) k (hwithin.owned k hk)⟩

/-- **A departure**: the others are granted what they were. -/
theorem Fits.departed (h : Fits n g old) (f : Fid) : Fits n (g.revoke f) fun i => release (old i) f := by
  refine ⟨fun i => by rw [length_release, h.sized i], fun i h' hh => ?_, fun i h' blocks hg => ?_⟩
  · rw [tenants_release] at hh
    obtain ⟨hne, hmem⟩ := Finset.mem_erase.1 hh
    rw [revoke_apply, if_neg hne]
    exact h.placed i h' hmem
  · rw [revoke_apply] at hg
    split_ifs at hg with hne
    have hwithin := h.within i h' blocks hg
    refine ⟨hwithin.ne_zero, hwithin.run, fun k hk => ?_⟩
    have hown := hwithin.owned k hk
    rw [owner_release, if_neg (by rwa [hown]), hown]

/-- Taking nothing away. -/
theorem Fits.revoke (h : Fits n g old) (hf : ∀ i, f ∉ tenants (old i)) : g.revoke f = g := by
  funext i h'
  rw [revoke_apply]
  split_ifs with heq
  · rw [heq, h.eq_none (hf i)]
  · rfl

end GrantTable

/-! ### The invariant -/

namespace Controller

open Allocator (Report)
open Switch (Represents)

variable {cfg : ControllerConfig} {c c' : Controller}

/-- **The tables fit the columns.** -/
def Secure (cfg : ControllerConfig) (sw : Switch) (s : Allocator) : Prop :=
  ∃ g, Represents cfg.blockSize sw g ∧ GrantTable.Fits cfg.allocator.maxOccupancy g s.allocationMatrix

theorem Secure.congr {sw sw' : Switch} {s s' : Allocator} (h : Secure cfg sw s)
    (hsw : Switch.programs sw' = Switch.programs sw)
    (hs : s'.allocationMatrix = s.allocationMatrix) : Secure cfg sw' s' := by
  obtain ⟨g, hg, hfits⟩ := h
  exact ⟨g, hg.congr hsw, hs ▸ hfits⟩

/-- **The tables fit the live columns, and a queued allocation its report**, unless an exception has left
the lock held. -/
structure Guarded (cfg : ControllerConfig) (c : Controller) : Prop where
  /-- The tables fit the live columns. -/
  secure : c.mutex = false → Secure cfg c.switch c.allocator
  /-- What was announced is what will be applied. -/
  report : ∀ plan f r, c.allocator.queue = some plan → c.issued.getLast? = some (f, r) →
    Report c.allocator.allocationMatrix plan.allocationMatrix f r

theorem guarded_init (cfg : ControllerConfig) : Guarded cfg (init cfg) :=
  ⟨fun _ => ⟨_, Switch.represents_init cfg.blockSize, GrantTable.fits_zeros cfg.allocator⟩,
    fun plan _ _ hplan => absurd hplan (Option.some_ne_none plan).symm⟩

/-- What the invariant does not mention. -/
theorem Guarded.congr (h : Guarded cfg c) (hal : c'.allocator = c.allocator)
    (hissued : c'.issued = c.issued) (hsw : Switch.programs c'.switch = Switch.programs c.switch)
    (hm : c'.mutex = c.mutex) : Guarded cfg c' := by
  refine ⟨fun hfree => ?_, ?_⟩
  · exact (h.secure (hm ▸ hfree)).congr hsw (by rw [hal])
  · rw [hal, hissued]
    exact h.report

/-- Nothing is queued. -/
theorem guarded_of_secure (h : c.mutex = false → Secure cfg c.switch c.allocator)
    (hplan : c.allocator.queue = none) : Guarded cfg c :=
  ⟨h, fun plan _ _ hp => absurd (hplan.symm.trans hp) (Option.some_ne_none plan).symm⟩

/-! ### Departures -/

/-- **A departure leaves the tables right**, whether or not an exception is raised. -/
theorem Secure.deallocate (h : Housed cfg c) (ha : Answered c)
    (hs : Secure cfg c.switch c.allocator) {f : Fid} (hf : f ∈ c.active) :
    Ends (deallocate f) c (fun _ c' => Secure cfg c'.switch c'.allocator)
      fun c' => Secure cfg c'.switch c'.allocator := by
  obtain ⟨g, hg, hfits⟩ := hs
  by_cases hplaced : ∃ i, f ∈ c.allocator.allocationMap i
  · have hdep := h.linked.deallocate_eq hplaced
    have hf0 := h.linked.ne_zero hplaced
    refine (ends_deallocate hf).mono ?_ ?_
    · rintro _ c' (⟨sw, hsw, rfl⟩ | ⟨sw, b, s, hsw, hs, rfl⟩)
      · -- the function has a reply, so the table is not empty
        have hempty := ((Switch.ends_removeFunction f c.switch).1 false sw hsw).2
        rw [if_neg Bool.false_ne_true] at hempty
        have hkeys := (ha f hf hplaced).1
        rw [Dict.keys, hempty.1] at hkeys
        exact absurd hkeys List.not_mem_nil
      · obtain ⟨-, rfl⟩ := EStateM.Result.ok.inj (hdep.symm.trans hs)
        refine ⟨g.revoke f, (Switch.ends_removeFunction_grants hg f).1 true sw hsw, ?_⟩
        rw [funext (h.linked.allocationMatrix_departed hf0)]
        exact hfits.departed f
    · rintro c' (⟨ex, sw, hsw, rfl⟩ | ⟨sw, ex, s, -, hs, rfl⟩)
      · exact absurd (ha f hf hplaced).2 ((Switch.ends_removeFunction_grants hg f).2 ex sw hsw).1
      · rw [hdep] at hs
        cases hs
  · -- the function has no grants
    have hnone : ∀ i, f ∉ tenants (c.allocator.allocationMatrix i) := fun i hi =>
      hplaced ⟨i, by rwa [h.linked.tenants_eq i] at hi⟩
    have hsame := hfits.revoke hnone
    have hrem := Switch.ends_removeFunction_grants hg f
    rw [hsame] at hrem
    refine (ends_deallocate hf).mono ?_ ?_
    · rintro _ c' (⟨sw, hsw, rfl⟩ | ⟨sw, b, s, hsw, hs, rfl⟩)
      · exact ⟨g, hrem.1 false sw hsw, hfits⟩
      · rcases h.linked.deallocate_absent (not_exists.1 hplaced) with heq | heq
        · obtain ⟨-, rfl⟩ := EStateM.Result.ok.inj (heq.symm.trans hs)
          exact ⟨g, hrem.1 true sw hsw, hfits⟩
        · rw [heq] at hs
          cases hs
    · rintro c' (⟨ex, sw, hsw, rfl⟩ | ⟨sw, ex, s, hsw, hs, rfl⟩)
      · exact ⟨g, (hrem.2 ex sw hsw).2, hfits⟩
      · rcases h.linked.deallocate_absent (not_exists.1 hplaced) with heq | heq
        · rw [heq] at hs
          cases hs
        · obtain ⟨-, rfl⟩ := EStateM.Result.error.inj (heq.symm.trans hs)
          exact ⟨g, hrem.1 true sw hsw, hfits⟩

/-- **The monitor starts a departure.** -/
theorem Guarded.departs (h : Guarded cfg c) (hh : Housed cfg c) (ho : Orderly c) (hq : c.queue = [])
    (req : Request) :
    Ends (do deallocate req.fid; leaveActive req.fid) c
      (fun _ c' => Guarded cfg { c' with monitor := .waiting req })
      fun c' => Guarded cfg { c' with monitor := .dead req } := by
  have hplan := (ho.quiet hq).2.2.1
  by_cases hact : req.fid ∈ c.active
  · have hans := hh.answered (Or.inr hq)
    -- the lock stays as it is
    have hsecure : Ends (deallocate req.fid) c
        (fun _ c' => c.mutex = false → Secure cfg c'.switch c'.allocator)
        fun c' => c.mutex = false → Secure cfg c'.switch c'.allocator := by
      by_cases hm : c.mutex = false
      · exact (Secure.deallocate hh hans (h.secure hm) hact).mono (fun _ _ hc' _ => hc') fun _ hc' _ => hc'
      · exact ends_of_forall (fun _ _ hf => absurd hf hm) fun _ hf => absurd hf hm
    refine ends_bind.2 ((Ends.and (ends_deallocate_housed hh hans hplan hact) hsecure).mono ?_ ?_)
    · rintro _ c₁ ⟨⟨⟨sw, s, rfl, hnone⟩, -⟩, hsec⟩
      unfold leaveActive
      refine ends_bind.2 (ends_get.2 (ends_ite (fun _ => ends_modify.2 ?_) fun hno => absurd hact hno))
      exact guarded_of_secure hsec hnone
    · rintro c₁ ⟨⟨⟨sw, s, rfl, hnone⟩, -⟩, hsec⟩
      exact guarded_of_secure hsec hnone
  · unfold Controller.deallocate leaveActive
    refine ends_bind.2 (ends_bind.2 (ends_get.2 (ends_ite_neg hact (ends_pure.2 ?_))))
    refine ends_bind.2 (ends_get.2 (ends_ite_neg hact (ends_throw.2 ?_)))
    exact h.congr rfl rfl rfl rfl

/-- **A reset** while no allocation waits. -/
theorem Guarded.reset (h : Guarded cfg c) (hh : Housed cfg c) (hplan : c.allocator.queue = none) :
    Ends resetAllocation c (fun _ => Guarded cfg) (Guarded cfg) := by
  unfold resetAllocation
  refine ends_bind.2 (ends_get.2 (ends_ite (fun _ => ends_bind.2 (ends_throw.2 h)) fun hm => ?_))
  have hm : c.mutex = false := by simpa using hm
  have hans := hh.answered (Or.inl hm)
  refine ends_bind.2 (ends_modify.2 (ends_bind.2 (ends_get.2 (ends_bind.2 ?_))))
  have hlocked : Housed cfg { c with mutex := true } :=
    ⟨hh.linked, hh.coherent, hh.placed, hh.plan, fun _ => hans⟩
  refine Ends.mono (Q := fun _ c' => (∃ sw s,
      c' = { c with switch := sw, allocator := s, mutex := true } ∧ s.queue = none) ∧
    Housed cfg c' ∧ Answered c' ∧ Secure cfg c'.switch c'.allocator) ?_ ?_ fun _ hc' => hc'
  · refine ends_forM_const (fun c' => (∃ sw s,
        c' = { c with switch := sw, allocator := s, mutex := true } ∧ s.queue = none) ∧
      Housed cfg c' ∧ Answered c' ∧ Secure cfg c'.switch c'.allocator) ?_
      ⟨⟨c.switch, c.allocator, rfl, hplan⟩, hlocked, hans, h.secure hm⟩
    rintro f hf c₁ ⟨⟨sw₁, s₁, rfl, hnone₁⟩, hhoused₁, hans₁, hsec₁⟩
    refine (Ends.and (ends_deallocate_housed hhoused₁ hans₁ hnone₁ hf)
      (Secure.deallocate hhoused₁ hans₁ hsec₁ hf)).mono ?_ ?_
    · rintro _ c₂ ⟨⟨⟨sw, s, rfl, hnone⟩, hhoused, hans, -⟩, hsec⟩
      exact ⟨⟨sw, s, rfl, hnone⟩, hhoused, hans, hsec⟩
    · rintro c₂ ⟨⟨⟨sw, s, rfl, hnone⟩, -⟩, hsec⟩
      exact guarded_of_secure (fun _ => hsec) hnone
  · rintro _ c₁ ⟨⟨sw, s, rfl, hnone⟩, -, -, hsec⟩
    exact ends_bind.2 (ends_modify.2 (ends_modify.2 (guarded_of_secure (fun _ => hsec) hnone)))

/-! ### Applying an allocation -/

/-- **The tables after an allocation has been applied.** -/
theorem ends_updateAllocation_grants {g : GrantTable} (hg : Represents cfg.blockSize c.switch g) {f : Fid}
    {r : Remaps} (hnone : ∀ i, g i f = none) (hr : r.get? f = none) (allocation : Dict Stage (List ℕ)) :
    Ends (updateAllocation cfg f allocation r) c
      (fun _ c' => Represents cfg.blockSize c'.switch (g.reallocated r f allocation)) fun _ => True := by
  have hkeep : ∀ {x : EStateM Exn Controller Unit} {g' : GrantTable} {c₁ : Controller},
      Upholds (fun c => Represents cfg.blockSize c.switch g') x → Represents cfg.blockSize c₁.switch g' →
        Ends x c₁ (fun _ c₂ => Represents cfg.blockSize c₂.switch g') fun _ => True := fun hx h₁ =>
    (hx _ h₁).mono (fun _ _ ht => ht) fun _ _ => trivial
  have hprograms : ∀ g', OfPrograms fun sw => Represents cfg.blockSize sw g' := fun g' _ _ hsw h =>
    h.congr hsw
  unfold updateAllocation
  refine ends_bind.2 (ends_onSwitch.2 ((Switch.ends_updateMemoryAccess hg _).mono ?_ fun _ hE => hE.elim))
  rintro _ sw₁ h₁
  refine ends_bind.2 ((hkeep (upholds_onSwitch (Switch.upholds_updateVaddr _ _)) h₁).mono ?_ fun _ hE => hE)
  rintro _ c₂ h₂
  refine ends_bind.2 ((hkeep (upholds_onSwitch (Switch.upholds_represents
    (Switch.leaves_part (Switch.leaves_updateAllocationTables _ _) Prod.snd))) h₂).mono ?_ fun _ hE => hE)
  rintro _ c₃ h₃
  refine ends_bind.2 ((hkeep (Upholds.forM fun tid _ => (hprograms _).renewVersion tid) h₃).mono ?_
    fun _ hE => hE)
  rintro _ c₄ h₄
  refine ends_onSwitch.2 (Switch.ends_installAllocation h₄ _ (fun i => ?_) allocation)
  -- the new function is not remapped
  rw [GrantTable.puts_of_forall_ne, hnone]
  rintro p hp ⟨-, rfl⟩
  obtain ⟨l, hl, -⟩ := Switch.mem_grantsOf.1 hp
  exact absurd (hr.symm.trans hl) (Option.some_ne_none l).symm

/-- **Applying a queued allocation leaves the tables right**, and an exception leaves the lock held. -/
theorem ends_resumeAllocation_secure {plan : Plan} {f g : Fid} {r : Remaps}
    (hs : Secure cfg c.switch c.allocator)
    (hrep : Report c.allocator.allocationMatrix plan.allocationMatrix f r) (hm : c.mutex = false)
    (hi : c.remoteDrainInitiator ≠ none) (hg : c.allocator.queueFid = some g)
    (hp : c.allocator.queue = some plan) (hq : f ∈ c.queue) (ht : f ∈ c.allocTiming) :
    Ends (resumeAllocation cfg f r) c
      (fun _ c' => ∃ sw v, c' = c.completed plan f r sw v ∧
        Secure cfg sw (c.allocator.applied plan))
      fun c' => ∃ sw v, c' = c.stuck plan f r sw v := by
  obtain ⟨grants, hgrants, hfits⟩ := hs
  have htables : Ends (resumeAllocation cfg f r) c (fun _ c' => Represents cfg.blockSize c'.switch
      (grants.reallocated r f ((c.allocator.applied plan).getAllocationBlocks f))) fun _ => True := by
    have hprograms : ∀ g', OfPrograms fun sw => Represents cfg.blockSize sw g' := fun g' _ _ hsw h =>
      h.congr hsw
    unfold resumeAllocation
    refine ends_bind.2 (ends_get.2 (ends_ite_neg (by rw [hm]; decide) ?_))
    refine ends_bind.2 (ends_get.2 (ends_ite_neg hi (ends_bind.2 (ends_modify.2 ?_))))
    unfold completeAllocation applyQueuedAllocation
    refine ends_bind.2 (ends_bind.2 (ends_onAllocator.2 ?_))
    refine ends_of_ok (applyQueuedAllocation_eq hg hp) (ends_ite_pos rfl (ends_modify.2 ?_))
    refine ends_bind.2 (ends_get.2 (ends_bind.2 ?_))
    refine (ends_updateAllocation_grants (c := { c with
      allocator := c.allocator.applied plan
      applied := c.applied ++ [(c.issued.length - 1, f, r)]
      mutex := true }) hgrants (fun i => hfits.eq_none (hrep.fresh i)) hrep.unreported _).mono ?_
      fun _ hE => hE
    rintro _ c₁ h₁
    exact ((hprograms _).publish f c₁ h₁).mono (fun _ _ ht => ht) fun _ _ => trivial
  refine (Ends.and (ends_resumeAllocation r hm hi hg hp hq ht) htables).mono ?_ ?_
  · rintro _ c' ⟨⟨sw, v, rfl, -⟩, hrep'⟩
    exact ⟨sw, v, rfl, _, hrep', hfits.applied hrep rfl⟩
  · rintro c' ⟨⟨sw, v, rfl, -⟩, -⟩
    exact ⟨sw, v, rfl⟩

/-- The state in which an allocation has been applied. -/
theorem guarded_completed (c : Controller) {plan : Plan} (f : Fid) (r : Remaps) {sw : Switch}
    (v : Dict Fid ℕ) (hs : Secure cfg sw (c.allocator.applied plan)) :
    Guarded cfg (c.completed plan f r sw v) := guarded_of_secure (fun _ => hs) rfl

/-- The state after an exception on the way: nobody will release the lock. -/
theorem guarded_stuck (c : Controller) (plan : Plan) (f : Fid) (r : Remaps) (sw : Switch)
    (v : Dict Fid ℕ) : Guarded cfg (c.stuck plan f r sw v) :=
  guarded_of_secure (fun hm => absurd hm (by simp [Controller.stuck])) rfl

/-- **The second half of a remap handler** that has read what can be resumed. -/
theorem Guarded.finishAck (h : Guarded cfg c) (ho : Orderly c) {a : Ack}
    (hres : ∀ f r, a.resume = some (f, r) → Resumable c f r) :
    Ends (finishAck cfg a) c (fun _ => Guarded cfg) (Guarded cfg) := by
  by_cases hidle : a.resume = none ∨ c.mutex = true ∨ c.remoteDrainInitiator = none
  · refine (ends_finishAck_idle hidle).mono ?_ ?_
    · rintro _ c' ⟨rfl, -⟩
      exact h.congr rfl rfl rfl rfl
    · rintro c' ⟨rfl, -⟩
      exact h
  · rw [not_or, not_or, ← ne_eq, Option.ne_none_iff_exists'] at hidle
    obtain ⟨⟨⟨f, r⟩, hr⟩, hm, hi⟩ := hidle
    obtain ⟨hf, hlast, hplan⟩ := ((hres f r hr).resolve_left hm).resolve_left hi
    have hm : c.mutex = false := by simpa using hm
    have hp := ho.pending_of_last hlast hplan
    obtain ⟨plan, hplan⟩ := Option.ne_none_iff_exists'.1 hplan
    obtain ⟨g, hg⟩ := hp.queueFid
    have hq : f ∈ c.queue := by
      rw [ho.queue_of_pending hp]
      exact List.mem_singleton_self f
    unfold Controller.finishAck
    rw [hr]
    refine ends_bind.2 ((ends_resumeAllocation_secure (h.secure hm) (h.report plan f r hplan hlast) hm hi
      hg hplan hq (ho.queue_new f hq).1).mono ?_ ?_)
    · rintro _ c₁ ⟨sw, v, rfl, hsec⟩
      refine (ends_popDrainQueue a.fid _).mono ?_ ?_
      · rintro _ c' ⟨rfl, -⟩
        exact (guarded_completed c f r v hsec).congr rfl rfl rfl rfl
      · rintro c' ⟨rfl, -⟩
        exact guarded_completed c f r v hsec
    · rintro c' ⟨sw, v, rfl⟩
      exact guarded_stuck c plan f r sw v

theorem Guarded.readAck (h : Guarded cfg c) (d : RemapDigest) :
    Ends (readAck d) c (fun _ => Guarded cfg) (Guarded cfg) := by
  refine (ends_readAck d c).mono ?_ ?_
  · rintro a c' (⟨-, I, m, rfl, -⟩ | ⟨rs, m, -, -, -, -, -, rfl, -⟩)
    · exact h.congr rfl rfl rfl rfl
    · exact h.congr rfl rfl rfl rfl
  · rintro c' ⟨⟨I, T, m, rfl⟩, -⟩
    exact h.congr rfl rfl rfl rfl

/-- **The timeout of the monitor.** -/
theorem Guarded.onTimeout (h : Guarded cfg c) (ho : Orderly c) {req : Request}
    (hm : c.monitor = .waiting req) (hreq : req.fid ∈ c.queue) :
    Ends (onTimeout cfg) c (fun _ c' => Guarded cfg { c' with monitor := .leaving req })
      fun c' => Guarded cfg { c' with monitor := .dead req } := by
  obtain ⟨f, r, hi, hlast, hremaps, hts, hplan⟩ := ho.waiting req hm (List.ne_nil_of_mem hreq)
  unfold Controller.onTimeout
  refine ends_bind.2 (ends_get.2 (ends_ite_neg (by rw [hts]; decide) ?_))
  refine ends_bind.2 (ends_get.2 ?_)
  rw [hremaps]
  refine ends_bind.2 ((ends_dropPeers r.keys c).mono ?_ ?_)
  · rintro _ c₁ ⟨m, rfl, -⟩
    have hdropped : Guarded cfg (c.dropped r.keys m) := h.congr rfl rfl rfl rfl
    have hi' : (c.dropped r.keys m).remoteDrainInitiator = some f := hi
    refine ends_bind.2 (ends_get.2 ?_)
    rw [hi']
    by_cases hmut : c.mutex = true
    · refine (ends_resumeAllocation_idle (c := c.dropped r.keys m) f r (.inl hmut)).mono ?_ ?_
      · rintro _ c' ⟨-, hfree⟩
        exact absurd (hfree.symm.trans hmut) (by decide)
      · rintro c' ⟨rfl, -⟩
        exact hdropped.congr rfl rfl rfl rfl
    · have hmut : c.mutex = false := by simpa using hmut
      have hp : Pending c f r := ho.pending_of_last hlast (hplan hmut)
      obtain ⟨plan, hplan⟩ := Option.ne_none_iff_exists'.1 (hplan hmut)
      obtain ⟨g, hg⟩ := hp.queueFid
      have hq : f ∈ c.queue := by
        rw [ho.queue_of_pending hp]
        exact List.mem_singleton_self f
      refine (ends_resumeAllocation_secure (c := c.dropped r.keys m) (hdropped.secure hmut)
        (h.report plan f r hplan hlast) hmut (by rw [hi']; exact Option.some_ne_none f) hg hplan hq
        (ho.queue_new f hq).1).mono ?_ ?_
      · rintro _ c' ⟨sw, v, rfl, hsec⟩
        exact (guarded_completed (c.dropped r.keys m) f r v hsec).congr rfl rfl rfl rfl
      · rintro c' ⟨sw, v, rfl⟩
        exact (guarded_stuck (c.dropped r.keys m) plan f r sw v).congr rfl rfl rfl rfl
  · rintro c₁ ⟨Q, I, m, rfl, -⟩
    exact h.congr rfl rfl rfl rfl

/-! ### Arrivals -/

/-- **What is announced when an allocation is queued** is what will be applied. -/
theorem Housed.report (h : Housed cfg c) (hq : c.queue = []) {req : Request} (hsane : Sane req)
    (hal : req.allocate = true) (ha : req.fid ∉ c.active) {r : Remaps} {c₁ : Controller}
    (hissue : Issues cfg req c r c₁) {plan : Plan} (hplan : c₁.allocator.queue = some plan) :
    Report c₁.allocator.allocationMatrix plan.allocationMatrix req.fid r := by
  cases hissue with
  | @intro af ch s₁ s₂ changes n p hfun hchoice hqueue =>
      have hfid := activeFunction_fid hfun
      have hnew := newcomer_of_activeFunction hfun hsane hal (h.absent hq ha)
      have hrep := (h.coherent hq).report hnew hchoice hqueue hplan
      obtain ⟨d, hs₁, -⟩ := (Allocator.ends_computeAllocation _ _).1 _ _ hchoice
      obtain ⟨new, e, fr, -, -, -, hs₂⟩ := (Allocator.ends_enqueueAllocation _ _ _).1 _ _ hqueue
      have hmatrix : s₂.allocationMatrix = c.allocator.allocationMatrix := by rw [hs₂, hs₁]; rfl
      rw [hfid] at hrep
      show Report s₂.allocationMatrix plan.allocationMatrix req.fid r
      rwa [hmatrix]

/-- Queueing an allocation leaves the tables and the live columns alone. -/
theorem Issues.secure {req : Request} {r : Remaps} {c₁ : Controller} (hissue : Issues cfg req c r c₁)
    (hs : Secure cfg c.switch c.allocator) : Secure cfg c₁.switch c₁.allocator := by
  cases hissue with
  | @intro af ch s₁ s₂ changes n p hfun hchoice hqueue =>
      obtain ⟨d, hs₁, -⟩ := (Allocator.ends_computeAllocation _ _).1 _ _ hchoice
      obtain ⟨new, e, fr, -, -, -, hs₂⟩ := (Allocator.ends_enqueueAllocation _ _ _).1 _ _ hqueue
      refine hs.congr rfl ?_
      show s₂.allocationMatrix = c.allocator.allocationMatrix
      rw [hs₂, hs₁]
      rfl

/-- What leaves the history of applied allocations alone. -/
theorem leaves_applied_onSwitch {α : Type} (x : EStateM Exn Switch α) :
    Leaves (fun c : Controller => c.applied) (onSwitch x) := fun _ =>
  ends_zoom.2 (ends_of_forall (fun _ _ => rfl) fun _ => rfl)

theorem leaves_applied_refuse (f : Fid) : Leaves (fun c : Controller => c.applied) (refuse f) := by
  refine (leaves_applied_onSwitch _).bind fun _ => Leaves.bind (fun _ => ?_) fun _ _ => ends_modify.2 rfl
  unfold leaveQueue
  exact ends_bind.2 (ends_get.2 (ends_ite (fun _ => ends_modify.2 rfl) fun _ => ends_throw.2 rfl))

theorem leaves_applied_waitForPeers (r : Remaps) :
    Leaves (fun c : Controller => c.applied) (waitForPeers r) := by
  refine Leaves.bind (fun _ => ends_modify.2 rfl) fun _ => Leaves.forM fun f _ => ?_
  refine Leaves.bind (fun _ => ends_modify.2 rfl) fun _ => Leaves.get.bind fun c => ?_
  cases c.allocVersion.get? f with
  | none => exact fun _ => ends_throw.2 rfl
  | some v => exact leaves_applied_onSwitch _

/-- **An allocation that is applied at once leaves the tables right.** -/
theorem ends_allocate_secure (h : Guarded cfg c) (hh : Housed cfg c) (hq : c.queue = []) (hm : c.mutex = false)
    {req : Request} (hsane : Sane req) (hal : req.allocate = true) (ha : req.fid ∉ c.active) :
    Ends (allocate cfg req) c
      (fun _ c' => c'.applied = c.applied ∨ Secure cfg c'.switch c'.allocator) fun _ => True := by
  -- nothing has been applied
  have hsame : ∀ {α : Type} {x : EStateM Exn Controller α} {c₁ : Controller},
      Leaves (fun c : Controller => c.applied) x → c₁.applied = c.applied →
        Ends x c₁ (fun _ c' => c'.applied = c.applied ∨ Secure cfg c'.switch c'.allocator)
          fun _ => True := fun hx h₁ =>
    (hx _).mono (fun _ _ ht => .inl (ht.trans h₁)) fun _ _ => trivial
  have hnotq : req.fid ∉ c.queue := by
    rw [hq]
    exact List.not_mem_nil
  unfold Controller.allocate beginAllocation
  refine ends_bind.2 (ends_get.2 (ends_bind.2 (ends_get.2 (ends_ite_neg (not_or.2 ⟨hnotq, ha⟩) ?_))))
  refine ends_bind.2 (ends_bind.2 (ends_modify.2 (ends_onSwitch.2 (ends_zoom.2
    (Switch.ends_add (fun hnew => ?_) fun _ => trivial)))))
  cases hfun : activeFunction cfg req with
  | error ex => exact ends_throw.2 trivial
  | ok af =>
      dsimp only
      refine ends_bind.2 (ends_modify.2 (ends_bind.2 (ends_onAllocator.2 ⟨fun o s₁ hchoice => ?_,
        fun _ _ _ => trivial⟩)))
      cases o with
      | none => exact hsame (leaves_applied_refuse req.fid) rfl
      | some ch =>
          refine ends_ite (fun _ => ?_) fun _ => ends_ite (fun _ => hsame (leaves_applied_refuse req.fid) rfl)
            fun _ => ends_bind.2 (ends_modify.2 (ends_throw.2 trivial))
          unfold startAllocation
          refine ends_bind.2 (ends_onAllocator.2 ⟨fun x s₂ hqueue => ?_, fun _ _ _ => trivial⟩)
          obtain ⟨changes, r, n⟩ := x
          refine ends_bind.2 (ends_modify.2 (ends_ite (fun _ => ?_) fun _ =>
            hsame (leaves_applied_waitForPeers r) rfl))
          have hissue : Issues cfg req c r ((c.started req.fid (c.switch.allocation.set req.fid .pending)
              (c.programDefs.set req.fid af) s₂ (some req.fid)).issuing req.fid r) :=
            ⟨hfun, hchoice, hqueue⟩
          obtain ⟨plan, hplan, hfid⟩ := hissue.queue
          refine (ends_resumeAllocation_secure (hissue.secure (h.secure hm))
            (hh.report hq hsane hal ha hissue hplan) hm (Option.some_ne_none req.fid) hfid hplan ?_ ?_).mono
            ?_ fun _ _ => trivial
          · exact List.mem_append_right _ (List.mem_singleton_self _)
          · exact Finset.mem_insert_self _ _
          · rintro _ c' ⟨sw, v, rfl, hsec⟩
            exact .inr hsec

/-- **The monitor starts an arrival.** -/
theorem Guarded.allocate (h : Guarded cfg c) (hh : Housed cfg c) (ho : Orderly c) (hq : c.queue = [])
    {req : Request} (hsane : Sane req) (hal : req.allocate = true) (ha : req.fid ∉ c.active) :
    Ends (allocate cfg req) c (fun _ c' => Guarded cfg { c' with monitor := .waiting req })
      fun c' => Guarded cfg { c' with monitor := .dead req } := by
  have hnone := (ho.quiet hq).2.2.1
  have hnotq : req.fid ∉ c.queue := by
    rw [hq]
    exact List.not_mem_nil
  -- what is queued has been announced
  have hissues : ∀ {r : Remaps} {c₁ : Controller}, Issues cfg req c r c₁ → Guarded cfg c₁ := by
    intro r c₁ hissue
    have hmutex : c₁.mutex = c.mutex := by cases hissue; rfl
    have hlast : c₁.issued.getLast? = some (req.fid, r) := by
      cases hissue
      exact List.getLast?_concat
    refine ⟨fun hm => hissue.secure (h.secure (hmutex ▸ hm)), fun plan f r' hplan hlast' => ?_⟩
    obtain ⟨rfl, rfl⟩ := Prod.mk.inj (Option.some.inj (hlast.symm.trans hlast'))
    exact hh.report hq hsane hal ha hissue hplan
  have hsecure : Ends (Controller.allocate cfg req) c
      (fun _ c' => c.mutex = false → c'.applied = c.applied ∨ Secure cfg c'.switch c'.allocator)
      fun _ => True := by
    by_cases hm : c.mutex = false
    · exact (ends_allocate_secure h hh hq hm hsane hal ha).mono (fun _ _ hc' _ => hc') fun _ _ => trivial
    · exact ends_of_forall (fun _ _ hf => absurd hf hm) fun _ => trivial
  refine (Ends.and (ends_allocate hnotq ha) hsecure).mono ?_ ?_
  · rintro _ c' ⟨hret, hsec⟩
    cases hret with
    | @refused af o s p hfun hchoice =>
        obtain ⟨d, rfl, -⟩ := (Allocator.ends_computeAllocation _ _).1 _ _ hchoice
        exact guarded_of_secure (fun hm => (h.secure hm).congr rfl rfl) rfl
    | @applied r c₁ plan sw v hissue hr hm hplan hren =>
        have hne : (c₁.completed plan req.fid r sw v).applied ≠ c.applied := by
          have hsame : c₁.applied = c.applied := by cases hissue; rfl
          rw [Controller.completed, hsame]
          simp
        exact (guarded_completed c₁ req.fid r v ((hsec hm).resolve_left hne)).congr rfl rfl rfl rfl
    | @waits r c₁ m hissue hr htold => exact (hissues hissue).congr rfl rfl rfl rfl
  · rintro c' ⟨hraise, -⟩
    cases hraise with
    | @early d p s i hs hi hd =>
        refine guarded_of_secure (fun hm => (h.secure hm).congr rfl ?_) (hs.queue_eq_none hnone)
        show s.allocationMatrix = c.allocator.allocationMatrix
        rcases hs with rfl | ⟨d, e, fr, rfl, -⟩ <;> rfl
    | blocked hissue hr hm => exact (hissues hissue).congr rfl rfl rfl rfl
    | @stuck r c₁ plan sw v hissue hr hm hplan hsw =>
        exact (guarded_stuck c₁ plan req.fid r sw v).congr rfl rfl rfl rfl
    | @partway r c₁ ps rest f m hissue hr hwhy => exact (hissues hissue).congr rfl rfl rfl rfl

/-! ### Runs -/

/-- **Every step without a reset while an allocation waits keeps the tables right**, exceptions included. -/
theorem Guarded.step {e : Event} (h : Guarded cfg c) (hh : Housed cfg c) (ho : Orderly c)
    (hsane : ∀ req ∈ c.allocationRequests, Sane req) (hstep : Step cfg c e c') (hcalm : c.Calm e) :
    Guarded cfg c' := by
  obtain ⟨hen, hperform⟩ := hstep
  suffices hends : Ends (perform cfg e) c (fun _ => Guarded cfg) (Guarded cfg) by
    rcases hperform with ⟨u, hu⟩ | ⟨ex, hex⟩
    · exact hends.1 u c' hu
    · exact hends.2 ex c' hex
  cases e with
  | malloc d =>
      show Ends (onMallocRequest d) c (fun _ => Guarded cfg) (Guarded cfg)
      unfold onMallocRequest
      refine ends_modify.2 ?_
      dsimp only
      split_ifs
      · exact h.congr rfl rfl rfl rfl
      · exact h
      · exact h
      · exact h.congr rfl rfl rfl rfl
  | remapAck d =>
      show Ends (onRemapAck cfg d) c (fun _ => Guarded cfg) (Guarded cfg)
      unfold onRemapAck
      refine ends_bind.2 ((Ends.and (ho.readAck d) (h.readAck d)).mono ?_ fun _ h => h.2)
      rintro a c₁ ⟨⟨ho₁, -, hres⟩, h₁⟩
      cases a with
      | none => exact ends_pure.2 h₁
      | some a => exact h₁.finishAck ho₁ fun f r hr => (hres a f r rfl hr).2
  | ackRead d =>
      refine ends_bind.2 ((h.readAck d).mono ?_ fun _ h => h)
      intro a c₁ h₁
      exact ends_modify.2 (h₁.congr rfl rfl rfl rfl)
  | ackFinish =>
      obtain ⟨a, ha⟩ := Option.ne_none_iff_exists'.1 hen
      have heq : perform cfg .ackFinish c =
          Controller.finishAck cfg a { c with inFlight := none } := by
        simp only [perform, ha]
      have ho₁ : Orderly { c with inFlight := none } :=
        ho.flies fun b _ _ hb => absurd hb (Option.some_ne_none b).symm
      have h₁ : Guarded cfg { c with inFlight := none } := h.congr rfl rfl rfl rfl
      have hends := h₁.finishAck ho₁ fun f r hr => (ho.inFlight a f r ha hr).2
      exact ⟨fun u t ht => hends.1 u t (heq.symm.trans ht),
        fun ex t ht => hends.2 ex t (heq.symm.trans ht)⟩
  | take =>
      have hq := ho.queue_of_idle hen.1
      show Ends (takeRequest cfg) c (fun _ => Guarded cfg) (Guarded cfg)
      cases hreq : c.allocationRequests with
      | nil => exact absurd hreq hen.2
      | cons req rest =>
          have h₁ : Guarded cfg { c with allocationRequests := rest } := h.congr rfl rfl rfl rfl
          have hh₁ : Housed cfg { c with allocationRequests := rest } :=
            hh.congr rfl rfl rfl rfl rfl rfl
          have ho₁ : Orderly { c with allocationRequests := rest } :=
            ho.irrelevant _ _ _ _ _ rest _ _ _ _ rfl rfl
          refine ends_takeRequest hreq (fun hal ha => ?_) ?_ h₁
          · have hreq' := hsane req (by rw [hreq]; exact List.mem_cons_self)
            exact ends_monitorStep (h₁.allocate hh₁ ho₁ hq hreq' hal ha)
          · exact ends_monitorStep (h₁.departs hh₁ ho₁ hq req)
  | timeout =>
      obtain ⟨req, hm, hreq⟩ := hen
      have heq : perform cfg .timeout c =
          monitorStep req (.leaving req) (Controller.onTimeout cfg) c := by
        simp only [perform, hm]
      have hends : Ends (monitorStep req (.leaving req) (Controller.onTimeout cfg)) c
          (fun _ => Guarded cfg) (Guarded cfg) := ends_monitorStep (h.onTimeout ho hm hreq)
      exact ⟨fun u t ht => hends.1 u t (heq.symm.trans ht),
        fun ex t ht => hends.2 ex t (heq.symm.trans ht)⟩
  | finish =>
      obtain ⟨req, hreq⟩ := hen
      have hcur : c.monitor.current = some req := by
        rcases hreq with ⟨hm, -⟩ | hm <;> rw [hm] <;> rfl
      have heq : perform cfg .finish c =
          .ok () { c with enqueued := c.enqueued.erase req.fid, monitor := .idle } := by
        simp only [perform, hcur]
        rfl
      exact ends_of_ok heq (h.congr rfl rfl rfl rfl)
  | reset =>
      have h₁ : Guarded cfg { c with resetThreads := c.resetThreads - 1 } := h.congr rfl rfl rfl rfl
      have hh₁ : Housed cfg { c with resetThreads := c.resetThreads - 1 } :=
        hh.congr rfl rfl rfl rfl rfl rfl
      exact h₁.reset hh₁ hcalm

/-- **The tables are right in a run** without a reset while an allocation waits. -/
theorem guarded_of_run {es : List Event}
    (h : Run (fun c e c' => Step cfg c e c' ∧ c.Calm e) (init cfg) es c) : Guarded cfg c ∧ Housed cfg c := by
  have hall := h.invariant
    (I := fun c => (Guarded cfg c ∧ Housed cfg c) ∧ Orderly c ∧ ∀ req ∈ c.allocationRequests, Sane req) ?_
    ⟨⟨guarded_init cfg, housed_init⟩, orderly_init cfg, fun req hreq => absurd hreq List.not_mem_nil⟩
  · exact hall.1
  · rintro c₁ e c₂ ⟨⟨hg, hh⟩, ho, hsane⟩ ⟨hstep, hcalm⟩
    have hfree : e = .take → c₁.inFlight = none := by
      rintro rfl
      exact hcalm
    refine ⟨⟨hg.step hh ho hsane hstep hcalm, hh.step ho hsane hstep hcalm⟩,
      ho.step_of_free hstep hfree, fun req hreq => ?_⟩
    rcases mem_requests_of_step hstep hreq with hreq | ⟨d, rfl, rfl⟩
    · exact hsane req hreq
    · exact sane_request hcalm

end Controller

/-! ### Addresses -/

namespace Switch

variable {bs : ℚ} {sw : Switch} {g : GrantTable} {i : Stage} {f : Fid}

/-- **An address is in a block.** -/
def InBlock (bs : ℚ) (k addr : ℕ) : Prop :=
  roundDouble (bs * k) ≤ addr ∧ (addr : ℚ) < roundDouble (bs * (k + 1 : ℕ))

instance (bs : ℚ) (k addr : ℕ) : Decidable (InBlock bs k addr) :=
  inferInstanceAs (Decidable (roundDouble (bs * k) ≤ addr ∧ (addr : ℚ) < roundDouble (bs * (k + 1 : ℕ))))

/-- An address is in one block only. -/
theorem InBlock.unique (hbs : 0 ≤ bs) {k k' addr : ℕ} (h : InBlock bs k addr) (h' : InBlock bs k' addr) :
    k = k' := by
  have hle : ∀ {k k' : ℕ}, InBlock bs k addr → InBlock bs k' addr → k ≤ k' := fun {k k'} h h' => by
    by_contra hlt
    have hmono : roundDouble (bs * (k' + 1 : ℕ)) ≤ roundDouble (bs * k) :=
      roundDouble_mono (by positivity) (by gcongr; omega)
    exact absurd (h'.2.trans_le (hmono.trans h.1)) (lt_irrefl _)
  exact le_antisymm (hle h h') (hle h' h)

/-- An address between two blocks is in one of those that lie between. -/
theorem exists_inBlock {a n addr : ℕ} (hlow : roundDouble (bs * a) ≤ addr)
    (hhigh : (addr : ℚ) < roundDouble (bs * (a + n : ℕ))) :
    ∃ k, a ≤ k ∧ k < a + n ∧ InBlock bs k addr := by
  induction n with
  | zero => exact absurd (hhigh.trans_le hlow) (lt_irrefl _)
  | succ n ih =>
      rcases le_or_gt (roundDouble (bs * (a + n : ℕ))) (addr : ℚ) with hle | hlt
      · exact ⟨a + n, by omega, by omega, hle, hhigh⟩
      · obtain ⟨k, hak, hkn, hk⟩ := ih hlt
        exact ⟨k, hak, by omega, hk⟩

/-- The addresses of a run of blocks. -/
theorem getMemoryRange_range' (bs : ℚ) (a : ℕ) {n : ℕ} (hn : 0 < n) :
    getMemoryRange bs (List.range' a n) =
      (roundDouble (bs * a), roundDouble (roundDouble (bs * (a + n : ℕ)) - 1)) := by
  obtain ⟨m, rfl⟩ := Nat.exists_eq_add_of_lt hn
  have hhead : (List.range' a (0 + m + 1)).head? = some a := by simp [List.range'_succ]
  have hlast : (List.range' a (0 + m + 1)).getLast? = some (a + m) := by
    rw [List.range'_concat]
    simp
  rw [getMemoryRange, hhead, hlast]
  push_cast
  ring_nf

section BlockSize

variable {n : ℕ}

theorem blockSize_pos (hn : 0 < n) : 0 < blockSize n :=
  roundDouble_pos (div_pos (by norm_num [memSize]) (by exact_mod_cast hn))

/-- **The end of a block** is within the memory, but for a rounding error. -/
theorem blockSize_mul_le {k : ℕ} (hk : k ≤ n) : blockSize n * k ≤ memSize * (1 + 1 / 2 ^ 53) := by
  rcases Nat.eq_zero_or_pos n with rfl | hn
  · rw [Nat.le_zero.1 hk, Nat.cast_zero, mul_zero]
    positivity
  · have hpos : (0 : ℚ) < n := by exact_mod_cast hn
    have hround : blockSize n ≤ memSize / n * (1 + 1 / 2 ^ 53) := roundDouble_le (by positivity)
    calc blockSize n * k ≤ blockSize n * n := by
          have := (blockSize_pos hn).le
          gcongr
      _ ≤ memSize / n * (1 + 1 / 2 ^ 53) * n := by gcongr
      _ = memSize * (1 + 1 / 2 ^ 53) := by field_simp

/-- The last address of a run of blocks is before the next block. -/
theorem last_lt_next {k : ℕ} (h0 : 0 < k) (hk : k ≤ n) :
    roundDouble (roundDouble (blockSize n * k) - 1) < roundDouble (blockSize n * k) := by
  have hpos : (0 : ℚ) < k := by exact_mod_cast h0
  refine roundDouble_sub_one_lt (mul_pos (blockSize_pos (h0.trans_le hk)) hpos) ?_
  refine (blockSize_mul_le hk).trans_lt ?_
  norm_num [memSize]

/-- **It is within the memory**, for any number of blocks. -/
theorem last_lt_memSize {k : ℕ} (h0 : 0 < k) (hk : k ≤ n) :
    roundDouble (roundDouble (blockSize n * k) - 1) < memSize := by
  have hx : 0 ≤ blockSize n * k := mul_nonneg (blockSize_pos (h0.trans_le hk)).le (Nat.cast_nonneg k)
  have hround : roundDouble (blockSize n * k) - 1 ≤ memSize * (1 + 1 / 2 ^ 53) * (1 + 1 / 2 ^ 53) - 1 := by
    refine sub_le_sub_right ((roundDouble_le hx).trans ?_) 1
    have := blockSize_mul_le hk
    gcongr
  rcases le_or_gt 0 (roundDouble (blockSize n * k) - 1) with hnonneg | hneg
  · refine (roundDouble_le hnonneg).trans_lt ?_
    calc (roundDouble (blockSize n * k) - 1) * (1 + 1 / 2 ^ 53)
        ≤ ((memSize : ℚ) * (1 + 1 / 2 ^ 53) * (1 + 1 / 2 ^ 53) - 1) * (1 + 1 / 2 ^ 53) := by gcongr
      _ < (memSize : ℚ) := by norm_num [memSize]
  · exact (roundDouble_nonpos hneg.le).trans_lt (by norm_num [memSize])

end BlockSize

theorem isMemory_of_common : ∀ e ∈ commonEntries, e.2.1.isMemory = false := by decide +kernel

theorem isMemory_of_vaddr {f : Fid} {allocation : Dict Stage (List ℕ)} {act : Instruction}
    {e : EntryKey × BoundAction} (he : e ∈ vaddrEntries bs f allocation act) : e.2.1.isMemory = false := by
  unfold vaddrEntries at he
  dsimp only at he
  split at he
  · split at he
    · exact absurd he List.not_mem_nil
    · rcases List.mem_pair.1 he with rfl | rfl <;> rfl
  · split at he
    · exact absurd he List.not_mem_nil
    · rcases List.mem_pair.1 he with rfl | rfl <;> rfl
  · exact absurd he List.not_mem_nil

/-- Every memory instruction accesses memory. -/
theorem action_of_memory : ∀ act ∈ memoryInstructions, ∃ action, act.action = some action ∧
    action.isMemory = true ∧ act.opcode ≠ 0 ∧ act.condition ≠ some false := by
  decide +kernel

/-- An entry that accesses memory is one of a grant, for its addresses. -/
theorem Represents.grant_of_isMemory (h : Represents bs sw g) {e : EntryKey × BoundAction}
    (he : e ∈ (sw.instruction i).items) (hmem : e.2.1.isMemory = true) :
    ∃ f blocks, g i f = some blocks ∧ e.1.fidStart = f ∧ e.1.fidEnd = f ∧
      e.1.marStart = (getMemoryRange bs blocks).1 ∧ e.1.marEnd = (getMemoryRange bs blocks).2 := by
  have hop : e.1.opcode ∈ opcodesMemaccess := by
    rcases h.others i e he with hc | ⟨fid, lo, hi, act, hact, he'⟩ | ⟨bs', fid, al, act, hact, he'⟩
    · exact absurd ((isMemory_of_common e hc).symm.trans hmem) Bool.false_ne_true
    · rw [opcode_of_mem_entriesOf he']
      exact List.mem_map_of_mem hact
    · exact absurd ((isMemory_of_vaddr he').symm.trans hmem) Bool.false_ne_true
  obtain ⟨f, blocks, hg, hgrant⟩ := (h.memory i e).1 ⟨he, hop⟩
  obtain ⟨-, hstart, hend⟩ := fields_of_mem_memoryEntries hgrant
  refine ⟨f, blocks, hg, hstart, hend, ?_⟩
  obtain ⟨act, hact, hentry⟩ := List.mem_flatMap.1 hgrant
  obtain ⟨action, haction, -⟩ := action_of_memory act hact
  cases (mem_entriesOf_iff haction).1 hentry with
  | ending | plain | nonzero | zero => exact ⟨rfl, rfl⟩
  | skipZero | skipNonzero | rejoin => exact absurd hmem Bool.false_ne_true

/-- **What a function may access** is what it is granted. -/
theorem Represents.mayAccess_iff (h : Represents bs sw g) {addr : ℕ} :
    sw.MayAccess i f addr ↔ ∃ blocks, g i f = some blocks ∧ (getMemoryRange bs blocks).1 ≤ addr ∧
      (addr : ℚ) ≤ (getMemoryRange bs blocks).2 := by
  constructor
  · rintro ⟨e, he, hmem, hstart, hend, hlow, hhigh⟩
    obtain ⟨f', blocks, hg, hstart', hend', hlo, hhi⟩ := h.grant_of_isMemory he hmem
    have hf : f' = f := le_antisymm (hstart'.ge.trans hstart) (hend.trans hend'.le)
    exact ⟨blocks, hf ▸ hg, hlo ▸ hlow, hhi ▸ hhigh⟩
  · rintro ⟨blocks, hg, hlow, hhigh⟩
    -- the entry for reading
    have hread : (⟨⟨.memRead, some .memoryRead, none⟩, 41⟩ : Instruction) ∈ memoryInstructions := by
      decide +kernel
    have he : (entryKey f ⟨⟨.memRead, some .memoryRead, none⟩, 41⟩ (getMemoryRange bs blocks).1 0 0 0
        (getMemoryRange bs blocks).2, ((.memoryRead, none) : BoundAction)) ∈ memoryEntries bs f blocks :=
      List.mem_flatMap.2 ⟨_, hread, (mem_entriesOf_iff rfl).2 (.plain rfl)⟩
    exact ⟨_, ((h.memory i _).2 ⟨f, blocks, hg, he⟩).1, rfl, le_rfl, le_rfl, hlow, hhigh⟩

end Switch

/-! ### Isolation -/

namespace Controller

open Switch (MayAccess InBlock)

variable {cfg : ControllerConfig} {c : Controller} {es : List Event}

/-- What a function is granted, in addresses. -/
theorem Secure.exists_range (h : Secure cfg c.switch c.allocator) {i : Stage} {f : Fid}
    (hf : f ∈ tenants (c.allocator.allocationMatrix i)) :
    ∃ a n, 0 < n ∧ a + n ≤ cfg.allocator.maxOccupancy ∧
      (∀ k, a ≤ k → k < a + n → owner (c.allocator.allocationMatrix i) k = f) ∧
      ∃ lo hi, lo = roundDouble (cfg.blockSize * a) ∧
        hi = roundDouble (roundDouble (cfg.blockSize * (a + n : ℕ)) - 1) ∧
        Grants c.switch i f lo hi ∧
        ∀ addr : ℕ, c.switch.MayAccess i f addr ↔ lo ≤ addr ∧ (addr : ℚ) ≤ hi := by
  obtain ⟨g, hg, hfits⟩ := h
  obtain ⟨blocks, hblocks⟩ := hfits.placed i f hf
  obtain ⟨hf0, ⟨a, n, hn, rfl⟩, howned⟩ := hfits.within i f blocks hblocks
  have hrange := Switch.getMemoryRange_range' cfg.blockSize a hn
  have hown : ∀ k, a ≤ k → k < a + n → owner (c.allocator.allocationMatrix i) k = f := fun k hak hkn =>
    howned k (List.mem_range'_1.2 ⟨hak, hkn⟩)
  have hend : a + n ≤ cfg.allocator.maxOccupancy := by
    have hlast := hown (a + n - 1) (by omega) (by omega)
    have hlen := lt_length_of_owner_ne (hlast.trans_ne hf0)
    rw [hfits.sized i] at hlen
    omega
  refine ⟨a, n, hn, hend, hown, _, _, rfl, rfl, fun act hact e he => ?_, fun addr => ?_⟩
  · refine ((hg.memory i e).2 ⟨f, _, hblocks, List.mem_flatMap.2 ⟨act, hact, ?_⟩⟩).1
    rwa [hrange]
  · rw [hg.mayAccess_iff]
    constructor
    · rintro ⟨blocks', hblocks', hlow, hhigh⟩
      obtain rfl := Option.some.inj (hblocks.symm.trans hblocks')
      rw [hrange] at hlow hhigh
      exact ⟨hlow, hhigh⟩
    · rintro ⟨hlow, hhigh⟩
      refine ⟨_, hblocks, ?_⟩
      rw [hrange]
      exact ⟨hlow, hhigh⟩

/-- **An address that a function may access** is in a block that belongs to it, and in the memory. -/
theorem Secure.inBlock (h : Secure cfg c.switch c.allocator) {i : Stage} {f : Fid} {addr : ℕ}
    (hacc : c.switch.MayAccess i f addr) : f ∈ tenants (c.allocator.allocationMatrix i) ∧ addr < memSize ∧
      ∃ k, InBlock cfg.blockSize k addr ∧ owner (c.allocator.allocationMatrix i) k = f := by
  have hf : f ∈ tenants (c.allocator.allocationMatrix i) := by
    obtain ⟨g, hg, hfits⟩ := h
    obtain ⟨blocks, hblocks, -⟩ := hg.mayAccess_iff.1 hacc
    exact (hfits.within i f blocks hblocks).mem_tenants
  obtain ⟨a, n, hn, hend, hown, lo, hi, rfl, rfl, -, haddr⟩ := h.exists_range hf
  obtain ⟨hlow, hhigh⟩ := (haddr addr).1 hacc
  have hpos : 0 < a + n := by omega
  obtain ⟨k, hak, hkn, hk⟩ := Switch.exists_inBlock hlow (hhigh.trans_lt (Switch.last_lt_next hpos hend))
  refine ⟨hf, ?_, k, hk, hown k hak hkn⟩
  have hlt := hhigh.trans_lt (Switch.last_lt_memSize hpos hend)
  exact_mod_cast hlt

theorem blockSize_nonneg (cfg : ControllerConfig) : 0 ≤ cfg.blockSize := by
  rcases Nat.eq_zero_or_pos cfg.allocator.maxOccupancy with h0 | hpos
  · rw [ControllerConfig.blockSize, Switch.blockSize, h0, Nat.cast_zero, div_zero]
    exact (roundDouble_natCast (n := 0) (Nat.zero_le _)).ge.trans_eq' (by simp)
  · exact (Switch.blockSize_pos hpos).le

/-- The block of an address that a function may access belongs to it. -/
theorem Secure.owner_eq (h : Secure cfg c.switch c.allocator) {i : Stage} {f : Fid} {k addr : ℕ}
    (hacc : c.switch.MayAccess i f addr) (hk : InBlock cfg.blockSize k addr) :
    owner (c.allocator.allocationMatrix i) k = f := by
  obtain ⟨-, -, k', hk', hown⟩ := h.inBlock hacc
  rw [hk.unique (blockSize_nonneg cfg) hk', hown]

/-- An address that two functions may access. -/
theorem Secure.unique (h : Secure cfg c.switch c.allocator) {i : Stage} {f f' : Fid} {addr : ℕ}
    (hacc : c.switch.MayAccess i f addr) (hacc' : c.switch.MayAccess i f' addr) : f' = f := by
  obtain ⟨-, -, k, hk, hown⟩ := h.inBlock hacc
  rw [← h.owner_eq hacc' hk, hown]

end Controller

end ActiveRmt
