/-
**What an arrival disrupts.**

With the metric of reallocations, the cost of a variant is an estimate of the elastic functions that have
to move.  It is a formula in the size of the elastic region and the number of functions: if the fair
shares keep their size, the functions that had a block more and still have one do not move.  The formula
reads the size of the region off the demands, which is right as long as nobody departs.

Main definitions:

* `numChanges` — the pairs of a function and a stage in the answer of the allocator;
* `lostAt` — the elastic functions that lose a block of a stage;
* `Full` — no block below an offset is free.

Main results:

* `numChanges_eq` — the pairs, counted by stages;
* `Consistent.sum_inelastic` — the inelastic demands fill the blocks below the offset;
* `fairStart_of_lt` — **fair shares that keep their size**: how many move;
* `realloc_cost_bounds` — **the cost bounds the disruption**, in every run of arrivals in order.
-/

import ActiveRmt.Remapping
import ActiveRmt.Admission
import Mathlib.Combinatorics.Enumerative.DoubleCounting

set_option relaxedAutoImplicit false
set_option autoImplicit false

namespace ActiveRmt

open Blocks

namespace Allocator

variable {cfg : AllocatorConfig}

/-! ### Counting the changes -/

/-- The number of pairs of a function and a stage in the changes that are returned. -/
def numChanges (changes : Dict Fid (List (Stage × Stage × Bool))) : ℕ :=
  (changes.items.map fun p => p.2.length).sum

/-- Setting new keys adds their items. -/
theorem items_foldl_set {κ α β : Type} [DecidableEq κ] (key : β → κ) (val : β → α) {l : List β}
    (hn : (l.map key).Nodup) {d : Dict κ α} (hd : ∀ b ∈ l, key b ∉ d.keys) :
    (l.foldl (fun d b => d.set (key b) (val b)) d).items =
      d.items ++ l.map fun b => (key b, val b) := by
  have hput : ∀ (k : κ) (v : α) (its : List (κ × α)), k ∉ its.map Prod.fst →
      Dict.put k v its = its ++ [(k, v)] := by
    intro k v its hk
    induction its with
    | nil => rfl
    | cons p its ih =>
        rw [List.map_cons, List.mem_cons, not_or] at hk
        rw [Dict.put, if_neg (Ne.symm hk.1), ih hk.2, List.cons_append]
  induction l generalizing d with
  | nil => simp
  | cons b l ih =>
      rw [List.map_cons, List.nodup_cons] at hn
      rw [List.foldl_cons, ih hn.2 fun c hc hmem => ?_]
      · have hset : (d.set (key b) (val b)).items = d.items ++ [(key b, val b)] :=
          hput _ _ _ (hd b List.mem_cons_self)
        rw [hset, List.append_assoc, List.map_cons]
        rfl
      · rcases (Dict.mem_keys_set _ _ _ _).1 hmem with heq | hmem
        · exact hn.1 (heq ▸ List.mem_map_of_mem hc)
        · exact hd c (List.mem_cons_of_mem b hc) hmem

/-- The elastic functions that lose a block of a stage. -/
def lostAt (s : Allocator) (new : Stage → List ℕ) (i : Stage) : Finset Fid :=
  s.elasticApps.toFinset.filter fun f => i ∈ s.affectedStages new f

/-- **The changes, counted by stages.** -/
theorem numChanges_eq (s : Allocator) (new : Stage → List ℕ) :
    numChanges (s.computeChanges new) = ∑ i : Stage, (s.lostAt new i).card := by
  have hnodup : s.elasticApps.Nodup := List.nodup_reverse.2 (List.nodup_dedup _)
  have hitems := items_foldl_set (d := Dict.empty)
    (l := s.elasticApps.filter fun f => s.affectedStages new f ≠ []) (fun f => f)
    (fun f => (s.affectedStages new f).map fun i => (i, i, true))
    (by rw [List.map_id']; exact hnodup.filter _) (by simp [Dict.keys, Dict.empty])
  have hsum : numChanges (s.computeChanges new) =
      (s.elasticApps.map fun f => (s.affectedStages new f).length).sum := by
    rw [numChanges, computeChanges_eq_foldl, hitems, Dict.empty, List.nil_append, List.map_map]
    generalize s.elasticApps = l
    induction l with
    | nil => rfl
    | cons f l ih =>
        by_cases hnil : s.affectedStages new f = []
        · rw [List.filter_cons_of_neg (by simpa using hnil), ih, List.map_cons, List.sum_cons, hnil,
            List.length_nil, Nat.zero_add]
        · rw [List.filter_cons_of_pos (by simpa using hnil), List.map_cons, List.sum_cons, ih,
            List.map_cons, List.sum_cons]
          simp
  have hstages : ∀ f, (s.affectedStages new f).length =
      (Finset.univ.filter fun i => i ∈ s.affectedStages new f).card := by
    intro f
    have hn : (s.affectedStages new f).Nodup := nodup_stages.filter _
    rw [← List.toFinset_card_of_nodup hn]
    congr 1
    ext i
    simp
  calc numChanges (s.computeChanges new)
      = ∑ f ∈ s.elasticApps.toFinset,
          (Finset.univ.filter fun i => i ∈ s.affectedStages new f).card := by
        rw [hsum, List.sum_toFinset _ hnodup]
        exact congrArg List.sum (List.map_congr_left fun f _ => hstages f)
    _ = ∑ i : Stage, (s.lostAt new i).card :=
        Finset.sum_card_bipartiteAbove_eq_sum_card_bipartiteBelow _

/-! ### Arrivals only -/

/-- **No block below an offset is free.** -/
def Full (s : Allocator) : Prop := ∀ i, ∀ j < s.elasticOffset i, owner (s.allocationMatrix i) j ≠ 0

section Arrivals

variable {s t : Allocator} {af : ActiveFunction} {v : List Stage} {i : Stage} {new : Stage → List ℕ}

/-- **The inelastic demands fill the blocks below the offset.** -/
theorem Consistent.sum_inelastic (hs : Consistent cfg s) (hfull : Full s) (i : Stage) :
    ((s.demandList i).filter (1 < ·)).sum = s.elasticOffset i := by
  have hg := hs.geometry i
  have hlist : ((s.demandList i).filter (1 < ·)).sum =
      ∑ f ∈ (s.allocationMap i).filter fun f => 1 < s.demand i f, s.demand i f := by
    have hnd : ((ascending (s.allocationMap i)).filter fun f => 1 < s.demand i f).Nodup :=
      (nodup_ascending _).filter _
    rw [demandList, List.filter_map]
    refine (List.sum_toFinset (s.demand i) hnd).symm.trans (Finset.sum_congr ?_ fun _ _ => rfl)
    ext f
    simp
  have hmaps : ∀ j ∈ Finset.range (s.elasticOffset i), owner (s.allocationMatrix i) j ∈
      (s.allocationMap i).filter fun f => 1 < s.demand i f := by
    intro j hj
    have hj' := Finset.mem_range.1 hj
    have h0 := hfull i j hj'
    rw [Finset.mem_filter, ← hs.tenants_eq i]
    exact ⟨mem_tenants_iff.2 ⟨h0, j, rfl⟩, hg.one_lt_of_lt hj' h0⟩
  rw [hlist, ← Finset.card_range (s.elasticOffset i), Finset.card_eq_sum_card_fiberwise hmaps]
  refine Finset.sum_congr rfl fun f hf => ?_
  obtain ⟨hft, hδ⟩ := Finset.mem_filter.1 hf
  rw [← hs.tenants_eq i] at hft
  obtain ⟨a, hae, how⟩ := hg.pinned f hft hδ
  -- the blocks of a function below the offset are its run
  have hrun : (Finset.range (s.elasticOffset i)).filter (fun j => owner (s.allocationMatrix i) j = f) =
      Finset.Ico a (a + s.demand i f) := by
    ext j
    rw [Finset.mem_filter, Finset.mem_range, Finset.mem_Ico, how j]
    omega
  rw [hrun, Nat.card_Ico, Nat.add_sub_cancel_left]

/-- In a column without a free block below the offset there is no hole to find. -/
theorem Consistent.bestHole_eq_none (hs : Consistent cfg s) (hfull : Full s) (i : Stage) {d : ℕ}
    (hd : 1 < d) : bestHole d (holesBelow (s.elasticOffset i) (s.allocationMatrix i)) = none := by
  cases hb : bestHole d (holesBelow (s.elasticOffset i) (s.allocationMatrix i)) with
  | none => rfl
  | some p =>
      obtain ⟨hk, hsize⟩ := bestHole_some (show bestHole _ _ = some (p.1, p.2) from hb)
      have hpos : 0 < p.1.size := by omega
      obtain ⟨hlt, hrun⟩ := (hs.geometry i).scanAt.sound p.1 (List.mem_of_getElem? hk) hpos
      exact absurd (hrun.free p.1.start le_rfl (by omega)) (hfull i _ (by omega))

/-- An arrival leaves no free block below an offset. -/
theorem Consistent.full_arrival (hs : Consistent cfg s) (hfull : Full s) (ha : Arrival s af)
    (hv : v ∈ af.getEnumeration)
    (hsw : Sweep cfg (s.register af v) (arrivalMap s.allocationMap af.fid v) stages new t)
    (i : Stage) {j : ℕ} (hj : j < t.elasticOffset i) : owner (new i) j ≠ 0 := by
  have hnew := hs.newcomer ha
  have hr := hs.ready hnew hv
  have hp := hr.placed (hsw.done i (mem_stages i))
  rw [hsw.offset_next hs.toCoherent hnew hv] at hj
  -- the blocks below the old offset keep their owners
  have hkept : ∀ j < s.elasticOffset i,
      owner (new i) j = owner (s.allocationMatrix i) j := by
    intro j hj
    have h0 := hfull i j hj
    have hmem : owner (s.allocationMatrix i) j ∈ tenants (s.allocationMatrix i) :=
      mem_tenants_iff.2 ⟨h0, j, rfl⟩
    have hδ := (hs.geometry i).one_lt_of_lt hj h0
    have hmap := hmem
    rw [hs.tenants_eq i] at hmap
    exact (hp.pinned _ hmem (by rwa [hnew.demand_register_of_mem hmap]) j).2 rfl
  rcases Nat.lt_or_ge j (s.elasticOffset i) with hlt | hge
  · rw [hkept j hlt]
    exact hfull i j hlt
  · -- the new function has the blocks up to the new offset
    rw [nextOffset] at hj
    split_ifs at hj with hin
    · have hmem : af.fid ∈ tenants (new i) := by
        rw [hp.tenants_eq, arrivalMap, if_pos hin.1]
        exact Finset.mem_insert_self _ _
      obtain ⟨a, hae, how⟩ := hp.inv.pinned af.fid hmem
        (by rw [hnew.demand_register_eq hv hin.1]; exact hin.2.1)
      rw [hnew.demand_register_eq hv hin.1] at hae how
      have hoff := hsw.offset_next hs.toCoherent hnew hv i
      rw [nextOffset, if_pos hin] at hoff
      simp only [hoff] at hae
      have hstart : a = s.elasticOffset i := by
        refine le_antisymm (by omega) (Nat.not_lt.1 fun hlt => ?_)
        have hfid : owner (s.allocationMatrix i) a = af.fid := by
          rw [← hkept a hlt]
          exact (how a).2 ⟨le_rfl, by omega⟩
        refine hnew.absent i ?_
        rw [← hs.tenants_eq i, ← hfid]
        exact mem_tenants_iff.2 ⟨hfull i a hlt, a, rfl⟩
      rw [(how j).2 ⟨by omega, by omega⟩]
      exact ha.pos.ne'
    · omega

/-- **The state of a run of arrivals**: no free block below an offset, and fair shares above it. -/
structure Packed (cfg : AllocatorConfig) (s : Allocator) : Prop extends Consistent cfg s where
  /-- No block below an offset is free. -/
  full : Full s
  /-- The elastic regions are shared fairly. -/
  fair : ∀ i, FairRegion cfg.maxOccupancy (s.elasticOffset i) (s.elasticTenants i)
    (s.allocationMatrix i)

theorem packed_init (cfg : AllocatorConfig) : Packed cfg (init cfg) where
  toConsistent := consistent_init cfg
  full := fun i j hj => absurd hj (Nat.not_lt_zero j)
  fair := fun i => by
    have hnil : (init cfg).elasticTenants i = [] :=
      List.eq_nil_iff_forall_not_mem.2 fun f hf => by simpa [init] using (mem_elasticOf.1 hf).1
    rw [hnil]
    exact ⟨Nat.zero_le _, by simp, fun hne => absurd rfl hne⟩

/-- An arrival keeps the state packed, and adds its function at most. -/
theorem Packed.arrive (hs : Packed cfg s) (h : Step cfg s (.arrive af) t) :
    Packed cfg t ∧ ∀ i, ∀ f ∈ t.allocationMap i, f = af.fid ∨ f ∈ s.allocationMap i := by
  obtain ⟨ha, b, h⟩ := h
  have hstep : Step cfg s (.arrive af) t := ⟨ha, b, h⟩
  rcases hs.arrive_ok ha h with ⟨-, rfl⟩ | ⟨v, hv, new, t', rfl, hsw, rfl, hcon⟩
  · exact ⟨⟨hs.mark _ _, hs.full, hs.fair⟩, fun i f hf => .inr hf⟩
  · refine ⟨⟨hcon, fun i j hj => hs.full_arrival hs.full ha hv hsw i hj, hs.fairRegion ha h⟩,
      fun i f hf => ?_⟩
    have hf' : f ∈ arrivalMap s.allocationMap af.fid v i := hf
    rw [arrivalMap] at hf'
    split_ifs at hf'
    · exact Finset.mem_insert.1 hf'
    · exact .inr hf'

/-- **Runs of arrivals** are packed, and have no other residents than the functions that arrived. -/
theorem packed_of_run {afs : List ActiveFunction}
    (h : Run (Step cfg) (init cfg) (afs.map .arrive) s) :
    Packed cfg s ∧ ∀ i, ∀ f ∈ s.allocationMap i, f ∈ afs.map (·.fid) := by
  have key : ∀ {ops : List Op} {s : Allocator}, Run (Step cfg) (init cfg) ops s →
      ∀ afs : List ActiveFunction, ops = afs.map .arrive →
        Packed cfg s ∧ ∀ i, ∀ f ∈ s.allocationMap i, f ∈ afs.map (·.fid) := by
    intro ops s h
    induction h with
    | nil =>
        intro afs _
        exact ⟨packed_init cfg, fun i f hf => by simp [init] at hf⟩
    | snoc _ hstep ih =>
        intro afs hafs
        obtain ⟨afs', rest, rfl, rfl, hlast⟩ := List.map_eq_append_iff.1 hafs.symm
        obtain ⟨af, rfl, rfl⟩ := List.map_eq_singleton_iff.1 hlast
        obtain ⟨hpacked, hres⟩ := ih afs' rfl
        obtain ⟨hpacked', hres'⟩ := hpacked.arrive hstep
        refine ⟨hpacked', fun i f hf => ?_⟩
        rw [List.map_append, List.mem_append, List.map_singleton, List.mem_singleton]
        exact (hres' i f hf).symm.imp (hres i f) id
  exact key h afs rfl

end Arrivals

/-! ### The estimate -/

/-- **Fair shares that keep their size.**  If a further party does not make the shares smaller, those that
are a block longer before and after do not move. -/
theorem fairStart_of_lt {r n k : ℕ} (hdiv : r / (n + 1) = r / n) (hk : k < r % (n + 1)) :
    fairStart r (n + 1) k = fairStart r n k ∧ fairShare r (n + 1) k = fairShare r n k := by
  have h₁ := Nat.div_add_mod r (n + 1)
  have h₂ := Nat.div_add_mod r n
  rw [hdiv, Nat.succ_mul] at h₁
  have hlt : k < r % n := by
    have := Nat.zero_le (r / n)
    omega
  unfold fairStart fairShare
  rw [hdiv, min_eq_left hk.le, min_eq_left hlt.le, if_pos hk, if_pos hlt]
  exact ⟨rfl, rfl⟩

/-- The estimate of the functions that move at a stage, of `n` elastic functions in a region of `r`
blocks. -/
def movedEstimate (r : ℤ) (n d : ℕ) : ℚ :=
  if d = 1 ∧ 0 < n then
    if r / ((n : ℤ) + 1) < r / ((n : ℤ) + 1 - 1) then (((n : ℤ) + 1 - 1 : ℤ) : ℚ)
    else (((n : ℤ) + 1 - r % ((n : ℤ) + 1) - 1 : ℤ) : ℚ)
  else n

/-- What a variant that is not refused costs at a stage. -/
theorem costMovingAt_eq {s : Allocator} {i : Stage} {ds : List ℕ} {d : ℕ} {c : ℚ}
    (hds : s.demandsAt i = .ok ds) (h : s.costMovingAt cfg i d = .ok (some c)) :
    c = movedEstimate ((cfg.maxOccupancy : ℤ) - ((ds.filter (1 < ·)).sum : ℕ)) (ds.count 1) d := by
  unfold costMovingAt at h
  simp only [hds, bind, Except.bind] at h
  unfold movedEstimate
  generalize (if d = 1 ∧ 0 < ds.count 1 then _ else _ : ℚ) = moved at h ⊢
  have hnone : (.ok none : Except Exn (Option ℚ)) ≠ .ok (some c) := by simp
  have hsome : (.ok (some moved) : Except Exn (Option ℚ)) = .ok (some c) → c = moved := fun h =>
    (Option.some.inj (Except.ok.inj h)).symm
  by_cases hsum : ds.sum + d > cfg.maxOccupancy
  · rw [if_pos hsum] at h
    exact absurd h hnone
  rw [if_neg hsum] at h
  by_cases hd1 : d = 1
  · rw [if_pos hd1] at h
    split_ifs at h
    · exact absurd h hnone
    · exact hsome h
  rw [if_neg hd1] at h
  cases hhead : (s.fragmentation i).head? with
  | none =>
      simp only [hhead] at h
      split_ifs at h
      exacts [absurd h hnone, absurd h hnone, hsome h]
  | some fr =>
      simp only [hhead] at h
      split_ifs at h
      exacts [absurd h hnone, hsome h, absurd h hnone, absurd h hnone, hsome h]

/-- A sum of costs, each of which bounds a number, bounds their sum. -/
theorem sum_le_of_sumStages {stageCost : Stage → ℕ → Except Exn (Option ℚ)} {minDemand : List ℕ}
    {g : Stage → ℕ} {v : List Stage} {k : ℕ} {sum cost : ℚ}
    (hg : ∀ (j : ℕ) (i : Stage) (d : ℕ) (c : ℚ), v[j]? = some i → minDemand[k + j]? = some d →
      stageCost i d = .ok (some c) → (g i : ℚ) ≤ c)
    (h : sumStages (· + ·) stageCost minDemand v k sum = .ok cost) (hc : 0 ≤ cost) :
    sum + ((v.map g).sum : ℕ) ≤ cost := by
  induction v generalizing k sum with
  | nil =>
      obtain rfl := Except.ok.inj h
      simp
  | cons i v ih =>
      obtain ⟨d, c, hd, hst⟩ := sumStages_accepts h hc (j := 0) (i := i) rfl
      rw [Nat.add_zero] at hd
      simp only [sumStages, hd, hst, bind, Except.bind] at h
      have hrest := ih (fun j i' d' c' hj hd' => hg (j + 1) i' d' c' (by simpa using hj)
        (by rwa [Nat.add_right_comm, Nat.add_assoc] at hd')) h
      have hfirst := hg 0 i d c rfl (by rwa [Nat.add_zero]) hst
      rw [List.map_cons, List.sum_cons]
      push_cast at hrest ⊢
      linarith

section Cost

variable {s t : Allocator} {af : ActiveFunction} {v : List Stage} {i : Stage} {new : Stage → List ℕ}

/-- A share that begins and ends where it did is kept. -/
theorem Packed.kept (hs : Packed cfg s) (ha : Arrival s af) (hv : v ∈ af.getEnumeration)
    (hsw : Sweep cfg (s.register af v) (arrivalMap s.allocationMap af.fid v) stages new t)
    {k : ℕ} {f : Fid} (hk : (s.elasticTenants i)[k]? = some f)
    (hk' : (s.nextTenants af v i)[k]? = some f) (hoff : s.nextOffset af v i = s.elasticOffset i)
    (hsame : fairStart (cfg.maxOccupancy - s.elasticOffset i) (s.nextTenants af v i).length k =
        fairStart (cfg.maxOccupancy - s.elasticOffset i) (s.elasticTenants i).length k ∧
      fairShare (cfg.maxOccupancy - s.elasticOffset i) (s.nextTenants af v i).length k =
        fairShare (cfg.maxOccupancy - s.elasticOffset i) (s.elasticTenants i).length k) :
    ∀ b ∈ blocksOf (s.allocationMatrix i) f, owner (new i) b = f := by
  have hft := (mem_elasticOf.1 (List.mem_of_getElem? hk)).1
  have hf0 : f ≠ 0 := fun h0 => hs.zero_notMem i (h0 ▸ hft)
  have hnext := hsw.blocksOf_next hs.toCoherent (hs.newcomer ha) hv hk'
  rw [nextBlocks, hoff, hsame.1, hsame.2, ← ((hs.fair i).runs hk).blocksOf_eq hf0] at hnext
  intro b hb
  rw [← hnext] at hb
  exact (mem_blocksOf.1 hb).2

/-- At a stage that the variant does not use nothing changes. -/
theorem Packed.lostAt_eq_empty (hs : Packed cfg s) (ha : Arrival s af) (hv : v ∈ af.getEnumeration)
    (hsw : Sweep cfg (s.register af v) (arrivalMap s.allocationMap af.fid v) stages new t)
    (hi : i ∉ v) : (s.register af v).lostAt new i = ∅ := by
  refine Finset.filter_eq_empty_iff.2 fun f hf haff => ?_
  obtain ⟨hten, b, hb, hne⟩ := (hs.affected_iff ha).1 ⟨List.mem_toFinset.1 hf, haff⟩
  have hnext : s.nextTenants af v i = s.elasticTenants i := by
    rw [nextTenants, elasticTenants, arrivalMap, if_neg hi]
    refine List.filter_congr fun g hg => ?_
    rw [(hs.newcomer ha).demand_register_of_mem (mem_ascending.1 hg)]
  obtain ⟨k, hk⟩ := List.mem_iff_getElem?.1 hten
  exact hne (hs.kept ha hv hsw hk (by rwa [hnext]) (if_neg fun h => hi h.1)
    (by rw [hnext]; exact ⟨rfl, rfl⟩) b hb)

/-- **The estimate bounds the functions that lose blocks of a stage**, if the new function is the last. -/
theorem Packed.card_lostAt_le (hs : Packed cfg s) (ha : Arrival s af) (hv : v ∈ af.getEnumeration)
    (hsw : Sweep cfg (s.register af v) (arrivalMap s.allocationMap af.fid v) stages new t)
    (hlast : ∀ i, ∀ f ∈ s.allocationMap i, f < af.fid) (hi : i ∈ v) :
    (((s.register af v).lostAt new i).card : ℚ) ≤
      movedEstimate ((cfg.maxOccupancy : ℤ) - s.elasticOffset i) (s.elasticTenants i).length
        (demandFound v af.minDemand i) := by
  have hnew := hs.newcomer ha
  set E := s.elasticTenants i with hE
  -- those that lose a block are elastic functions of the stage
  have hsub : (s.register af v).lostAt new i ⊆
      (E.filter fun f => ∃ b ∈ blocksOf (s.allocationMatrix i) f, owner (new i) b ≠ f).toFinset := by
    intro f hf
    obtain ⟨happ, haff⟩ := Finset.mem_filter.1 hf
    obtain ⟨hten, hlost⟩ := (hs.affected_iff ha).1 ⟨List.mem_toFinset.1 happ, haff⟩
    exact List.mem_toFinset.2 (List.mem_filter.2 ⟨hten, decide_eq_true hlost⟩)
  have hcard := (Finset.card_le_card hsub).trans (List.toFinset_card_le _)
  have hall : ((s.register af v).lostAt new i).card ≤ E.length :=
    hcard.trans (List.length_filter_le _ _)
  rw [movedEstimate]
  split_ifs with hd hdiv
  · have : (((E.length : ℤ) + 1 - 1 : ℤ) : ℚ) = (E.length : ℚ) := by
      push_cast
      ring
    rw [this]
    exact_mod_cast hall
  · -- the shares keep their size, and the first ones their place
    obtain ⟨hd1, hpos⟩ := hd
    have hdemand : (s.register af v).demand i af.fid = 1 := (hnew.demand_register_eq hv hi).trans hd1
    have hnext : s.nextTenants af v i = E ++ [af.fid] := by
      refine List.Perm.eq_of_pairwise' (r := (· ≤ ·)) ?_ ?_
        ((hs.perm_elasticOf ha hi hdemand).trans (List.perm_append_singleton _ _).symm)
      · exact (pairwise_elasticOf _ _).imp fun h => h.le
      · refine List.pairwise_append.2 ⟨(pairwise_elasticOf _ _).imp fun h => h.le,
          List.pairwise_singleton _ _, fun f hf g hg => ?_⟩
        rw [List.mem_singleton] at hg
        exact hg ▸ (hlast i f (mem_elasticOf.1 hf).1).le
    have hoff : s.nextOffset af v i = s.elasticOffset i :=
      if_neg fun h => absurd h.2.1 (by rw [hd1]; exact lt_irrefl 1)
    have hle := (hs.geometry i).offset_le
    set r := cfg.maxOccupancy - s.elasticOffset i with hr
    have hrz : (cfg.maxOccupancy : ℤ) - s.elasticOffset i = (r : ℕ) := by omega
    have hnz : (E.length : ℤ) + 1 - 1 = (E.length : ℕ) := by omega
    rw [hrz, hnz] at hdiv
    have hdiv' : r / (E.length + 1) = r / E.length := by
      have hge : r / E.length ≤ r / (E.length + 1) := by
        have := Int.not_lt.1 hdiv
        exact_mod_cast this
      exact le_antisymm (Nat.div_le_div_left (Nat.le_succ _) hpos) hge
    have hkeep : ∀ k f, E[k]? = some f → k < r % (E.length + 1) →
        ∀ b ∈ blocksOf (s.allocationMatrix i) f, owner (new i) b = f := by
      intro k f hk hlt
      have hkE := (List.getElem?_eq_some_iff.1 hk).1
      refine hs.kept ha hv hsw hk ?_ hoff ?_
      · rw [hnext, List.getElem?_append_left hkE, hk]
      · rw [hnext, List.length_append, List.length_singleton]
        exact fairStart_of_lt hdiv' hlt
    have hfirst : (E.take (r % (E.length + 1))).filter (fun f =>
        ∃ b ∈ blocksOf (s.allocationMatrix i) f, owner (new i) b ≠ f) = [] := by
      refine List.filter_eq_nil_iff.2 fun f hf => ?_
      obtain ⟨k, hk, rfl⟩ := List.getElem_of_mem hf
      rw [List.length_take] at hk
      rw [List.getElem_take, decide_eq_true_eq]
      rintro ⟨b, hb, hne⟩
      exact hne (hkeep k _ (List.getElem?_eq_getElem (by omega)) (by omega) b hb)
    have hmod : r % (E.length + 1) ≤ E.length := Nat.lt_succ_iff.1 (Nat.mod_lt _ (Nat.succ_pos _))
    have hbound : ((s.register af v).lostAt new i).card ≤ E.length - r % (E.length + 1) := by
      refine hcard.trans ?_
      conv_lhs => rw [← List.take_append_drop (r % (E.length + 1)) E]
      rw [List.filter_append, hfirst, List.nil_append]
      exact (List.length_filter_le _ _).trans_eq (List.length_drop ..)
    have hvalue : (E.length : ℤ) + 1 - ((cfg.maxOccupancy : ℤ) - s.elasticOffset i) %
        ((E.length : ℤ) + 1) - 1 = ((E.length - r % (E.length + 1) : ℕ) : ℤ) := by
      rw [hrz, Nat.cast_sub hmod]
      push_cast
      ring
    rw [hvalue]
    exact_mod_cast hbound
  · exact_mod_cast hall

/-- **The cost bounds the disruption.**  With the metric of reallocations, after any run of arrivals with
increasing identifiers, an arrival changes no more functions and stages than the cost of the variant
chosen for it. -/
theorem realloc_cost_bounds {afs : List ActiveFunction} {ch : Choice} {s₁ s₂ : Allocator}
    {r : Dict Fid (List (Stage × Stage × Bool)) × Remaps × ℕ} (hm : cfg.metric = .realloc)
    (h : Run (Step cfg) (init cfg) (afs.map .arrive) s)
    (hinc : ((afs ++ [af]).map (·.fid)).Pairwise (· < ·)) (ha : Arrival s af)
    (hc : computeAllocation cfg af s = .ok (some ch) s₁)
    (he : enqueueAllocation cfg ch.allocation ch.allocationMap s₁ = .ok r s₂) :
    ∃ cost, (s.entered af).getCostMoving cfg ch.optimal af = .ok cost ∧ (numChanges r.1 : ℚ) ≤ cost := by
  obtain ⟨hs, hres⟩ := packed_of_run h
  obtain ⟨⟨rfl, hv, hal, hmap⟩, hcost, hnonneg⟩ := computeAllocation_some hc
  rw [getCost, hm] at hcost
  refine ⟨ch.optCost, hcost, ?_⟩
  have hlast : ∀ i, ∀ f ∈ s.allocationMap i, f < af.fid := by
    intro i f hf
    rw [List.map_append, List.pairwise_append] at hinc
    exact hinc.2.2 f (hres i f hf) af.fid (by simp)
  -- the changes are those of the new columns
  have hr : Ready cfg (s.register af ch.optimal) ch.allocationMap := hmap ▸ hs.ready (hs.newcomer ha) hv
  cases hmat : computeAllocationMatrix cfg ch.allocationMap (s.register af ch.optimal) with
  | error ex t => simp [enqueueAllocation_error hmat] at he
  | ok new t =>
      rw [enqueueAllocation_eq hr ch.allocation hmat] at he
      simp only [EStateM.Result.ok.injEq] at he
      obtain ⟨rfl, -⟩ := he
      have hsw := computeAllocationMatrix_ok hmat
      rw [hmap] at hsw
      have hstage : ∀ (j : ℕ) (i : Stage) (d : ℕ) (c : ℚ), ch.optimal[j]? = some i →
          af.minDemand[0 + j]? = some d → (s.entered af).costMovingAt cfg i d = .ok (some c) →
            ((((s.register af ch.optimal).lostAt new i).card : ℕ) : ℚ) ≤ c := by
        intro j i d c hj hd hcst
        have hi := List.mem_of_getElem? hj
        obtain ⟨hlt, rfl⟩ := List.getElem?_eq_some_iff.1 hj
        have hfound : demandFound ch.optimal af.minDemand ch.optimal[j] = d := by
          rw [Nat.zero_add] at hd
          rw [demandFound, ((hs.newcomer ha).wellFormed.nodup _ hv).idxOf_getElem j hlt,
            List.getD_eq_getElem?_getD, hd]
          rfl
        have hbound := hs.card_lostAt_le ha hv hsw hlast hi
        rw [hfound] at hbound
        rw [costMovingAt_eq (hs.demandsAt_entered ha _) hcst, hs.sum_inelastic hs.full,
          count_demandList, ← length_filter_ascending]
        exact hbound
      have hsum := sum_le_of_sumStages (g := fun i => ((s.register af ch.optimal).lostAt new i).card)
        hstage hcost hnonneg
      have hzero : ∑ i : Stage, ((s.register af ch.optimal).lostAt new i).card =
          (ch.optimal.map fun i => ((s.register af ch.optimal).lostAt new i).card).sum := by
        rw [← List.sum_toFinset _ ((hs.newcomer ha).wellFormed.nodup _ hv)]
        refine (Finset.sum_subset (Finset.subset_univ _) fun i _ hi => ?_).symm
        rw [hs.lostAt_eq_empty ha hv hsw fun h => hi (List.mem_toFinset.2 h), Finset.card_empty]
      rw [zero_add] at hsum
      have hnum := (numChanges_eq (s.register af ch.optimal) new).trans hzero
      exact (congrArg Nat.cast hnum).trans_le hsum

/-- A third function arrives at a stage of eight blocks: of the two residents, both move. -/
theorem realloc_cost_bounds_third :
    ∃ s ch s₁ r s₂ cost, execute ⟨8, .realloc, true, true⟩
        ([.singleAccess 1 0 1, .singleAccess 2 0 1].map .arrive) (init ⟨8, .realloc, true, true⟩) =
          some s ∧
      computeAllocation ⟨8, .realloc, true, true⟩ (.singleAccess 3 0 1) s = .ok (some ch) s₁ ∧
      enqueueAllocation ⟨8, .realloc, true, true⟩ ch.allocation ch.allocationMap s₁ = .ok r s₂ ∧
      (s.entered (.singleAccess 3 0 1)).getCostMoving ⟨8, .realloc, true, true⟩ ch.optimal
        (.singleAccess 3 0 1) = .ok cost ∧ (numChanges r.1 : ℚ) ≤ cost := by
  have hex : (execute ⟨8, .realloc, true, true⟩
      ([.singleAccess 1 0 1, .singleAccess 2 0 1].map .arrive)
      (init ⟨8, .realloc, true, true⟩)).any (fun s => Arrival s (.singleAccess 3 0 1) ∧
        (enqueued ⟨8, .realloc, true, true⟩ s (.singleAccess 3 0 1)).isSome) = true := by
    decide +kernel
  obtain ⟨s, hs, hex⟩ := (Option.any_eq_true _ _).1 hex
  obtain ⟨ha, he⟩ := of_decide_eq_true hex
  obtain ⟨⟨remaps, plan⟩, he⟩ := Option.isSome_iff_exists.1 he
  obtain ⟨ch, s₁, r, s₂, hc, he, -⟩ := exists_of_enqueued he
  obtain ⟨cost, hcost, hle⟩ := realloc_cost_bounds rfl (run_iff_execute.2 hs) (by decide) ha hc he
  exact ⟨s, ch, s₁, r, s₂, cost, hs, hc, he, hcost, hle⟩

end Cost

end Allocator

end ActiveRmt
