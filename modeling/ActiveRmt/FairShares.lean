/-
**Fair shares of a stage.**

When a function arrives, the elastic region of each stage is cut anew: the blocks are dealt in rounds to
the elastic functions of the stage, in increasing order, and the shares are written one after the other
from the offset on.  The outcome has a closed form, in which neither the order of the arrivals nor the
departures in between occur.

Main definitions:

* `fairColumn` — the owners of the blocks of a region that is shared fairly;
* `FairRegion` — a column whose elastic region is shared fairly;
* `elasticTenants` — the elastic functions of a stage.

Main results:

* `sharesOf_eq` — the shares that the code computes;
* `drop_writeRuns` — shares that fill a column;
* `Sweep.fairRegion` — **an arrival leaves every elastic region shared fairly**;
* `elastic_shares` — the same after any run of arrivals and departures.
-/

import ActiveRmt.AllocatorRuns

set_option relaxedAutoImplicit false
set_option autoImplicit false

namespace ActiveRmt

open Blocks

namespace Allocator

variable {cfg : AllocatorConfig}

/-! ### The shares -/

/-- **The shares that the code computes.** -/
theorem getElem?_sharesOf {r : ℕ} {E : List Fid} (i : ℕ) :
    (sharesOf r E)[i]? = E[i]?.map fun f => (f, fairShare r E.length i) := by
  cases E with
  | nil =>
      have hnil := length_sharesOf r []
      rw [List.length_nil, List.length_eq_zero_iff] at hnil
      simp [hnil]
  | cons f E =>
      rw [sharesOf, deal_eq (by simp) le_rfl, List.length_map, List.getElem?_map, Option.map_map]
      refine congrArg (Option.map · _) (funext fun g => ?_)
      simp only [Function.comp_apply, Nat.zero_add]

theorem sharesOf_eq (r : ℕ) (E : List Fid) :
    sharesOf r E = E.zipIdx.map fun p => (p.1, fairShare r E.length p.2) := by
  refine List.ext_getElem? fun i => ?_
  rw [getElem?_sharesOf, List.getElem?_map, List.getElem?_zipIdx, Option.map_map, Nat.zero_add]
  rfl

/-- Where the shares begin. -/
theorem total_take_sharesOf {r : ℕ} {E : List Fid} {k : ℕ} (hk : k ≤ E.length) :
    total ((sharesOf r E).take k) = fairStart r E.length k := by
  induction k with
  | zero => simp [fairStart]
  | succ k ih =>
      rw [List.take_add_one, total_append, ih (Nat.le_of_succ_le hk), fairStart_succ, getElem?_sharesOf,
        List.getElem?_eq_getElem hk]
      simp

/-- Shares that fill the column from the offset on. -/
theorem drop_writeRuns {c : List ℕ} {a : ℕ} {l : List (ℕ × ℕ)} (h : a + total l = c.length) :
    (writeRuns c a l).drop a = l.flatMap fun p => List.replicate p.2 p.1 := by
  induction l generalizing c a with
  | nil => simpa [writeRuns] using h.ge
  | cons p l ih =>
      rw [total_cons] at h
      have hlen : a + p.2 + total l = (writeRange c a p.2 p.1).length := by
        rw [length_writeRange]
        omega
      have hfirst : ((writeRuns c a (p :: l)).drop a).take p.2 = List.replicate p.2 p.1 := by
        refine List.eq_replicate_iff.2 ⟨?_, fun x hx => ?_⟩
        · rw [List.length_take, List.length_drop, length_writeRuns]
          omega
        · obtain ⟨k, hk, rfl⟩ := List.getElem_of_mem hx
          rw [List.length_take] at hk
          have hlt : a + k < (writeRuns c a (p :: l)).length := by
            rw [length_writeRuns]
            omega
          rw [List.getElem_take, List.getElem_drop, ← owner_eq_getElem hlt, writeRuns,
            owner_writeRuns_of_not hlen.le (by omega), owner_writeRange (by omega),
            if_pos (by omega)]
      rw [← List.take_append_drop p.2 ((writeRuns c a (p :: l)).drop a), hfirst, List.drop_drop,
        List.flatMap_cons]
      congr 1
      exact ih hlen

/-- **A region of `r` blocks that is shared fairly** by the functions `E`. -/
def fairColumn (r : ℕ) (E : List Fid) : List Fid :=
  E.zipIdx.flatMap fun p => List.replicate (fairShare r E.length p.2) p.1

/-- **A column whose elastic region is shared fairly**: the blocks from the offset `e` on, by `E`. -/
structure FairRegion (n e : ℕ) (E : List Fid) (col : List ℕ) : Prop where
  /-- There is a block for each function. -/
  fits : e + E.length ≤ n
  /-- Each function holds its share, behind the shares of those before it. -/
  runs : ∀ {k : ℕ} {f : Fid}, E[k]? = some f →
    Owns col f (e + fairStart (n - e) E.length k) (fairShare (n - e) E.length k)
  /-- Nothing else is in the region. -/
  drop_eq : E ≠ [] → col.drop e = fairColumn (n - e) E

/-- The share of a function is a block at least. -/
theorem FairRegion.one_le {n e : ℕ} {E : List Fid} {col : List ℕ} (h : FairRegion n e E col)
    (hE : E ≠ []) : 1 ≤ (n - e) / E.length := by
  have hpos : 0 < E.length := List.length_pos_of_ne_nil hE
  have hfits := h.fits
  exact (Nat.le_div_iff_mul_le hpos).2 (by omega)

/-- **The elastic fill shares fairly.** -/
theorem fairRegion_of_fill {n e : ℕ} {E : List Fid} {base col : List ℕ} (hlen : base.length = n)
    (hn : E.Nodup) (hnew : ∀ f ∈ E, f ≠ 0 ∧ ∀ j, owner base j ≠ f) (he : e ≤ n)
    (h : fillRuns e E base = .ok col) : FairRegion n e E col := by
  unfold fillRuns at h
  split_ifs at h with hnil hfit
  · exact ⟨by simpa [hnil] using he, by simp [hnil], fun hne => absurd hnil hne⟩
  · obtain rfl := Except.ok.inj h
    have htot := total_sharesOf (r := base.length - e) hnil
    have hkeys := map_fst_sharesOf (base.length - e) E
    rw [hlen] at htot hkeys hfit ⊢
    refine ⟨by omega, fun {k f} hk => ?_, fun _ => ?_⟩
    · have hlt := (List.getElem?_eq_some_iff.1 hk).1
      have hshare : (sharesOf (n - e) E)[k]? = some (f, fairShare (n - e) E.length k) := by
        rw [getElem?_sharesOf, hk]
        rfl
      have howns := owns_writeRuns_getElem (by omega) (by rwa [hkeys]) (fun p hp => (hnew p.1 (by
        rw [← hkeys]
        exact List.mem_map_of_mem hp)).2) hshare (c := base) (a := e)
      rwa [total_take_sharesOf hlt.le] at howns
    · rw [drop_writeRuns (by omega), sharesOf_eq, fairColumn, List.flatMap_map]

/-! ### Arrivals -/

section Arrival

variable {s t : Allocator} {map : Stage → Finset Fid} {new : Stage → List ℕ}

/-- **An arrival leaves every elastic region shared fairly.** -/
theorem Sweep.fairRegion (hr : Ready cfg s map) (h : Sweep cfg s map stages new t) (i : Stage) :
    FairRegion cfg.maxOccupancy (t.elasticOffset i) (elasticOf (s.demand i) (map i)) (new i) := by
  have hdone := h.done i (mem_stages i)
  have hinv := (hr.placed hdone).inv
  unfold stageResult at hdone
  split_ifs at hdone with hempty
  · have hnil : elasticOf (s.demand i) (map i) = [] :=
      List.eq_nil_iff_forall_not_mem.2 fun f hf => by
        have := (mem_elasticOf.1 hf).1
        simp [hempty] at this
    have hle := hinv.offset_le
    simp only at hle
    exact ⟨by simpa [hnil] using hle, by simp [hnil], fun hne => absurd hnil hne⟩
  · obtain ⟨base, st', hb, hnew, hf, hst⟩ := placeStage_halves (hr.geometry i)
      (fun f hf => (hr.demand_ok i f hf).1) (fun f hf => (hr.demand_ok i f hf).2)
      (hr.tenants_subset i) (hr.arrivals i) (hr.zero_notMem i) hdone
    obtain ⟨-, hoff⟩ := (StageState.mk.injEq _ _ _ _).mp hst
    rw [hoff]
    exact fairRegion_of_fill hb.length_eq ((nodup_ascending _).filter _) hnew hb.offset_le hf

end Arrival

/-- The elastic functions of a stage, in increasing order. -/
def elasticTenants (s : Allocator) (i : Stage) : List Fid :=
  elasticOf (s.demand i) (s.allocationMap i)

/-- The elastic functions are those that hold blocks of a stage and demand one. -/
theorem Linked.mem_elasticTenants {s : Allocator} (hs : Linked s) {i : Stage} {f : Fid} :
    f ∈ s.elasticTenants i ↔ f ∈ tenants (s.allocationMatrix i) ∧ s.getMinDemand f i = .ok 1 := by
  rw [elasticTenants, mem_elasticOf, hs.tenants_eq i]
  refine and_congr_right fun hf => ?_
  rw [(hs.demand_ok i f hf).1, Except.ok.injEq]

section Runs

variable {s t : Allocator} {ops : List Op} {af : ActiveFunction}

/-- After a successful arrival every elastic region is shared fairly. -/
theorem Consistent.fairRegion (hs : Consistent cfg s) (ha : Arrival s af)
    (h : arrive cfg af s = .ok true t) (i : Stage) :
    FairRegion cfg.maxOccupancy (t.elasticOffset i) (t.elasticTenants i) (t.allocationMatrix i) := by
  rcases hs.arrive_ok ha h with ⟨hb, -⟩ | ⟨v, hv, new, t', -, hsw, rfl, -⟩
  · simp at hb
  · have hfair := hsw.fairRegion (hs.ready (hs.newcomer ha) hv) i
    have hdemand : (t'.applied ⟨s.allocation ∪ v.toFinset, arrivalMap s.allocationMap af.fid v,
        reverseMap (arrivalMap s.allocationMap af.fid v), new⟩).demand i =
          (s.register af v).demand i := by
      funext f
      rw [demand, demand, ← hsw.getMinDemand_eq]
      rfl
    rw [elasticTenants, hdemand]
    exact hfair

/-- **Elastic functions share fairly.**  After an arrival that succeeds, in any run of arrivals and
departures, the elastic functions of a stage hold its blocks from the offset on, one behind the other in
increasing order; the first ones hold a block more if the number of blocks is not a multiple of the
number of functions, and each holds a block at least. -/
theorem elastic_shares (h : Run (Step cfg) (init cfg) ops s) (ha : Arrival s af)
    (harr : arrive cfg af s = .ok true t) (i : Stage) (hne : t.elasticTenants i ≠ []) :
    (t.elasticTenants i).Pairwise (· < ·) ∧
      (∀ f, f ∈ t.elasticTenants i ↔
        f ∈ tenants (t.allocationMatrix i) ∧ t.getMinDemand f i = .ok 1) ∧
      (t.allocationMatrix i).drop (t.elasticOffset i) =
        fairColumn (cfg.maxOccupancy - t.elasticOffset i) (t.elasticTenants i) ∧
      1 ≤ (cfg.maxOccupancy - t.elasticOffset i) / (t.elasticTenants i).length ∧
      ∀ k f, (t.elasticTenants i)[k]? = some f → Owns (t.allocationMatrix i) f
        (t.elasticOffset i +
          fairStart (cfg.maxOccupancy - t.elasticOffset i) (t.elasticTenants i).length k)
        (fairShare (cfg.maxOccupancy - t.elasticOffset i) (t.elasticTenants i).length k) := by
  have hs := consistent_of_run h
  have hfair := hs.fairRegion ha harr i
  have hstep : Step cfg s (.arrive af) t := ⟨ha, true, harr⟩
  have ht := hs.step hstep
  exact ⟨pairwise_elasticOf _ _, fun f => ht.mem_elasticTenants, hfair.drop_eq hne, hfair.one_le hne,
    fun k f hk => hfair.runs hk⟩

/-- The state after an arrival that is admitted. -/
def admitted (cfg : AllocatorConfig) (s : Allocator) (af : ActiveFunction) : Option Allocator :=
  match arrive cfg af s with
  | .ok true t => some t
  | _ => none

theorem arrive_of_admitted {s t : Allocator} {af : ActiveFunction} (h : admitted cfg s af = some t) :
    arrive cfg af s = .ok true t := by
  unfold admitted at h
  split at h
  · rename_i u harr
    rw [harr, Option.some.inj h]
  · exact absurd h (by simp)

/-- A stage of eight blocks after a departure: the functions one, three and four share it. -/
theorem elastic_shares_four :
    ∃ s t : Allocator, Run (Step ⟨8, .cost, true, true⟩) (init ⟨8, .cost, true, true⟩)
        [.arrive (.singleAccess 1 0 1), .arrive (.singleAccess 2 0 1), .arrive (.singleAccess 3 0 1),
          .depart 2] s ∧
      t.elasticTenants 0 = [1, 3, 4] ∧
      (t.allocationMatrix 0).drop (t.elasticOffset 0) =
        fairColumn (8 - t.elasticOffset 0) (t.elasticTenants 0) := by
  have hex : (execute ⟨8, .cost, true, true⟩
      [.arrive (.singleAccess 1 0 1), .arrive (.singleAccess 2 0 1), .arrive (.singleAccess 3 0 1),
        .depart 2] (init ⟨8, .cost, true, true⟩)).any (fun s =>
          decide (Arrival s (.singleAccess 4 0 1)) &&
            (admitted ⟨8, .cost, true, true⟩ s (.singleAccess 4 0 1)).any fun t =>
              decide (t.elasticTenants 0 = [1, 3, 4])) = true := by decide +kernel
  obtain ⟨s, hs, hex⟩ := (Option.any_eq_true _ _).1 hex
  rw [Bool.and_eq_true, decide_eq_true_eq] at hex
  obtain ⟨ha, hex⟩ := hex
  obtain ⟨t, ht, hten⟩ := (Option.any_eq_true _ _).1 hex
  rw [decide_eq_true_eq] at hten
  exact ⟨s, t, run_iff_execute.2 hs, hten,
    (elastic_shares (run_iff_execute.2 hs) ha (arrive_of_admitted ht) 0 (by rw [hten]; decide)).2.2.1⟩

end Runs

end Allocator

end ActiveRmt
