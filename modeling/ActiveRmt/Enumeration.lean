/-
**Enumeration: the placements that the loop visits.**

The loop moves the last position that can still move, and puts the positions behind it back to the
distances of the program.  It visits the placements like the numbers of a counter: for each value of the
first position, all placements of the others behind it.  A position that was put back may stand beyond
its bound; then it stays where it is.

Read forwards, the loop is a walk along a function that ends where the function is not defined.  The list
of placements is defined by recursion on the accesses, and shown to be such a walk.

Main definitions:

* `Visits` — a walk along a partial function;
* `orbit` — the placements behind a position, one access after the other;
* `Stepwise` — each position keeps its distance, and passes its bound only when it has just been put
  back;
* `NoWrap` — no position leaves the 32-bit words;
* `Delayed` — the same in terms of delays;
* `Variant` — the placements between two bounds that keep the distances.

Main results:

* `mem_orbit`, `pairwise_orbit` — the placements, and their order;
* `visits_orbit` — **the loop walks along them**;
* `enumerateLoop_eq_orbit` — the loop ends, and has visited them;
* `enumerateLoop_exact` — **with equal room for all accesses, the loop visits the placements between
  the bounds that keep the distances**.
-/

import ActiveRmt.Sharing
import Mathlib.Data.List.Lex
import Mathlib.Algebra.Order.BigOperators.Group.List

set_option relaxedAutoImplicit false
set_option autoImplicit false

namespace ActiveRmt

/-! ### Walks -/

/-- A walk along a partial function, up to where it is not defined. -/
inductive Visits {α : Type} (succ : α → Option α) : α → List α → Prop
  | last {a : α} (h : succ a = none) : Visits succ a [a]
  | next {a b : α} {l : List α} (h : succ a = some b) (hl : Visits succ b l) : Visits succ a (a :: l)

/-- A walk in one block, and what follows: the function of the blocks is that of the block, and goes
on from its end. -/
theorem Visits.block {α β : Type} {succ : α → Option α} {succ' : β → Option β} (f : α → β)
    {a : α} {l : List α} (h : Visits succ a l) (hsome : ∀ a b, succ a = some b → succ' (f a) = some (f b))
    {b : β} {l' : List β} (hnone : ∀ a, succ a = none → succ' (f a) = some b) (hl' : Visits succ' b l') :
    Visits succ' (f a) (l.map f ++ l') := by
  induction h with
  | last h => exact .next (hnone _ h) hl'
  | next h _ ih => exact .next (hsome _ _ h) ih

/-- The last block. -/
theorem Visits.map {α β : Type} {succ : α → Option α} {succ' : β → Option β} (f : α → β) {a : α}
    {l : List α} (h : Visits succ a l) (hsome : ∀ a b, succ a = some b → succ' (f a) = some (f b))
    (hnone : ∀ a, succ a = none → succ' (f a) = none) : Visits succ' (f a) (l.map f) := by
  induction h with
  | last h => exact .last (hnone _ h)
  | next h _ ih => exact .next (hsome _ _ h) ih

namespace ActiveFunction

/-- **The loop follows a walk to its end**, with any fuel that is enough for it. -/
theorem enumerateLoop_eq {ub delta cur : List ℕ} {l : List (List ℕ)}
    (h : Visits (fun x => successor x ub delta) cur l) {fuel : ℕ} (hf : l.length ≤ fuel) :
    enumerateLoop ub delta fuel cur = l := by
  induction h generalizing fuel with
  | last h =>
      obtain ⟨n, rfl⟩ := Nat.exists_eq_add_of_le' hf
      simp only [enumerateLoop, h, List.length_singleton]
  | next h _ ih =>
      rw [List.length_cons] at hf
      obtain ⟨n, rfl⟩ := Nat.exists_eq_succ_of_ne_zero (Nat.ne_of_gt (Nat.zero_lt_of_lt hf))
      simp only [enumerateLoop, h, List.cons.injEq, true_and]
      exact ih (Nat.le_of_succ_le_succ hf)

/-! ### The placements -/

/-- The number of values that a position takes from `x` on. -/
def width (x u : ℕ) : ℕ := max 1 (u + 1 - x)

/-- **The placements behind a position**, in the order of the loop. -/
def orbit : ℕ → List ℕ → List ℕ → List (List ℕ)
  | prev, u :: us, d :: ds =>
      (List.range' (prev + d) (width (prev + d) u)).flatMap fun x => (orbit x us ds).map (x :: ·)
  | _, _, _ => [[]]

/-- Each position keeps its distance to the one before it, and passes its bound only when it has no more
than that distance. -/
def Stepwise : ℕ → List ℕ → List ℕ → List ℕ → Prop
  | prev, u :: us, d :: ds, x :: xs =>
      (prev + d ≤ x ∧ (x ≤ u ∨ x = prev + d)) ∧ Stepwise x us ds xs
  | _, _ :: _, _ :: _, [] => False
  | _, _, _, x => x = []

/-- No position leaves the 32-bit words, if the one before does not pass `p`. -/
def NoWrap : ℕ → List ℕ → List ℕ → Prop
  | p, u :: us, d :: ds => (p + d < 2 ^ 32 ∧ u < 2 ^ 32) ∧ NoWrap (max (p + d) u) us ds
  | _, _, _ => True

theorem mem_range'_width {a u x : ℕ} :
    x ∈ List.range' a (width a u) ↔ a ≤ x ∧ (x ≤ u ∨ x = a) := by
  rw [List.mem_range'_1, width]
  omega

theorem mem_orbit {prev : ℕ} {us ds x : List ℕ} : x ∈ orbit prev us ds ↔ Stepwise prev us ds x := by
  induction us generalizing prev ds x with
  | nil => simp [orbit, Stepwise]
  | cons u us ih =>
      cases ds with
      | nil => simp [orbit, Stepwise]
      | cons d ds =>
          simp only [orbit, List.mem_flatMap, mem_range'_width, List.mem_map]
          cases x with
          | nil => simp [Stepwise]
          | cons x xs =>
              rw [Stepwise, ← ih]
              constructor
              · rintro ⟨y, hy, ys, hys, heq⟩
                obtain ⟨rfl, rfl⟩ := List.cons.inj heq
                exact ⟨hy, hys⟩
              · rintro ⟨hx, hxs⟩
                exact ⟨x, hx, xs, hxs, rfl⟩

/-- The loop visits the placements in increasing order. -/
theorem pairwise_orbit (prev : ℕ) (us ds : List ℕ) : (orbit prev us ds).Pairwise (· < ·) := by
  induction us generalizing prev ds with
  | nil => simp [orbit]
  | cons u us ih =>
      cases ds with
      | nil => simp [orbit]
      | cons d ds =>
          rw [orbit, List.pairwise_flatMap]
          constructor
          · intro x _
            exact List.pairwise_map.2 ((ih x ds).imp fun h => List.cons_lt_cons_iff.2 (.inr ⟨rfl, h⟩))
          · refine (List.pairwise_lt_range' 1 Nat.one_pos).imp fun {x y} hxy => ?_
            intro a ha b hb
            obtain ⟨as, -, rfl⟩ := List.mem_map.1 ha
            obtain ⟨bs, -, rfl⟩ := List.mem_map.1 hb
            exact List.cons_lt_cons_iff.2 (.inl hxy)

theorem NoWrap.mono {p q : ℕ} {us ds : List ℕ} (h : NoWrap q us ds) (hpq : p ≤ q) :
    NoWrap p us ds := by
  induction us generalizing p q ds with
  | nil => trivial
  | cons u us ih =>
      cases ds with
      | nil => trivial
      | cons d ds => exact ⟨⟨by have := h.1.1; omega, h.1.2⟩, ih h.2 (by omega)⟩

/-- The placements of all values of the first position, from `x` on. -/
theorem visits_heads {u d : ℕ} {us ds : List ℕ}
    (hrest : ∀ x, x < 2 ^ 32 → x ≤ u → Visits (fun y => successor y us ds) (refill x ds) (orbit x us ds))
    {n x : ℕ} (hn : x + n = max x u)
    (hfirst : Visits (fun y => successor y us ds) (refill x ds) (orbit x us ds)) (hu : u < 2 ^ 32) :
    Visits (fun y => successor y (u :: us) (d :: ds)) (x :: refill x ds)
      ((List.range' x (n + 1)).flatMap fun x => (orbit x us ds).map (x :: ·)) := by
  have hsome : ∀ (x : ℕ) (a b : List ℕ), successor a us ds = some b →
      successor (x :: a) (u :: us) (d :: ds) = some (x :: b) := fun x a b h => by
    simp only [successor, h]
  induction n generalizing x with
  | zero =>
      rw [List.range'_one, List.flatMap_singleton]
      refine hfirst.map (x :: ·) (hsome x) fun a ha => ?_
      simp only [successor, ha]
      exact if_pos (by omega)
  | succ n ih =>
      rw [List.range'_succ, List.flatMap_cons]
      refine hfirst.block (x :: ·) (hsome x) (fun a ha => ?_)
        (ih (by omega) (hrest (x + 1) (by omega) (by omega)))
      simp only [successor, ha]
      exact if_neg (by omega)

/-- **The loop walks along the placements.** -/
theorem visits_orbit {prev p : ℕ} {us ds : List ℕ} (hlen : us.length = ds.length) (hp : prev ≤ p)
    (hwrap : NoWrap p us ds) :
    Visits (fun x => successor x us ds) (refill prev ds) (orbit prev us ds) := by
  induction us generalizing prev p ds with
  | nil =>
      obtain rfl := List.eq_nil_of_length_eq_zero hlen.symm
      exact .last rfl
  | cons u us ih =>
      cases ds with
      | nil => exact absurd hlen (Nat.succ_ne_zero _)
      | cons d ds =>
          have hlen' : us.length = ds.length := Nat.succ.inj hlen
          obtain ⟨⟨hpd, hu⟩, hrest⟩ := hwrap
          have hx : (prev + d) % 2 ^ 64 % 2 ^ 32 = prev + d := by omega
          have hwidth : width (prev + d) u = (max (prev + d) u - (prev + d)) + 1 := by
            unfold width
            omega
          rw [refill, hx, orbit, hwidth]
          exact visits_heads (fun x _ hxu => ih hlen' (hxu.trans (le_max_right _ _)) hrest)
            (by omega) (ih hlen' (by omega) hrest) hu

/-- There are no more placements than vectors of 32-bit words. -/
theorem length_orbit_le {prev p : ℕ} {us ds : List ℕ} (hp : prev ≤ p) (hwrap : NoWrap p us ds) :
    (orbit prev us ds).length ≤ (2 ^ 32) ^ ds.length := by
  induction us generalizing prev p ds with
  | nil =>
      exact Nat.one_le_pow ds.length (2 ^ 32) (by decide)
  | cons u us ih =>
      cases ds with
      | nil => simp [orbit]
      | cons d ds =>
          obtain ⟨⟨hpd, hu⟩, hrest⟩ := hwrap
          rw [orbit, List.length_flatMap]
          have hone : ∀ k ∈ (List.range' (prev + d) (width (prev + d) u)).map fun x =>
              ((orbit x us ds).map (x :: ·)).length, k ≤ (2 ^ 32) ^ ds.length := by
            intro k hk
            obtain ⟨x, hx, rfl⟩ := List.mem_map.1 hk
            have hxp := (mem_range'_width.1 hx).2
            rw [List.length_map]
            exact ih (by omega) hrest
          calc _ ≤ ((List.range' (prev + d) (width (prev + d) u)).map fun x =>
                ((orbit x us ds).map (x :: ·)).length).length • (2 ^ 32) ^ ds.length :=
                List.sum_le_card_nsmul _ _ hone
            _ ≤ 2 ^ 32 * (2 ^ 32) ^ ds.length := by
                rw [List.length_map, List.length_range', smul_eq_mul]
                refine Nat.mul_le_mul_right _ ?_
                unfold width
                omega
            _ = (2 ^ 32) ^ (d :: ds).length := (pow_succ' (2 ^ 32) ds.length).symm

/-- **The loop ends, and has visited the placements.** -/
theorem enumerateLoop_eq_orbit {us ds : List ℕ} (hlen : us.length = ds.length) (hwrap : NoWrap 0 us ds)
    {fuel : ℕ} (hfuel : 2 ^ (32 * ds.length) ≤ fuel) :
    enumerateLoop us ds fuel (refill 0 ds) = orbit 0 us ds :=
  enumerateLoop_eq (visits_orbit hlen le_rfl hwrap)
    ((length_orbit_le le_rfl hwrap).trans ((pow_mul 2 32 _).symm.le.trans hfuel))

/-! ### Positions by index -/

/-- A stepwise vector, by its indices: the position before the first is `prev`. -/
theorem stepwise_iff {prev : ℕ} {us ds x : List ℕ} (hlen : us.length = ds.length) :
    Stepwise prev us ds x ↔ x.length = ds.length ∧ ∀ i < ds.length,
      (prev :: x).getD i 0 + ds.getD i 0 ≤ x.getD i 0 ∧
        (x.getD i 0 ≤ us.getD i 0 ∨ x.getD i 0 = (prev :: x).getD i 0 + ds.getD i 0) := by
  induction us generalizing prev ds x with
  | nil =>
      obtain rfl := List.eq_nil_of_length_eq_zero hlen.symm
      simp [Stepwise]
  | cons u us ih =>
      cases ds with
      | nil => exact absurd hlen (Nat.succ_ne_zero _)
      | cons d ds =>
          cases x with
          | nil => simp [Stepwise]
          | cons x xs =>
              rw [Stepwise, ih (Nat.succ.inj hlen)]
              constructor
              · rintro ⟨h0, hl, hrest⟩
                refine ⟨congrArg Nat.succ hl, fun i hi => ?_⟩
                cases i with
                | zero => exact h0
                | succ i => exact hrest i (Nat.lt_of_succ_lt_succ hi)
              · rintro ⟨hl, hall⟩
                exact ⟨hall 0 (Nat.succ_pos _), Nat.succ.inj hl,
                  fun i hi => hall (i + 1) (Nat.succ_lt_succ hi)⟩

/-- The distance of an access to the one before it. -/
theorem getD_deltas {prev : ℕ} {lbs : List ℕ} (hs : (prev :: lbs).Pairwise (· ≤ ·))
    (hlt : ∀ a ∈ lbs, a < 2 ^ 64) {i : ℕ} (hi : i < lbs.length) :
    (prev :: lbs).getD i 0 + (deltas prev lbs).getD i 0 = lbs.getD i 0 := by
  induction lbs generalizing prev i with
  | nil => exact absurd hi (Nat.not_lt_zero _)
  | cons a lbs ih =>
      obtain ⟨hprev, hs⟩ := List.pairwise_cons.1 hs
      cases i with
      | zero =>
          have h₁ := hprev a List.mem_cons_self
          have h₂ := hlt a List.mem_cons_self
          have hmod : (((a : ℤ) - prev) % 2 ^ 64) = a - prev := Int.emod_eq_of_lt (by omega) (by omega)
          simp only [deltas, List.getD_cons_zero, hmod]
          omega
      | succ i =>
          exact ih hs (fun b hb => hlt b (List.mem_cons_of_mem a hb)) (Nat.lt_of_succ_lt_succ hi)

/-- The accesses that are put back behind one that has moved by `w`. -/
theorem refill_add {prev w : ℕ} {lbs : List ℕ} (hs : (prev :: lbs).Pairwise (· ≤ ·))
    (hlt : ∀ a ∈ lbs, a + w < 2 ^ 32) : refill (prev + w) (deltas prev lbs) = lbs.map (· + w) := by
  induction lbs generalizing prev with
  | nil => rfl
  | cons a lbs ih =>
      obtain ⟨hprev, hs⟩ := List.pairwise_cons.1 hs
      have h₁ := hprev a List.mem_cons_self
      have h₂ := hlt a List.mem_cons_self
      have hmod : (((a : ℤ) - prev) % 2 ^ 64) = a - prev := Int.emod_eq_of_lt (by omega) (by omega)
      have hx : (prev + w + ((a : ℤ) - prev).toNat) % 2 ^ 64 % 2 ^ 32 = a + w := by omega
      rw [deltas, refill, hmod, hx, ih hs fun b hb => hlt b (List.mem_cons_of_mem a hb), List.map_cons]

/-- The first placement is the program itself. -/
theorem refill_deltas {prev : ℕ} {lbs : List ℕ} (hs : (prev :: lbs).Pairwise (· ≤ ·))
    (hlt : ∀ a ∈ lbs, a < 2 ^ 32) : refill prev (deltas prev lbs) = lbs := by
  have h := refill_add (w := 0) hs hlt
  rwa [Nat.add_zero, List.map_congr_left fun a _ => Nat.add_zero a, List.map_id'] at h

/-! ### Delays -/

/-- **The placements that the loop visits**: each access is delayed at least like the one before it, and
passes its bound only with the same delay. -/
structure Delayed (accessIdx : List ℕ) (ub : ℕ → ℕ) (x : List ℕ) : Prop where
  /-- A position for each access. -/
  length : x.length = accessIdx.length
  /-- The first access. -/
  head : 0 < accessIdx.length → accessIdx.getD 0 0 ≤ x.getD 0 0 ∧
    (x.getD 0 0 ≤ ub (accessIdx.getD 0 0) ∨ x.getD 0 0 = accessIdx.getD 0 0)
  /-- The others. -/
  next : ∀ i, i + 1 < accessIdx.length →
    x.getD i 0 + accessIdx.getD (i + 1) 0 ≤ x.getD (i + 1) 0 + accessIdx.getD i 0 ∧
      (x.getD (i + 1) 0 ≤ ub (accessIdx.getD (i + 1) 0) ∨
        x.getD i 0 + accessIdx.getD (i + 1) 0 = x.getD (i + 1) 0 + accessIdx.getD i 0)

/-- The walk of the loop, in terms of delays. -/
theorem stepwise_iff_delayed {accessIdx x : List ℕ} {ub : ℕ → ℕ} (hs : accessIdx.Pairwise (· < ·))
    (hlt : ∀ a ∈ accessIdx, a < 2 ^ 32) :
    Stepwise 0 (accessIdx.map ub) (deltas 0 accessIdx) x ↔ Delayed accessIdx ub x := by
  have hle : (0 :: accessIdx).Pairwise (· ≤ ·) :=
    List.pairwise_cons.2 ⟨fun a _ => Nat.zero_le a, hs.imp fun h => h.le⟩
  have hdelta : ∀ i < accessIdx.length,
      (0 :: accessIdx).getD i 0 + (deltas 0 accessIdx).getD i 0 = accessIdx.getD i 0 := fun i hi =>
    getD_deltas hle (fun a ha => (hlt a ha).trans (by decide)) hi
  have hbound : ∀ i < accessIdx.length, (accessIdx.map ub).getD i 0 = ub (accessIdx.getD i 0) :=
    fun i hi => by
      rw [List.getD_eq_getElem _ _ (by rwa [List.length_map]), List.getElem_map,
        List.getD_eq_getElem _ _ hi]
  rw [stepwise_iff (by rw [List.length_map, length_deltas]), length_deltas]
  constructor
  · rintro ⟨hl, hstep⟩
    refine ⟨hl, fun hi => ?_, fun i hi => ?_⟩
    · have h := hstep 0 hi
      have hd := hdelta 0 hi
      rw [hbound 0 hi] at h
      simp only [List.getD_cons_zero] at h hd
      omega
    · have h := hstep (i + 1) hi
      have hd := hdelta (i + 1) hi
      rw [hbound (i + 1) hi] at h
      simp only [List.getD_cons_succ] at h hd
      omega
  · rintro ⟨hl, hhead, hnext⟩
    refine ⟨hl, fun i hi => ?_⟩
    have hd := hdelta i hi
    rw [hbound i hi]
    cases i with
    | zero =>
        have h := hhead hi
        simp only [List.getD_cons_zero] at hd ⊢
        omega
    | succ i =>
        have h := hnext i hi
        simp only [List.getD_cons_succ] at hd ⊢
        omega

/-- Bounds with little room do not leave the 32-bit words. -/
theorem noWrap_of_le {prev p w : ℕ} {lbs : List ℕ} {ub : ℕ → ℕ} (hs : (prev :: lbs).Pairwise (· ≤ ·))
    (hlt : ∀ a ∈ lbs, a + w < 2 ^ 32) (hub : ∀ a ∈ lbs, ub a ≤ a + w) (hp : p ≤ prev + w) :
    NoWrap p (lbs.map ub) (deltas prev lbs) := by
  induction lbs generalizing prev p with
  | nil => trivial
  | cons a lbs ih =>
      obtain ⟨hprev, hs⟩ := List.pairwise_cons.1 hs
      have h₁ := hprev a List.mem_cons_self
      have h₂ := hlt a List.mem_cons_self
      have h₃ := hub a List.mem_cons_self
      have hmod : (((a : ℤ) - prev) % 2 ^ 64) = a - prev := Int.emod_eq_of_lt (by omega) (by omega)
      rw [List.map_cons, deltas, hmod]
      refine ⟨⟨by omega, by omega⟩, ih hs (fun b hb => hlt b (List.mem_cons_of_mem a hb))
        (fun b hb => hub b (List.mem_cons_of_mem a hb)) (by omega)⟩

/-! ### Equal room -/

/-- **A placement between the bounds** that keeps the distances of the accesses. -/
structure Variant (accessIdx lb ub x : List ℕ) : Prop where
  /-- A position for each access. -/
  length : x.length = accessIdx.length
  /-- The lower bounds. -/
  lower : ∀ i < accessIdx.length, lb.getD i 0 ≤ x.getD i 0
  /-- The upper bounds. -/
  upper : ∀ i < accessIdx.length, x.getD i 0 ≤ ub.getD i 0
  /-- The distances. -/
  delta : ∀ i, i + 1 < accessIdx.length →
    (accessIdx.getD (i + 1) 0 : ℤ) - accessIdx.getD i 0 ≤ x.getD (i + 1) 0 - x.getD i 0

/-- With the same room `w` for each access, a position that was put back does not pass its bound. -/
theorem stepwise_iff_variant {accessIdx ub x : List ℕ} {w : ℕ} (hs : accessIdx.Pairwise (· < ·))
    (hlt : ∀ a ∈ accessIdx, a < 2 ^ 32) (hub : ub = accessIdx.map (· + w)) :
    Stepwise 0 ub (deltas 0 accessIdx) x ↔ Variant accessIdx accessIdx ub x := by
  have hbound : ∀ i < accessIdx.length, ub.getD i 0 = accessIdx.getD i 0 + w := fun i hi => by
    rw [hub, List.getD_eq_getElem _ _ (by rwa [List.length_map]), List.getElem_map,
      List.getD_eq_getElem _ _ hi]
  rw [hub, stepwise_iff_delayed hs hlt, ← hub]
  constructor
  · rintro ⟨hl, hhead, hnext⟩
    -- the positions move on, from one access to the next, within the room
    have hshift : ∀ i < accessIdx.length,
        accessIdx.getD i 0 ≤ x.getD i 0 ∧ x.getD i 0 ≤ accessIdx.getD i 0 + w := by
      intro i
      induction i with
      | zero =>
          intro hi
          have h := hhead hi
          omega
      | succ i ih =>
          intro hi
          have h := hnext i hi
          have hprev := ih (Nat.lt_of_succ_lt hi)
          omega
    refine ⟨hl, fun i hi => (hshift i hi).1, fun i hi => (hshift i hi).2.trans (hbound i hi).ge,
      fun i hi => ?_⟩
    have h := (hnext i hi).1
    omega
  · rintro ⟨hl, hlower, hupper, hkeep⟩
    refine ⟨hl, fun hi => ⟨hlower 0 hi, .inl ((hupper 0 hi).trans (hbound 0 hi).le)⟩, fun i hi => ⟨?_, .inl ?_⟩⟩
    · have h := hkeep i hi
      omega
    · exact (hupper (i + 1) hi).trans (hbound (i + 1) hi).le

/-- The upper bounds of a program without an ingress limit. -/
theorem constrUB_eq {accessIdx : List ℕ} {igLim : ℤ} {progLen : ℕ} {b : Bool}
    (hig : ¬ (0 ≤ igLim ∧ igLim < 10)) (hlen : progLen < maxProgLen progLen b)
    (hroom : ∀ a ∈ accessIdx, a + (maxProgLen progLen b - progLen - 1) < 2 ^ 32) :
    constrUB igLim progLen b accessIdx =
      accessIdx.map (· + (maxProgLen progLen b - progLen - 1)) := by
  have hlt : ∀ a ∈ accessIdx, a < 2 ^ 32 := fun a ha => (Nat.le_add_right _ _).trans_lt (hroom a ha)
  rw [constrUB, constrLB_eq hlt]
  refine List.map_congr_left fun a ha => ?_
  have hr := hroom a ha
  rw [upperBound, if_neg fun h => hig ⟨h.1, h.2.1⟩]
  omega

/-- **Enumeration is exact.**  For accesses in increasing order whose bounds are 32-bit words, in a
program without an ingress limit and with room to grow, the loop ends and has visited the placements
between the bounds that keep the distances of the accesses, in increasing order. -/
theorem enumerateLoop_exact {accessIdx : List ℕ} {igLim : ℤ} {progLen : ℕ} {b : Bool}
    (hs : accessIdx.Pairwise (· < ·)) (hig : ¬ (0 ≤ igLim ∧ igLim < 10))
    (hlen : progLen < maxProgLen progLen b)
    (hroom : ∀ a ∈ accessIdx, a + (maxProgLen progLen b - progLen - 1) < 2 ^ 32) :
    ∃ visited : List (List ℕ),
      (∀ fuel, 2 ^ (32 * accessIdx.length) ≤ fuel →
        enumerateLoop (constrUB igLim progLen b accessIdx) (constrDelta accessIdx) fuel
          (constrLB accessIdx) = visited) ∧
      (∀ x, x ∈ visited ↔
        Variant accessIdx (constrLB accessIdx) (constrUB igLim progLen b accessIdx) x) ∧
      visited.Pairwise (· < ·) ∧ visited.Nodup := by
  have hlt : ∀ a ∈ accessIdx, a < 2 ^ 32 := fun a ha => (Nat.le_add_right _ _).trans_lt (hroom a ha)
  have hle : (0 :: accessIdx).Pairwise (· ≤ ·) :=
    List.pairwise_cons.2 ⟨fun a _ => Nat.zero_le a, hs.imp fun h => h.le⟩
  have hub := constrUB_eq hig hlen hroom
  have hds : constrDelta accessIdx = deltas 0 accessIdx := by rw [constrDelta, constrLB_eq hlt]
  have hwrap : NoWrap 0 (constrUB igLim progLen b accessIdx) (deltas 0 accessIdx) := by
    rw [hub]
    exact noWrap_of_le hle hroom (fun a _ => le_rfl) (Nat.zero_le _)
  have horder := pairwise_orbit 0 (constrUB igLim progLen b accessIdx) (deltas 0 accessIdx)
  refine ⟨orbit 0 (constrUB igLim progLen b accessIdx) (deltas 0 accessIdx), fun fuel hfuel => ?_,
    fun x => ?_, horder, horder.imp fun h => h.ne⟩
  · have hloop : enumerateLoop (constrUB igLim progLen b accessIdx) (deltas 0 accessIdx) fuel
        (refill 0 (deltas 0 accessIdx)) = _ :=
      enumerateLoop_eq_orbit (by rw [hub, List.length_map, length_deltas]) hwrap
        (by rwa [length_deltas])
    rw [refill_deltas hle hlt] at hloop
    rw [hds, constrLB_eq hlt]
    exact hloop
  · rw [mem_orbit, constrLB_eq hlt]
    exact stepwise_iff_variant hs hlt hub

/-- Two accesses of a program of twelve instructions. -/
theorem enumerateLoop_exact_two :
    ([3, 7].Pairwise (· < ·) ∧ 12 < maxProgLen 12 false) ∧ ∃ visited : List (List ℕ),
      (∀ fuel, 2 ^ (32 * [3, 7].length) ≤ fuel →
        enumerateLoop (constrUB (-1) 12 false [3, 7]) (constrDelta [3, 7]) fuel
          (constrLB [3, 7]) = visited) ∧
      (∀ x, x ∈ visited ↔ Variant [3, 7] (constrLB [3, 7]) (constrUB (-1) 12 false [3, 7]) x) ∧
      visited.Pairwise (· < ·) ∧ visited.Nodup :=
  ⟨by decide, enumerateLoop_exact (by decide) (by decide) (by decide) (by decide)⟩

/-- **Bounds that leave the 32-bit words**: the upper bound is the smaller one, and the loop visits the
program all the same. -/
theorem enumerateLoop_wraps :
    [2 ^ 32 - 1] ∈ enumerateLoop (constrUB (-1) 10 false [2 ^ 32 - 1]) (constrDelta [2 ^ 32 - 1])
        (2 ^ 32) (constrLB [2 ^ 32 - 1]) ∧
      ¬ Variant [2 ^ 32 - 1] (constrLB [2 ^ 32 - 1]) (constrUB (-1) 10 false [2 ^ 32 - 1])
        [2 ^ 32 - 1] := by
  refine ⟨by decide +kernel, fun h => ?_⟩
  have := h.upper 0 (by decide)
  revert this
  decide +kernel

end ActiveFunction

end ActiveRmt
