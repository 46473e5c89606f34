/-
**The scan for holes, and the choice of one.**

Before it places anything at a stage, the allocator walks over the blocks below the elastic offset
and lists the holes between the inelastic functions.  The walk keeps the two ends of the hole it is
in, records a hole only when an occupied block closes it, and does not reset the end marker, so
that a one-block hole after another hole is recorded with a non-positive length; a hole that
reaches up to the offset is not recorded at all.

Main definitions:

* `Allocator.ScanAt` — what the scan knows after the first `j` blocks.

Main results:

* `Allocator.scanLoop_eq` — the scan succeeds when no function below the offset is elastic;
* `Allocator.scanAt_scanFrom` — its result: a recorded hole of positive length is a maximal free
  run closed by an occupied block, and every such run of at least two blocks is recorded;
* `Allocator.bestHole_some`, `Allocator.bestHole_none` — the hole chosen is recorded and long
  enough, and none is chosen only when none is long enough.
-/

import ActiveRmt.Allocator
import ActiveRmt.Programs

set_option relaxedAutoImplicit false
set_option autoImplicit false

namespace ActiveRmt

open Blocks

namespace Allocator

/-! ### The scan -/

/-- One block of the scan. -/
def Scan.step (sc : Scan) (j x : ℕ) : Scan := if x = 0 then sc.free j else sc.used x

/-- The scan of the blocks `xs`, the first of which is block `j`. -/
def scanFrom : ℕ → List ℕ → Scan → Scan
  | _, [], sc => sc
  | j, x :: xs, sc => scanFrom (j + 1) xs (sc.step j x)

/-- **The scan succeeds when every function it meets is inelastic.** -/
theorem scanLoop_eq {demand : Fid → Except Exn ℕ} {xs : List ℕ}
    (h : ∀ x ∈ xs, x ≠ 0 → ∃ d, demand x = .ok d ∧ 1 < d) (j : ℕ) (sc : Scan) :
    scanLoop demand j xs sc = (scanFrom j xs sc, .ok ()) := by
  induction xs generalizing j sc with
  | nil => rfl
  | cons x xs ih =>
      have ih' := ih fun y hy => h y (List.mem_cons_of_mem _ hy)
      by_cases hx : x = 0
      · simp only [scanLoop, scanFrom, Scan.step, if_pos hx, ih']
      · obtain ⟨d, hd, hd1⟩ := h x (List.mem_cons_self ..) hx
        simp only [scanLoop, scanFrom, Scan.step, if_neg hx, hd, if_neg (not_le.2 hd1), ih']

/-- A scan that succeeds has met inelastic functions only. -/
theorem scanLoop_ok {demand : Fid → Except Exn ℕ} {xs : List ℕ} {j : ℕ} {sc : Scan}
    (h : (scanLoop demand j xs sc).2 = .ok ()) : (scanLoop demand j xs sc).1 = scanFrom j xs sc := by
  induction xs generalizing j sc with
  | nil => rfl
  | cons x xs ih =>
      by_cases hx : x = 0
      · simp only [scanLoop, scanFrom, Scan.step, if_pos hx] at h ⊢
        exact ih h
      · simp only [scanLoop, scanFrom, Scan.step, if_neg hx] at h ⊢
        cases hd : demand x with
        | error ex =>
            rw [hd] at h
            cases h
        | ok d =>
            rw [hd] at h
            dsimp only at h ⊢
            split_ifs at h ⊢ with hle
            exact ih h

/-- A free run below an occupied block, maximal on both sides. -/
structure ClosedRun (col : List ℕ) (a l : ℕ) : Prop where
  /-- Its blocks are free. -/
  free : FreeRun col a l
  /-- It cannot be extended downwards. -/
  left : a = 0 ∨ owner col (a - 1) ≠ 0
  /-- The block above it is occupied. -/
  right : owner col (a + l) ≠ 0

/-- Runs that are closed by the same block are the same. -/
theorem ClosedRun.start_eq {col : List ℕ} {a l a' l' : ℕ} (h : ClosedRun col a l)
    (h' : ClosedRun col a' l') (hl : 0 < l) (hl' : 0 < l') (hend : a + l = a' + l') : a = a' := by
  rcases Nat.lt_trichotomy a a' with hlt | heq | hgt
  · rcases h'.left with h0 | hne
    · omega
    · exact absurd (h.free (a' - 1) (by omega) (by omega)) hne
  · exact heq
  · rcases h.left with h0 | hne
    · omega
    · exact absurd (h'.free (a - 1) (by omega) (by omega)) hne

/-- **What the scan knows after the blocks below `j`.** -/
structure ScanAt (col : List ℕ) (j : ℕ) (sc : Scan) : Prop where
  /-- The functions met. -/
  inelastic : ∀ f, f ∈ sc.inelastic ↔ f ≠ 0 ∧ ∃ k < j, owner col k = f
  /-- The end marker is behind. -/
  fragEnd_lt : sc.fragEnd < j
  /-- Outside of a hole the last block is occupied. -/
  outside : sc.fragStart < 0 → j = 0 ∨ owner col (j - 1) ≠ 0
  /-- Inside of a hole the markers are its ends, except that the end of a one-block hole is left
  over from an earlier one. -/
  inside : 0 ≤ sc.fragStart → ∃ a : ℕ, sc.fragStart = a ∧ a < j ∧
    (∀ k, a ≤ k → k < j → owner col k = 0) ∧ (a = 0 ∨ owner col (a - 1) ≠ 0) ∧
    (j = a + 1 → sc.fragEnd < a) ∧ (a + 1 < j → sc.fragEnd = (j : ℤ) - 1)
  /-- A recorded hole of positive length is a maximal free run closed by an occupied block. -/
  sound : ∀ fr ∈ sc.fragments, 0 < fr.size →
    fr.start + fr.size.toNat < j ∧ ClosedRun col fr.start fr.size.toNat
  /-- Every such run of at least two blocks is recorded. -/
  complete : ∀ a l, 2 ≤ l → a + l < j → ClosedRun col a l → ⟨a, (l : ℤ)⟩ ∈ sc.fragments
  /-- The recorded holes of positive length follow each other. -/
  ordered : sc.fragments.Pairwise fun p q =>
    0 < p.size → 0 < q.size → p.start + p.size.toNat ≤ q.start

theorem scanAt_start (col : List ℕ) : ScanAt col 0 Scan.start where
  inelastic := by simp [Scan.start]
  fragEnd_lt := by simp [Scan.start]
  outside := fun _ => Or.inl rfl
  inside := by simp [Scan.start]
  sound := by simp [Scan.start]
  complete := by
    intro a l hl hal
    omega
  ordered := by simp [Scan.start]

/-- A free block. -/
theorem ScanAt.free {col : List ℕ} {j : ℕ} {sc : Scan} (h : ScanAt col j sc)
    (hj : owner col j = 0) : ScanAt col (j + 1) (sc.free j) := by
  have hfun : ∀ f, (f ≠ 0 ∧ ∃ k < j + 1, owner col k = f) ↔ f ≠ 0 ∧ ∃ k < j, owner col k = f := by
    intro f
    refine and_congr_right fun hf => ⟨?_, ?_⟩
    · rintro ⟨k, hk, rfl⟩
      refine ⟨k, ?_, rfl⟩
      rcases Nat.lt_succ_iff_lt_or_eq.1 hk with hk | rfl
      · exact hk
      · exact absurd hj hf
    · rintro ⟨k, hk, rfl⟩
      exact ⟨k, by omega, rfl⟩
  -- a run closed below `j + 1` is closed below `j`, since the block `j` is free
  have hcomplete : ∀ a l, 2 ≤ l → a + l < j + 1 → ClosedRun col a l →
      (⟨a, (l : ℤ)⟩ : Fragment) ∈ sc.fragments := by
    intro a l hl hal hr
    refine h.complete a l hl ?_ hr
    rcases Nat.lt_succ_iff_lt_or_eq.1 hal with hlt | heq
    · exact hlt
    · exact absurd (heq ▸ hj) hr.right
  have hsound : ∀ fr ∈ sc.fragments, 0 < fr.size →
      fr.start + fr.size.toNat < j + 1 ∧ ClosedRun col fr.start fr.size.toNat := by
    intro fr hfr hpos
    obtain ⟨hlt, hr⟩ := h.sound fr hfr hpos
    exact ⟨by omega, hr⟩
  by_cases hs : sc.fragStart < 0
  · -- a hole begins
    rw [Scan.free, if_pos hs]
    refine ⟨fun f => (h.inelastic f).trans (hfun f).symm, ?_, ?_, ?_, hsound, hcomplete, h.ordered⟩
    · have := h.fragEnd_lt
      simp only
      omega
    · intro hneg
      simp only at hneg
      omega
    · intro _
      refine ⟨j, rfl, by omega, ?_, h.outside hs, ?_, fun hlt => by omega⟩
      · intro k hk hk'
        have : k = j := by omega
        rw [this, hj]
      · intro _
        exact h.fragEnd_lt
  · -- the hole goes on
    rw [Scan.free, if_neg hs]
    obtain ⟨a, ha, haj, hfree, hleft, -, -⟩ := h.inside (not_lt.1 hs)
    refine ⟨fun f => (h.inelastic f).trans (hfun f).symm, ?_, ?_, ?_, hsound, hcomplete, h.ordered⟩
    · simp only
      omega
    · intro hneg
      exact absurd hneg hs
    · intro _
      refine ⟨a, ha, by omega, ?_, hleft, fun hlt => by omega, fun _ => by simp⟩
      intro k hk hk'
      rcases Nat.lt_succ_iff_lt_or_eq.1 hk' with hlt | rfl
      · exact hfree k hk hlt
      · exact hj

/-- The hole that the scan is in is closed by an occupied block. -/
theorem ScanAt.closedRun {col : List ℕ} {j : ℕ} {sc : Scan} (h : ScanAt col j sc)
    (hs : 0 ≤ sc.fragStart) (hj : owner col j ≠ 0) :
    ∃ a : ℕ, sc.fragStart = a ∧ a < j ∧ ClosedRun col a (j - a) ∧
      (j = a + 1 → sc.fragEnd < a) ∧ (a + 1 < j → sc.fragEnd = (j : ℤ) - 1) := by
  obtain ⟨a, ha, haj, hfree, hleft, hone, hmore⟩ := h.inside hs
  refine ⟨a, ha, haj, ⟨fun k hk hk' => hfree k hk (by omega), hleft, ?_⟩, hone, hmore⟩
  rwa [Nat.add_sub_cancel' haj.le]

/-- The functions met, with that of an occupied block. -/
theorem ScanAt.mem_insert_inelastic {col : List ℕ} {j : ℕ} {sc : Scan} (h : ScanAt col j sc)
    (hj : owner col j ≠ 0) (f : ℕ) :
    f ∈ insert (owner col j) sc.inelastic ↔ f ≠ 0 ∧ ∃ k < j + 1, owner col k = f := by
  rw [Finset.mem_insert, h.inelastic f]
  constructor
  · rintro (rfl | ⟨hf, k, hk, hkf⟩)
    · exact ⟨hj, j, by omega, rfl⟩
    · exact ⟨hf, k, by omega, hkf⟩
  · rintro ⟨hf, k, hk, rfl⟩
    rcases Nat.lt_succ_iff_lt_or_eq.1 hk with hlt | rfl
    · exact Or.inr ⟨hf, k, hlt, rfl⟩
    · exact Or.inl rfl

/-- When no hole is open, none is closed by the next block. -/
theorem ScanAt.closed_before {col : List ℕ} {a j l : ℕ} {sc : Scan} (h : ScanAt col j sc)
    (hs : sc.fragStart < 0) (hl : 0 < l) (hal : a + l < j + 1) (hr : ClosedRun col a l) : a + l < j := by
  rcases Nat.lt_succ_iff_lt_or_eq.1 hal with hlt | heq
  · exact hlt
  · have hfree := hr.free (j - 1) (by omega) (by omega)
    rcases h.outside hs with h0 | hne
    · omega
    · exact absurd hfree hne

/-- An occupied block. -/
theorem ScanAt.used {col : List ℕ} {j : ℕ} {sc : Scan} (h : ScanAt col j sc)
    (hj : owner col j ≠ 0) : ScanAt col (j + 1) (sc.used (owner col j)) := by
  have hfun := h.mem_insert_inelastic hj
  by_cases hs : 0 ≤ sc.fragStart
  · -- the block closes a hole
    obtain ⟨a, ha, haj, hrun, hone, hmore⟩ := h.closedRun hs hj
    have hend := h.fragEnd_lt
    simp only [Scan.used, if_pos hs]
    refine ⟨hfun, ?_, ?_, ?_, ?_, ?_, ?_⟩
    · simp only
      split_ifs <;> omega
    · intro _
      right
      simpa using hj
    · intro hneg
      simp at hneg
    · intro fr hfr hpos
      rcases List.mem_append.1 hfr with hfr | hfr
      · obtain ⟨hlt, hr⟩ := h.sound fr hfr hpos
        exact ⟨by omega, hr⟩
      · -- its length is positive only when the end marker is that of this hole
        obtain rfl := List.mem_singleton.1 hfr
        have hstart : sc.fragStart.toNat = a := by omega
        have hsize : ((if sc.fragEnd < 0 then sc.fragStart else sc.fragEnd) - sc.fragStart + 1).toNat
            = j - a := by
          simp only at hpos
          by_cases hja : j = a + 1
          · have := hone hja
            split_ifs at hpos ⊢ <;> omega
          · have := hmore (by omega)
            rw [if_neg (by omega)]
            omega
        simp only [hstart, hsize]
        exact ⟨by omega, hrun⟩
    · intro b l hl hbl hr
      rw [List.mem_append]
      rcases Nat.lt_succ_iff_lt_or_eq.1 hbl with hlt | heq
      · exact Or.inl (h.complete b l hl hlt hr)
      · -- the run that ends at `j` is the hole just closed
        right
        have hba : b = a := hr.start_eq hrun (by omega) (by omega) (by omega)
        have hm := hmore (by omega)
        rw [List.mem_singleton, Fragment.mk.injEq]
        refine ⟨by omega, ?_⟩
        rw [if_neg (by omega)]
        omega
    · refine List.pairwise_append.2 ⟨h.ordered, List.pairwise_singleton _ _, ?_⟩
      intro p hp q hq hpos _
      obtain rfl := List.mem_singleton.1 hq
      -- the block that closed the earlier hole is not one of this hole
      obtain ⟨hlt, hr⟩ := h.sound p hp hpos
      have : ¬a ≤ p.start + p.size.toNat := fun hle => hr.right (hrun.free _ hle (by omega))
      simp only
      omega
  · -- no hole is open
    simp only [Scan.used, if_neg hs]
    have hend := h.fragEnd_lt
    refine ⟨hfun, ?_, ?_, ?_, ?_, ?_, h.ordered⟩
    · simp only
      omega
    · intro _
      right
      simpa using hj
    · intro hnn
      exact absurd hnn hs
    · intro fr hfr hpos
      obtain ⟨hlt, hr⟩ := h.sound fr hfr hpos
      exact ⟨by omega, hr⟩
    · intro b l hl hbl hr
      exact h.complete b l hl (h.closed_before (not_le.1 hs) (by omega) hbl hr) hr

/-- **The result of the scan** of the blocks from `j` on. -/
theorem scanAt_scanFrom {col : List ℕ} {j : ℕ} {sc : Scan} (h : ScanAt col j sc) (xs : List ℕ)
    (hxs : ∀ k (hk : k < xs.length), xs[k] = owner col (j + k)) :
    ScanAt col (j + xs.length) (scanFrom j xs sc) := by
  induction xs generalizing j sc with
  | nil => exact h
  | cons x xs ih =>
      have hx : x = owner col j := hxs 0 (Nat.succ_pos _)
      have hstep : ScanAt col (j + 1) (sc.step j x) := by
        rw [Scan.step]
        split_ifs with h0
        · exact h.free (hx ▸ h0)
        · rw [hx]
          exact h.used (hx ▸ h0)
      have := ih hstep fun k hk => by
        have := hxs (k + 1) (by simpa using hk)
        simpa [Nat.add_assoc, Nat.add_comm 1] using this
      rw [scanFrom, List.length_cons, ← Nat.add_assoc, Nat.add_right_comm]
      exact this

/-- The scan of the blocks below an offset. -/
theorem scanAt_take {col : List ℕ} {e : ℕ} (he : e ≤ col.length) :
    ScanAt col e (scanFrom 0 (col.take e) Scan.start) := by
  have hlen : (col.take e).length = e := by
    rw [List.length_take]
    exact min_eq_left he
  have := scanAt_scanFrom (scanAt_start col) (col.take e) fun k hk => by
    rw [List.getElem_take, Nat.zero_add, owner_eq_getElem (by rw [List.length_take] at hk; omega)]
  rwa [hlen, Nat.zero_add] at this

/-! ### The choice of a hole -/

/-- The best hole so far is replaced only by one that is long enough. -/
theorem mem_holeStep {d : ℕ} {best : Option (Fragment × ℕ)} {q p : Fragment × ℕ}
    (h : p ∈ holeStep d best q) : p ∈ best ∨ p = q ∧ (d : ℤ) ≤ q.1.size := by
  unfold holeStep at h
  split_ifs at h with hsize
  · exact Or.inl h
  · cases best with
    | none => exact Or.inr ⟨by simpa using h.symm, not_lt.1 hsize⟩
    | some b =>
        dsimp only at h
        split_ifs at h
        · exact Or.inr ⟨by simpa using h.symm, not_lt.1 hsize⟩
        · exact Or.inl h

/-- There is no best hole only while every hole is too short. -/
theorem holeStep_eq_none {d : ℕ} {best : Option (Fragment × ℕ)} {q : Fragment × ℕ}
    (h : holeStep d best q = none) : best = none ∧ q.1.size < d := by
  unfold holeStep at h
  split_ifs at h with hsize
  · exact ⟨h, hsize⟩
  · cases best with
    | none => simp at h
    | some b => dsimp only at h; split_ifs at h

theorem mem_foldl_holeStep {d : ℕ} {l : List (Fragment × ℕ)} {best : Option (Fragment × ℕ)}
    {p : Fragment × ℕ} (h : p ∈ l.foldl (holeStep d) best) :
    p ∈ best ∨ p ∈ l ∧ (d : ℤ) ≤ p.1.size := by
  induction l generalizing best with
  | nil => exact Or.inl h
  | cons q l ih =>
      rcases ih h with h | ⟨hp, hsize⟩
      · rcases mem_holeStep h with h | ⟨rfl, hsize⟩
        · exact Or.inl h
        · exact Or.inr ⟨List.mem_cons_self .., hsize⟩
      · exact Or.inr ⟨List.mem_cons_of_mem _ hp, hsize⟩

theorem foldl_holeStep_eq_none {d : ℕ} {l : List (Fragment × ℕ)} {best : Option (Fragment × ℕ)}
    (h : l.foldl (holeStep d) best = none) : best = none ∧ ∀ p ∈ l, p.1.size < d := by
  induction l generalizing best with
  | nil => exact ⟨h, by simp⟩
  | cons q l ih =>
      obtain ⟨hstep, hl⟩ := ih h
      obtain ⟨hbest, hq⟩ := holeStep_eq_none hstep
      refine ⟨hbest, ?_⟩
      intro p hp
      rcases List.mem_cons.1 hp with rfl | hp
      · exact hq
      · exact hl p hp

/-- **A chosen hole is recorded at its index and is long enough.** -/
theorem bestHole_some {d : ℕ} {frags : List Fragment} {fr : Fragment} {k : ℕ}
    (h : bestHole d frags = some (fr, k)) : frags[k]? = some fr ∧ (d : ℤ) ≤ fr.size := by
  rcases mem_foldl_holeStep (p := (fr, k)) h with h | ⟨hp, hsize⟩
  · simp at h
  · exact ⟨List.mk_mem_zipIdx_iff_getElem?.1 hp, hsize⟩

/-- **No hole is chosen only when none is long enough.** -/
theorem bestHole_none {d : ℕ} {frags : List Fragment} (h : bestHole d frags = none) :
    ∀ fr ∈ frags, fr.size < d := by
  intro fr hfr
  obtain ⟨k, hk, rfl⟩ := List.getElem_of_mem hfr
  refine (foldl_holeStep_eq_none h).2 (frags[k], k) ?_
  exact List.mk_mem_zipIdx_iff_getElem?.2 (List.getElem?_eq_getElem hk)

end Allocator

end ActiveRmt
