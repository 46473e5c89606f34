/-
**The recorded holes and the holes there are.**

After a stage has been placed its recorded holes should be the maximal runs of free blocks below the
offset.  The scan finds those that an occupied block closes, and measures them by the end marker that
an earlier hole may have left: of a hole of one block it is the end of the hole before.  A run that
reaches up to the offset is not recorded.  Placing an inelastic arrival keeps the difference: it takes
its blocks from a hole that has been measured rightly, or from above the offset, where it closes a run
that was not recorded.

Main definitions:

* `Blocks.Enumerates` — the list has what has a property, once each;
* `Allocator.ScanHoles` — **what the scan has recorded**, hole by hole;
* `Allocator.HolesListed` — the recorded holes are those that there are, in some order;
* `Allocator.FragmentsExact` — the same of the sorted list;
* `Allocator.Tidy` — every hole below the offset is closed, and only the first is of one block;
* `Allocator.Attempt` — an operation that may raise an exception.

Main results:

* `Blocks.maximalFreeRun_fill_iff` — the free runs when the first blocks of one are taken;
* `Allocator.scanHoles_scanFrom` — the scan;
* `Allocator.placeInelastic_listed_iff` — an inelastic arrival corrects nothing and spoils nothing;
* `Allocator.placeStage_exact_iff` — **exactly when the recorded holes of a stage are right**;
* `Allocator.fragments_exact_iff` — the same in every run, of operations that may raise exceptions.
-/

import ActiveRmt.Drains

set_option relaxedAutoImplicit false
set_option autoImplicit false

namespace Blocks

/-! ### Lists without repetition -/

section Enumerates

variable {α : Type*} {xs ys : List α} {P Q : α → Prop} {x : α}

/-- The list has what has the property, once each. -/
def Enumerates (xs : List α) (P : α → Prop) : Prop := xs.Nodup ∧ ∀ y, y ∈ xs ↔ P y

theorem enumerates_congr (h : ∀ y, P y ↔ Q y) : Enumerates xs P ↔ Enumerates xs Q :=
  and_congr_right fun _ => forall_congr' fun y => iff_congr Iff.rfl (h y)

theorem enumerates_perm (h : xs.Perm ys) : Enumerates xs P ↔ Enumerates ys P :=
  and_congr h.nodup_iff (forall_congr' fun _ => iff_congr h.mem_iff Iff.rfl)

/-- The rest of the list has the rest. -/
theorem enumerates_cons_iff (hx : P x) :
    Enumerates (x :: xs) P ↔ Enumerates xs fun y => P y ∧ y ≠ x := by
  unfold Enumerates
  rw [List.nodup_cons]
  constructor
  · rintro ⟨⟨hmem, hnodup⟩, h⟩
    refine ⟨hnodup, fun y => ⟨fun hy => ⟨(h y).1 (List.mem_cons_of_mem _ hy), ?_⟩, fun hy => ?_⟩⟩
    · rintro rfl
      exact hmem hy
    · exact (List.mem_cons.1 ((h y).2 hy.1)).resolve_left hy.2
  · rintro ⟨hnodup, h⟩
    refine ⟨⟨fun hmem => ((h x).1 hmem).2 rfl, hnodup⟩, fun y => ?_⟩
    rw [List.mem_cons, h y]
    constructor
    · rintro (rfl | hy)
      · exact hx
      · exact hy.1
    · intro hy
      by_cases heq : y = x
      · exact Or.inl heq
      · exact Or.inr ⟨hy, heq⟩

end Enumerates

/-! ### Maximal free runs -/

section Runs

variable {c c' : List ℕ} {e d a l a' l' j : ℕ}

/-- A free block below the offset lies in a maximal run. -/
theorem exists_maximalFreeRun_mem (hj : j < e) (h : owner c j = 0) :
    ∃ a l, MaximalFreeRun c e a l ∧ a ≤ j ∧ j < a + l := by
  have hrun : FreeRun c j 1 := fun k hk hk' => by
    obtain rfl : k = j := by omega
    exact h
  obtain ⟨a, l, hmax, -, hle, hlt⟩ := hrun.exists_maximal_around Nat.one_pos hj
  exact ⟨a, l, hmax, hle, hlt⟩

/-- A maximal run does not begin below another one that it meets. -/
theorem MaximalFreeRun.start_le (h : MaximalFreeRun c e a l) (h' : MaximalFreeRun c e a' l') (hjl : j < a + l)
    (hj' : a' ≤ j) : a' ≤ a := by
  by_contra hlt
  rcases h'.left with h0 | hne
  · omega
  · exact hne (h.free (a' - 1) (by omega) (by omega))

/-- **Maximal runs that meet are the same.** -/
theorem MaximalFreeRun.unique (h : MaximalFreeRun c e a l) (h' : MaximalFreeRun c e a' l') (hj : a ≤ j)
    (hjl : j < a + l) (hj' : a' ≤ j) (hjl' : j < a' + l') : a' = a ∧ l' = l := by
  have hstart : a' = a := le_antisymm (h.start_le h' hjl hj') (h'.start_le h hjl' hj)
  subst hstart
  refine ⟨rfl, ?_⟩
  have hle := h.le
  have hle' := h'.le
  rcases Nat.lt_trichotomy l l' with hlt | heq | hgt
  · rcases h.right with he | hne
    · omega
    · exact absurd (h'.free _ (by omega) (by omega)) hne
  · exact heq.symm
  · rcases h'.right with he | hne
    · omega
    · exact absurd (h.free _ (by omega) (by omega)) hne

/-- The runs below the offset stay when blocks above it are taken and the offset is raised above them. -/
theorem maximalFreeRun_raise_iff (hsame : ∀ k < e, owner c' k = owner c k)
    (htaken : ∀ k, e ≤ k → k < e + d → owner c' k ≠ 0) :
    MaximalFreeRun c' (e + d) a l ↔ MaximalFreeRun c e a l := by
  constructor
  · intro h
    have hpos := h.pos
    have hle := h.le
    -- it does not reach into the blocks that were taken
    have hbelow : a + l ≤ e := by
      by_contra hgt
      exact htaken (a + l - 1) (by omega) (by omega) (h.free _ (by omega) (by omega))
    refine ⟨hpos, hbelow, fun k hk hk' => ?_, ?_, ?_⟩
    · rw [← hsame k (by omega)]
      exact h.free k hk hk'
    · rcases h.left with h0 | hne
      · exact Or.inl h0
      · rw [hsame _ (by omega)] at hne
        exact Or.inr hne
    · rcases hbelow.eq_or_lt with heq | hlt
      · exact Or.inl heq
      · rcases h.right with he | hne
        · omega
        · rw [hsame _ hlt] at hne
          exact Or.inr hne
  · intro h
    have hpos := h.pos
    have hle := h.le
    refine ⟨hpos, by omega, fun k hk hk' => ?_, ?_, ?_⟩
    · rw [hsame k (by omega)]
      exact h.free k hk hk'
    · rcases h.left with h0 | hne
      · exact Or.inl h0
      · rw [← hsame _ (by omega)] at hne
        exact Or.inr hne
    · rcases h.right with he | hne
      · rcases Nat.eq_zero_or_pos d with h0 | hd
        · exact Or.inl (by omega)
        · exact Or.inr (htaken _ (by omega) (by omega))
      · rcases hle.eq_or_lt with he | hlt
        · rcases Nat.eq_zero_or_pos d with h0 | hd
          · exact Or.inl (by omega)
          · exact Or.inr (htaken _ (by omega) (by omega))
        · rw [← hsame _ hlt] at hne
          exact Or.inr hne

section Fill

variable {b s : ℕ} (h : MaximalFreeRun c e b s)
  (hsame : ∀ k < e, ¬(b ≤ k ∧ k < b + d) → owner c' k = owner c k)
  (htaken : ∀ k, b ≤ k → k < b + d → owner c' k ≠ 0)

include h hsame htaken

/-- What is left of a run when its first blocks are taken. -/
theorem MaximalFreeRun.rest (hd : 0 < d) (hlt : d < s) : MaximalFreeRun c' e (b + d) (s - d) := by
  have hbe := h.le
  refine ⟨by omega, by omega, fun k hk hk' => ?_, ?_, ?_⟩
  · rw [hsame k (by omega) (by omega)]
    exact h.free k (by omega) (by omega)
  · exact Or.inr (htaken _ (by omega) (by omega))
  · rw [show b + d + (s - d) = b + s by omega]
    rcases h.right with he | hne
    · exact Or.inl he
    · rcases hbe.eq_or_lt with heq | hlt'
      · exact Or.inl heq
      · right
        rwa [hsame _ hlt' (by omega)]

/-- The other runs stay. -/
theorem MaximalFreeRun.fill_of_ne (hds : d ≤ s) (h' : MaximalFreeRun c e a l) (hab : a ≠ b) :
    MaximalFreeRun c' e a l := by
  have hpos := h'.pos
  have hle := h'.le
  have hout : ∀ k, a ≤ k → k < a + l → ¬(b ≤ k ∧ k < b + d) := fun k hk hk' hb =>
    hab (h.unique h' hb.1 (by omega) hk hk').1
  refine ⟨hpos, hle, fun k hk hk' => ?_, ?_, ?_⟩
  · rw [hsame k (by omega) (hout k hk hk')]
    exact h'.free k hk hk'
  · rcases h'.left with h0 | hne
    · exact Or.inl h0
    · right
      by_cases hb : b ≤ a - 1 ∧ a - 1 < b + d
      · exact htaken _ hb.1 hb.2
      · rwa [hsame _ (by omega) hb]
  · rcases h'.right with he | hne
    · exact Or.inl he
    · rcases hle.eq_or_lt with heq | hlt
      · exact Or.inl heq
      · right
        by_cases hb : b ≤ a + l ∧ a + l < b + d
        · exact htaken _ hb.1 hb.2
        · rwa [hsame _ hlt hb]

/-- A run that begins where the filled one was is what is left of it. -/
theorem MaximalFreeRun.eq_rest (hd : 0 < d) (h' : MaximalFreeRun c' e a l) (hin : b ≤ a ∧ a < b + s) :
    d < s ∧ a = b + d ∧ l = s - d := by
  have hpos := h'.pos
  have hle := h'.le
  have hbe := h.le
  have hstart : a = b + d := by
    have hge : b + d ≤ a := by
      by_contra hlt
      exact htaken a hin.1 (by omega) (h'.free a le_rfl (by omega))
    rcases h'.left with h0 | hne
    · omega
    · by_contra hne'
      refine hne ?_
      rw [hsame _ (by omega) (by omega)]
      exact h.free _ (by omega) (by omega)
  refine ⟨by omega, hstart, ?_⟩
  rcases Nat.lt_trichotomy (a + l) (b + s) with hlt | heq | hgt
  · rcases h'.right with he | hne
    · omega
    · refine absurd ?_ hne
      rw [hsame _ (by omega) (by omega)]
      exact h.free _ (by omega) hlt
  · omega
  · rcases h.right with he | hne
    · omega
    · refine absurd ?_ hne
      rw [← hsame _ (by omega) (by omega)]
      exact h'.free _ (by omega) hgt

/-- A run that begins elsewhere was there before. -/
theorem MaximalFreeRun.of_fill (hd : 0 < d) (hds : d ≤ s) (h' : MaximalFreeRun c' e a l)
    (hin : ¬(b ≤ a ∧ a < b + s)) : MaximalFreeRun c e a l := by
  have hpos := h'.pos
  have hle := h'.le
  have hbe := h.le
  have hout : ∀ k, a ≤ k → k < a + l → ¬(b ≤ k ∧ k < b + d) := fun k hk hk' hb =>
    htaken k hb.1 hb.2 (h'.free k hk hk')
  have hbefore : a < b → a + l ≤ b := by
    intro hab
    by_contra hgt
    exact hout b (by omega) (by omega) ⟨le_rfl, by omega⟩
  refine ⟨hpos, hle, fun k hk hk' => ?_, ?_, ?_⟩
  · rw [← hsame k (by omega) (hout k hk hk')]
    exact h'.free k hk hk'
  · rcases h'.left with h0 | hne
    · exact Or.inl h0
    · right
      by_cases hb : b ≤ a - 1 ∧ a - 1 < b + d
      · -- the block before it ends the run that is filled
        have hend : a = b + s := by omega
        rcases h.right with he | hne'
        · omega
        · rw [← hend, ← hsame a (by omega) (by omega)] at hne'
          exact absurd (h'.free a le_rfl (by omega)) hne'
      · rwa [hsame _ (by omega) hb] at hne
  · rcases h'.right with he | hne
    · exact Or.inl he
    · rcases hle.eq_or_lt with heq | hlt
      · exact Or.inl heq
      · right
        by_cases hb : b ≤ a + l ∧ a + l < b + d
        · -- it ends where the run that is filled begins
          have hend : a + l = b := by
            rcases Nat.lt_or_ge a b with hab | hab
            · have := hbefore hab
              omega
            · omega
          rcases h.left with h0 | hne'
          · omega
          · rw [← hend, ← hsame _ (by omega) (by omega)] at hne'
            exact absurd (h'.free _ (by omega) (by omega)) hne'
        · rwa [hsame _ hlt hb] at hne

/-- **The runs when the first blocks of one of them are taken**: the others, and what is left of it. -/
theorem maximalFreeRun_fill_iff (hd : 0 < d) (hds : d ≤ s) :
    MaximalFreeRun c' e a l ↔ MaximalFreeRun c e a l ∧ a ≠ b ∨ d < s ∧ a = b + d ∧ l = s - d := by
  constructor
  · intro h'
    by_cases hin : b ≤ a ∧ a < b + s
    · exact Or.inr (h.eq_rest hsame htaken hd h' hin)
    · exact Or.inl ⟨h.of_fill hsame htaken hd hds h' hin, by omega⟩
  · rintro (⟨h', hab⟩ | ⟨hlt, rfl, rfl⟩)
    · exact h.fill_of_ne hsame htaken hds h' hab
    · exact h.rest hsame htaken hd hlt

end Fill

end Runs

end Blocks

namespace ActiveRmt

open Blocks

namespace Allocator

/-! ### What the scan records -/

/-- A recorded hole is measured by its length, unless it is of one block and not the first: then the end
marker is that of an earlier hole. -/
def Measured (col : List ℕ) (fr : Fragment) (l : ℕ) : Prop :=
  if l = 1 ∧ ∃ k < fr.start, owner col k = 0 then fr.size ≤ 0 else fr.size = l

/-- **What the scan has recorded after the blocks below `j`.** -/
structure ScanHoles (col : List ℕ) (j : ℕ) (sc : Scan) : Prop where
  /-- Outside of a hole the end marker is set once there was one. -/
  outside : sc.fragStart < 0 → (sc.fragEnd < 0 ↔ ∀ k < j, owner col k ≠ 0)
  /-- At the first block of a hole it is set if there was one before. -/
  inside : ∀ a : ℕ, sc.fragStart = a → j = a + 1 → (sc.fragEnd < 0 ↔ ∀ k < a, owner col k ≠ 0)
  /-- A recorded hole is a run that was closed. -/
  recorded : ∀ fr ∈ sc.fragments, ∃ l : ℕ, 0 < l ∧ fr.start + l < j ∧ ClosedRun col fr.start l ∧
    Measured col fr l
  /-- Every run that was closed is recorded. -/
  complete : ∀ a l, 0 < l → a + l < j → ClosedRun col a l → ∃ fr ∈ sc.fragments, fr.start = a
  /-- The holes are recorded from the lowest on. -/
  increasing : sc.fragments.Pairwise fun p q => p.start < q.start

section Scan

variable {col : List ℕ} {j a l a' l' : ℕ} {sc : Scan}

theorem scanHoles_start (col : List ℕ) : ScanHoles col 0 Scan.start where
  outside := by simp [Scan.start]
  inside := by simp [Scan.start]
  recorded := by simp [Scan.start]
  complete := by simp
  increasing := by simp [Scan.start]

/-- A free block closes nothing. -/
theorem ScanHoles.free (h : ScanHoles col j sc) (hat : ScanAt col j sc) (hj : owner col j = 0) :
    ScanHoles col (j + 1) (sc.free j) := by
  have hcomplete : ∀ a l, 0 < l → a + l < j + 1 → ClosedRun col a l → ∃ fr ∈ sc.fragments, fr.start = a := by
    intro a l hl hal hr
    refine h.complete a l hl ?_ hr
    rcases Nat.lt_succ_iff_lt_or_eq.1 hal with hlt | heq
    · exact hlt
    · exact absurd (heq ▸ hj) hr.right
  have hrecorded : ∀ fr ∈ sc.fragments, ∃ l : ℕ, 0 < l ∧ fr.start + l < j + 1 ∧
      ClosedRun col fr.start l ∧ Measured col fr l := by
    intro fr hfr
    obtain ⟨l, hl, hlt, hr, hm⟩ := h.recorded fr hfr
    exact ⟨l, hl, by omega, hr, hm⟩
  by_cases hs : sc.fragStart < 0
  · -- a hole begins
    rw [Scan.free, if_pos hs]
    refine ⟨fun hneg => ?_, fun a ha hja => ?_, hrecorded, hcomplete, h.increasing⟩
    · simp only at hneg
      omega
    · obtain rfl : j = a := by omega
      exact h.outside hs
  · -- the hole goes on
    rw [Scan.free, if_neg hs]
    obtain ⟨a, ha, haj, -⟩ := hat.inside (not_lt.1 hs)
    refine ⟨fun hneg => absurd hneg hs, fun a' ha' hja => ?_, hrecorded, hcomplete, h.increasing⟩
    simp only at ha'
    omega

/-- **The length that is recorded when a hole is closed.** -/
theorem ScanHoles.measured (h : ScanHoles col j sc) (ha : sc.fragStart = a) (haj : a < j)
    (hone : j = a + 1 → sc.fragEnd < a) (hmore : a + 1 < j → sc.fragEnd = (j : ℤ) - 1) :
    Measured col ⟨a, (if sc.fragEnd < 0 then sc.fragStart else sc.fragEnd) - sc.fragStart + 1⟩ (j - a) := by
  unfold Measured
  by_cases hja : j = a + 1
  · have hend := hone hja
    have hmarker := h.inside a ha hja
    by_cases hfirst : ∃ k < a, owner col k = 0
    · -- the end marker is left over
      rw [if_pos ⟨by omega, hfirst⟩]
      have hset : ¬sc.fragEnd < 0 := fun hneg => by
        obtain ⟨k, hk, hfree⟩ := hfirst
        exact hmarker.1 hneg k hk hfree
      simp only [if_neg hset]
      omega
    · rw [if_neg fun hp => hfirst hp.2]
      have hunset : sc.fragEnd < 0 := hmarker.2 fun k hk h0 => hfirst ⟨k, hk, h0⟩
      simp only [if_pos hunset]
      omega
  · have hend := hmore (by omega)
    rw [if_neg (by omega)]
    simp only [if_neg (show ¬sc.fragEnd < 0 by omega)]
    omega

/-- **An occupied block closes the hole that the scan is in.** -/
theorem ScanHoles.used (h : ScanHoles col j sc) (hat : ScanAt col j sc) (hj : owner col j ≠ 0) :
    ScanHoles col (j + 1) (sc.used (owner col j)) := by
  by_cases hs : 0 ≤ sc.fragStart
  · obtain ⟨a, ha, haj, hrun, hone, hmore⟩ := hat.closedRun hs hj
    simp only [Scan.used, if_pos hs]
    have hstart : sc.fragStart.toNat = a := by omega
    rw [hstart]
    refine ⟨fun _ => ?_, fun a' ha' => by simp only at ha'; omega, ?_, ?_, ?_⟩
    · -- the end marker is set from now on
      refine iff_of_false ?_ fun hall => hall a (by omega) (hrun.free a le_rfl (by omega))
      simp only
      split_ifs <;> omega
    · intro fr hfr
      rcases List.mem_append.1 hfr with hfr | hfr
      · obtain ⟨l, hl, hlt, hr, hm⟩ := h.recorded fr hfr
        exact ⟨l, hl, by omega, hr, hm⟩
      · obtain rfl := List.mem_singleton.1 hfr
        exact ⟨j - a, by omega, by simp only; omega, hrun, h.measured ha haj hone hmore⟩
    · intro b l hl hbl hr
      rcases Nat.lt_succ_iff_lt_or_eq.1 hbl with hlt | heq
      · obtain ⟨fr, hfr, hb⟩ := h.complete b l hl hlt hr
        exact ⟨fr, List.mem_append_left _ hfr, hb⟩
      · refine ⟨_, List.mem_append_right _ (List.mem_singleton_self _), ?_⟩
        exact hrun.start_eq hr (by omega) hl (by omega)
    · refine List.pairwise_append.2 ⟨h.increasing, List.pairwise_singleton _ _, fun p hp q hq => ?_⟩
      obtain rfl := List.mem_singleton.1 hq
      -- an earlier hole was closed before this one began
      obtain ⟨l, hl, hlt, hr, -⟩ := h.recorded p hp
      have hclosed : p.start + l < a := by
        by_contra hge
        exact hr.right (hrun.free _ (by omega) (by omega))
      simp only
      omega
  · -- no hole is open
    have houtside := h.outside (not_le.1 hs)
    simp only [Scan.used, if_neg hs]
    refine ⟨fun _ => houtside.trans ⟨fun hall k hk => ?_, fun hall k hk => hall k (by omega)⟩,
      fun a' ha' => by simp only at ha'; omega, fun fr hfr => ?_, fun b l hl hbl hr => ?_, h.increasing⟩
    · rcases Nat.lt_succ_iff_lt_or_eq.1 hk with hlt | rfl
      · exact hall k hlt
      · exact hj
    · obtain ⟨l, hl, hlt, hr, hm⟩ := h.recorded fr hfr
      exact ⟨l, hl, by omega, hr, hm⟩
    · exact h.complete b l hl (hat.closed_before (not_le.1 hs) hl hbl hr) hr

/-- **What the scan of the blocks from `j` on has recorded.** -/
theorem scanHoles_scanFrom (h : ScanHoles col j sc) (hat : ScanAt col j sc) (xs : List ℕ)
    (hxs : ∀ k (hk : k < xs.length), xs[k] = owner col (j + k)) :
    ScanHoles col (j + xs.length) (scanFrom j xs sc) := by
  induction xs generalizing j sc with
  | nil => exact h
  | cons x xs ih =>
      have hx : x = owner col j := hxs 0 (Nat.succ_pos _)
      have hstep : ScanHoles col (j + 1) (sc.step j x) ∧ ScanAt col (j + 1) (sc.step j x) := by
        rw [Scan.step]
        split_ifs with h0
        · exact ⟨h.free hat (hx ▸ h0), hat.free (hx ▸ h0)⟩
        · rw [hx]
          exact ⟨h.used hat (hx ▸ h0), hat.used (hx ▸ h0)⟩
      have := ih hstep.1 hstep.2 fun k hk => by
        have := hxs (k + 1) (by simpa using hk)
        simpa [Nat.add_assoc, Nat.add_comm 1] using this
      rw [scanFrom, List.length_cons, ← Nat.add_assoc, Nat.add_right_comm]
      exact this

end Scan

/-! ### The recorded holes and the holes there are -/

/-- The recorded holes are those that there are below the offset, in some order. -/
structure HolesListed (col : List ℕ) (e : ℕ) (frags : List Fragment) : Prop where
  /-- No hole is recorded twice. -/
  nodup : frags.Nodup
  /-- A recorded hole is a maximal free run, and every such run is recorded. -/
  mem_iff : ∀ fr, fr ∈ frags ↔ ∃ l : ℕ, fr.size = l ∧ MaximalFreeRun col e fr.start l

/-- **The recorded holes describe the free blocks** below the offset. -/
structure FragmentsExact (col : List ℕ) (e : ℕ) (frags : List Fragment) : Prop where
  /-- They are those that there are. -/
  listed : HolesListed col e frags
  /-- The longest comes first. -/
  sorted : frags.Pairwise fun p q => q.size ≤ p.size
  /-- Each of them has a block. -/
  pos : ∀ fr ∈ frags, 0 < fr.size
  /-- No two of them share a block. -/
  disjoint : frags.Pairwise fun p q =>
    (p.start : ℤ) + p.size ≤ q.start ∨ (q.start : ℤ) + q.size ≤ p.start

/-- **Below the offset every hole is closed, and only the first is of one block.** -/
structure Tidy (col : List ℕ) (e : ℕ) : Prop where
  /-- The block below the offset is occupied. -/
  closed : e = 0 ∨ owner col (e - 1) ≠ 0
  /-- A hole of one block has no hole below it. -/
  single : ∀ a, MaximalFreeRun col e a 1 → ∀ k < a, owner col k ≠ 0

attribute [ext] Fragment

instance (c : List ℕ) (a l : ℕ) : Decidable (FreeRun c a l) :=
  decidable_of_iff (∀ k < l, owner c (a + k) = 0)
    ⟨fun h j hj hjl => by simpa [Nat.add_sub_cancel' hj] using h (j - a) (by omega),
      fun h k hk => h (a + k) (by omega) (by omega)⟩

instance (c : List ℕ) (e a l : ℕ) : Decidable (MaximalFreeRun c e a l) :=
  decidable_of_iff (0 < l ∧ a + l ≤ e ∧ FreeRun c a l ∧ (a = 0 ∨ owner c (a - 1) ≠ 0) ∧
      (a + l = e ∨ owner c (a + l) ≠ 0))
    ⟨fun h => ⟨h.1, h.2.1, h.2.2.1, h.2.2.2.1, h.2.2.2.2⟩,
      fun h => ⟨h.pos, h.le, h.free, h.left, h.right⟩⟩

instance (col : List ℕ) (e : ℕ) : Decidable (Tidy col e) :=
  decidable_of_iff ((e = 0 ∨ owner col (e - 1) ≠ 0) ∧
      ∀ a < e, MaximalFreeRun col e a 1 → ∀ k < a, owner col k ≠ 0)
    ⟨fun h => ⟨h.1, fun a ha => h.2 a (by have := ha.le; omega) ha⟩,
      fun h => ⟨h.closed, fun a _ => h.single a⟩⟩

section Listed

variable {col col' : List ℕ} {e d : ℕ} {frags frags' : List Fragment} {sc : Scan}

theorem ClosedRun.maximal {a l : ℕ} (h : ClosedRun col a l) (hl : 0 < l) (hal : a + l < e) :
    MaximalFreeRun col e a l :=
  ⟨hl, hal.le, h.free, h.left, Or.inr h.right⟩

/-- The hole is there. -/
def IsHole (col : List ℕ) (e : ℕ) (fr : Fragment) : Prop :=
  ∃ l : ℕ, fr.size = l ∧ MaximalFreeRun col e fr.start l

theorem holesListed_iff : HolesListed col e frags ↔ Enumerates frags (IsHole col e) :=
  ⟨fun h => ⟨h.nodup, h.mem_iff⟩, fun h => ⟨h.1, h.2⟩⟩

/-- In some order, that is. -/
theorem holesListed_perm (h : frags.Perm frags') : HolesListed col e frags ↔ HolesListed col e frags' := by
  rw [holesListed_iff, holesListed_iff, enumerates_perm h]

/-- A recorded hole has a block. -/
theorem HolesListed.pos (h : HolesListed col e frags) {fr : Fragment} (hfr : fr ∈ frags) : 0 < fr.size := by
  obtain ⟨l, hl, hrun⟩ := (h.mem_iff fr).1 hfr
  have := hrun.pos
  omega

/-- Two recorded holes share no block. -/
theorem HolesListed.disjoint (h : HolesListed col e frags) {p q : Fragment} (hp : p ∈ frags)
    (hq : q ∈ frags) (hne : p ≠ q) :
    (p.start : ℤ) + p.size ≤ q.start ∨ (q.start : ℤ) + q.size ≤ p.start := by
  obtain ⟨l, hl, hrun⟩ := (h.mem_iff p).1 hp
  obtain ⟨l', hl', hrun'⟩ := (h.mem_iff q).1 hq
  have hpos := hrun.pos
  have hpos' := hrun'.pos
  by_contra hboth
  -- the larger of the two beginnings lies in both
  obtain ⟨hstart, rfl⟩ := hrun.unique hrun' (j := max p.start q.start) (by omega) (by omega) (by omega)
    (by omega)
  exact hne (Fragment.ext hstart.symm (hl.trans hl'.symm))

/-- **Sorting is all that is left to do** once the holes are listed. -/
theorem fragmentsExact_sort_iff : FragmentsExact col e (sortFragments frags) ↔ HolesListed col e frags := by
  have hperm : (sortFragments frags).Perm frags := List.perm_insertionSort _ _
  constructor
  · intro h
    exact (holesListed_perm hperm).1 h.listed
  · intro h
    have hl := (holesListed_perm hperm).2 h
    refine ⟨hl, ?_, fun fr hfr => hl.pos hfr, hl.nodup.pairwise_of_forall_ne fun p hp q hq hne =>
      hl.disjoint hp hq hne⟩
    have : Std.Total fun a b : Fragment => b.size ≤ a.size := ⟨fun a b => le_total b.size a.size⟩
    have : IsTrans Fragment fun a b => b.size ≤ a.size := ⟨fun a b c hab hbc => le_trans hbc hab⟩
    exact List.pairwise_insertionSort _ _

/-- **The scan lists the holes exactly when they are tidy.** -/
theorem ScanHoles.listed_iff (h : ScanHoles col e sc) : HolesListed col e sc.fragments ↔ Tidy col e := by
  constructor
  · intro hl
    have hclosed : ∀ a l, MaximalFreeRun col e a l → a + l < e := by
      intro a l hrun
      obtain ⟨l', hl', hlt, hr, -⟩ := h.recorded ⟨a, l⟩ ((hl.mem_iff ⟨a, l⟩).2 ⟨l, rfl, hrun⟩)
      simp only at hlt hr
      by_contra hge
      exact hr.right (hrun.free _ (by omega) (by omega))
    refine ⟨?_, fun a hrun k hk h0 => ?_⟩
    · by_contra hnot
      obtain ⟨he, hfree⟩ : e ≠ 0 ∧ owner col (e - 1) = 0 := by
        simpa using hnot
      obtain ⟨a, l, hrun, hle, hlt⟩ := exists_maximalFreeRun_mem (show e - 1 < e by omega) hfree
      have := hclosed a l hrun
      omega
    · obtain ⟨l', hl', hlt, hr, hm⟩ := h.recorded ⟨a, 1⟩ ((hl.mem_iff ⟨a, 1⟩).2 ⟨1, rfl, hrun⟩)
      simp only at hlt hr
      obtain ⟨-, rfl⟩ := hrun.unique (hr.maximal hl' hlt) le_rfl (by omega) le_rfl (by omega)
      rw [Measured, if_pos ⟨rfl, k, hk, h0⟩] at hm
      exact absurd hm (by simp)
  · intro ht
    have hrecorded : ∀ fr ∈ sc.fragments, ∃ l : ℕ, fr.size = l ∧ MaximalFreeRun col e fr.start l := by
      intro fr hfr
      obtain ⟨l, hl, hlt, hr, hm⟩ := h.recorded fr hfr
      have hrun := hr.maximal hl hlt
      refine ⟨l, ?_, hrun⟩
      unfold Measured at hm
      split_ifs at hm with hone
      · obtain ⟨rfl, k, hk, h0⟩ := hone
        exact absurd h0 (ht.single _ hrun k hk)
      · exact hm
    refine ⟨h.increasing.imp fun hlt heq => ?_, fun fr => ⟨hrecorded fr, ?_⟩⟩
    · rw [heq] at hlt
      exact lt_irrefl _ hlt
    · rintro ⟨l, hl, hrun⟩
      have hpos := hrun.pos
      have hlt : fr.start + l < e := by
        refine lt_of_le_of_ne hrun.le fun heq => ?_
        rcases ht.closed with h0 | hne
        · omega
        · exact hne (hrun.free _ (by omega) (by omega))
      have hclosed : ClosedRun col fr.start l := ⟨hrun.free, hrun.left, hrun.right.resolve_left hlt.ne⟩
      obtain ⟨fr', hfr', hstart⟩ := h.complete fr.start l hpos hlt hclosed
      obtain ⟨l', hl', hrun'⟩ := hrecorded fr' hfr'
      rw [hstart] at hrun'
      obtain ⟨-, rfl⟩ := hrun.unique hrun' le_rfl (by omega) le_rfl (by have := hrun'.pos; omega)
      have heq : fr' = fr := Fragment.ext hstart (hl'.trans hl.symm)
      exact heq ▸ hfr'

/-- Taking the blocks above the offset and raising it above them changes no hole. -/
theorem holesListed_raise_iff (hsame : ∀ k < e, owner col' k = owner col k)
    (htaken : ∀ k, e ≤ k → k < e + d → owner col' k ≠ 0) :
    HolesListed col' (e + d) frags ↔ HolesListed col e frags := by
  rw [holesListed_iff, holesListed_iff]
  refine enumerates_congr fun fr => exists_congr fun l => and_congr_right fun _ => ?_
  exact maximalFreeRun_raise_iff hsame htaken

/-- The holes depend on the blocks below the offset only. -/
theorem holesListed_congr (hsame : ∀ k < e, owner col' k = owner col k) :
    HolesListed col' e frags ↔ HolesListed col e frags :=
  holesListed_raise_iff (d := 0) hsame fun k hk hk' => absurd hk' (by omega)

section Fill

variable {b s : ℕ} (h : MaximalFreeRun col e b s)

include h

/-- The hole that begins there. -/
theorem isHole_start_iff {fr : Fragment} (hfr : IsHole col e fr) : fr.start = b ↔ fr = ⟨b, s⟩ := by
  refine ⟨fun hstart => ?_, fun heq => heq ▸ rfl⟩
  obtain ⟨l, hl, hrun⟩ := hfr
  rw [hstart] at hrun
  have hpos := h.pos
  obtain ⟨-, rfl⟩ := h.unique hrun le_rfl (by omega) le_rfl (by have := hrun.pos; omega)
  exact Fragment.ext hstart hl

/-- No hole begins inside of it. -/
theorem not_isHole_inner (hd : 0 < d) (hlt : d < s) (x : ℤ) : ¬IsHole col e ⟨b + d, x⟩ := by
  rintro ⟨l, -, hrun⟩
  have hpos := hrun.pos
  have := (h.unique hrun (j := b + d) (by omega) (by omega) le_rfl (by simp only; omega)).1
  simp only at this
  omega

/-- **The holes when the first blocks of one are taken.** -/
theorem isHole_fill_iff (hd : 0 < d) (hds : d ≤ s)
    (hsame : ∀ k < e, ¬(b ≤ k ∧ k < b + d) → owner col' k = owner col k)
    (htaken : ∀ k, b ≤ k → k < b + d → owner col' k ≠ 0) {fr : Fragment} :
    IsHole col' e fr ↔ (IsHole col e fr ∧ fr ≠ ⟨b, s⟩) ∨ d < s ∧ fr = ⟨b + d, (s : ℤ) - d⟩ := by
  have hfill : ∀ {a l : ℕ}, MaximalFreeRun col' e a l ↔
      MaximalFreeRun col e a l ∧ a ≠ b ∨ d < s ∧ a = b + d ∧ l = s - d := fun {a l} =>
    maximalFreeRun_fill_iff h hsame htaken hd hds
  constructor
  · rintro ⟨l, hl, hrun⟩
    rcases hfill.1 hrun with ⟨hrun, hne⟩ | ⟨hlt, hstart, rfl⟩
    · have hfr : IsHole col e fr := ⟨l, hl, hrun⟩
      exact Or.inl ⟨hfr, fun heq => hne ((isHole_start_iff h hfr).2 heq)⟩
    · exact Or.inr ⟨hlt, Fragment.ext hstart (by simp only; omega)⟩
  · rintro (⟨hfr, hne⟩ | ⟨hlt, rfl⟩)
    · have hstart := mt (isHole_start_iff h hfr).1 hne
      obtain ⟨l, hl, hrun⟩ := hfr
      exact ⟨l, hl, hfill.2 (Or.inl ⟨hrun, hstart⟩)⟩
    · exact ⟨s - d, by simp only; omega, hfill.2 (Or.inr ⟨hlt, rfl, rfl⟩)⟩

/-- **Taking the first blocks of a hole** that is measured rightly: what is left of it is recorded in its
place, and the other holes are recorded as rightly or wrongly as before. -/
theorem holesListed_fill_iff (hd : 0 < d) (hds : d ≤ s)
    (hsame : ∀ k < e, ¬(b ≤ k ∧ k < b + d) → owner col' k = owner col k)
    (htaken : ∀ k, b ≤ k → k < b + d → owner col' k ≠ 0) :
    HolesListed col' e (if d = s then frags else ⟨b + d, (s : ℤ) - d⟩ :: frags) ↔
      HolesListed col e (⟨b, s⟩ :: frags) := by
  have hfill := @isHole_fill_iff col col' e d b s h hd hds hsame htaken
  rw [holesListed_iff, holesListed_iff, enumerates_cons_iff ⟨s, rfl, h⟩]
  split_ifs with heq
  · -- nothing is left of it
    refine enumerates_congr fun fr => hfill.trans ?_
    exact or_iff_left fun hlt => absurd heq hlt.1.ne
  · have hlt : d < s := lt_of_le_of_ne hds heq
    rw [enumerates_cons_iff (hfill.2 (Or.inr ⟨hlt, rfl⟩))]
    refine enumerates_congr fun fr => ⟨?_, fun hfr => ⟨hfill.2 (Or.inl hfr), ?_⟩⟩
    · rintro ⟨hfr, hne⟩
      exact (hfill.1 hfr).resolve_right fun hrest => hne hrest.2
    · rintro rfl
      exact not_isHole_inner h hd hlt _ hfr.1

end Fill

end Listed

/-! ### What a placement does to the holes -/

section Placing

variable {old base col : List ℕ} {e n : ℕ} {st st' mid : StageState} {fids : Finset Fid} {sc : Scan}
  {demand : Fid → Except Exn ℕ} {apps : List (Fid × ℕ)}

/-- The scan of the blocks below an offset. -/
theorem scanHoles_take (he : e ≤ old.length) : ScanHoles old e (scanFrom 0 (old.take e) Scan.start) := by
  have hlen : (old.take e).length = e := by
    rw [List.length_take]
    exact min_eq_left he
  have := scanHoles_scanFrom (scanHoles_start old) (scanAt_start old) (old.take e) fun k hk => by
    rw [List.getElem_take, Nat.zero_add, owner_eq_getElem (by rw [List.length_take] at hk; omega)]
  rwa [hlen, Nat.zero_add] at this

theorem holesListed_copyBelow {frags : List Fragment} :
    HolesListed (copyBelow e old) e frags ↔ HolesListed old e frags :=
  holesListed_congr fun k hk => by rw [owner_copyBelow, if_pos hk]

/-- **An inelastic arrival** leaves the holes recorded as rightly or wrongly as before: the hole that it
is placed in has been measured rightly. -/
theorem placeInelastic_listed_iff (hat : ScanAt old e sc) (happs : apps.length ≤ 1)
    (hpos : ∀ app ∈ apps, app.1 ≠ 0 ∧ 1 < app.2)
    (h : placeInelastic apps (copyBelow e old) ⟨sc.fragments, e⟩ = .ok base mid) :
    HolesListed base mid.elasticOffset mid.fragmentation ↔ HolesListed old e sc.fragments := by
  match apps, happs with
  | [], _ =>
      obtain ⟨rfl, rfl⟩ := EStateM.Result.ok.inj h
      exact holesListed_copyBelow
  | [(f, d)], _ =>
      obtain ⟨hf, hd⟩ := hpos (f, d) List.mem_cons_self
      simp only [placeInelastic, if_neg (not_le.2 hd)] at h
      refine Iff.trans ?_ holesListed_copyBelow
      cases hb : bestHole d sc.fragments with
      | none =>
          -- the arrival goes above the offset
          simp only [hb] at h
          split_ifs at h with hlen
          obtain ⟨rfl, rfl⟩ := EStateM.Result.ok.inj h
          have hown := owner_writeRange (f := f) (not_lt.1 hlen)
          refine holesListed_raise_iff (fun k hk => ?_) fun k hk hk' => ?_
          · rw [hown, if_neg (by omega)]
          · rwa [hown, if_pos ⟨hk, hk'⟩]
      | some b =>
          -- it goes into the hole
          obtain ⟨fr, k⟩ := b
          obtain ⟨hk, hdfr⟩ := bestHole_some hb
          simp only [hb] at h
          by_cases hlen : (copyBelow e old).length < fr.start + d
          · rw [if_pos hlen] at h
            cases h
          rw [if_neg hlen] at h
          obtain ⟨rfl, rfl⟩ := EStateM.Result.ok.inj h
          have hown := owner_writeRange (f := f) (not_lt.1 hlen)
          obtain ⟨hlt, hrun⟩ := hat.sound fr (List.mem_of_getElem? hk) (by omega)
          have hmax : MaximalFreeRun (copyBelow e old) e fr.start fr.size.toNat := by
            have hsame : ∀ j < e, owner (copyBelow e old) j = owner old j := fun j hj => by
              rw [owner_copyBelow, if_pos hj]
            exact (maximalFreeRun_raise_iff (d := 0) hsame fun j hj hj' => absurd hj' (by omega)).2
              (hrun.maximal (by omega) hlt)
          have hsame : ∀ j < e, ¬(fr.start ≤ j ∧ j < fr.start + d) →
              owner (writeRange (copyBelow e old) fr.start d f) j = owner (copyBelow e old) j :=
            fun j _ hj => by rw [hown, if_neg hj]
          have htaken : ∀ j, fr.start ≤ j → j < fr.start + d →
              owner (writeRange (copyBelow e old) fr.start d f) j ≠ 0 :=
            fun j hj hj' => by rwa [hown, if_pos ⟨hj, hj'⟩]
          have hfill := @holesListed_fill_iff _ _ e d (sc.fragments.eraseIdx k) _ _ hmax (by omega) (by omega)
            hsame htaken
          have hsize : (fr.size.toNat : ℤ) = fr.size := Int.toNat_of_nonneg (by omega)
          obtain ⟨hklt, hfr⟩ := List.getElem?_eq_some_iff.1 hk
          have hperm : (fr :: sc.fragments.eraseIdx k).Perm sc.fragments := by
            rw [← hfr]
            exact List.getElem_cons_eraseIdx_perm hklt
          rw [hsize, holesListed_perm hperm] at hfill
          refine Iff.trans ?_ hfill
          by_cases heq : (d : ℤ) = fr.size
          · rw [if_pos heq, if_pos (by omega)]
          · rw [if_neg heq, if_neg (by omega)]
            exact holesListed_perm (List.set_perm_cons_eraseIdx hklt _)

/-- The elastic fill writes from the offset on. -/
theorem owner_fillElastic (h : fillElastic e n apps base = .ok col) {j : ℕ} (hj : j < e) :
    owner col j = owner base j := by
  unfold fillElastic at h
  dsimp only at h
  split_ifs at h
  · obtain rfl := Except.ok.inj h
    rfl
  all_goals
    rename_i hlen
    obtain rfl := Except.ok.inj h
    exact owner_writeRuns_of_not (not_lt.1 hlen) (by omega)

/-- **The recorded holes of a stage are right after a placement exactly when they were tidy before it.** -/
theorem placeStage_exact_iff (h : placeStage demand fids old st = .ok col st') (h0 : 0 ∉ fids) :
    FragmentsExact col st'.elasticOffset st'.fragmentation ↔ Tidy old st.elasticOffset := by
  obtain ⟨apps, base, mid, n, happs, hone, hlen, hbase, hfill, rfl⟩ := placeStage_inv h
  rw [placeInelastic_filter] at hbase
  have hpos : ∀ app ∈ apps.filter fun app => 1 < app.2, app.1 ≠ 0 ∧ 1 < app.2 := by
    intro app happ
    obtain ⟨hmem, hd⟩ := List.mem_filter.1 happ
    exact ⟨fun h' => h0 (h' ▸ happs app hmem), of_decide_eq_true hd⟩
  have hcol : HolesListed col mid.elasticOffset mid.fragmentation ↔
      HolesListed base mid.elasticOffset mid.fragmentation :=
    holesListed_congr fun k hk => owner_fillElastic hfill hk
  calc FragmentsExact col mid.elasticOffset (sortFragments mid.fragmentation)
      ↔ HolesListed col mid.elasticOffset mid.fragmentation := fragmentsExact_sort_iff
    _ ↔ HolesListed base mid.elasticOffset mid.fragmentation := hcol
    _ ↔ HolesListed old st.elasticOffset (holesBelow st.elasticOffset old) :=
        placeInelastic_listed_iff (scanAt_take hlen) hone hpos hbase
    _ ↔ Tidy old st.elasticOffset := (scanHoles_take hlen).listed_iff

end Placing

/-! ### Runs -/

section Runs

variable {cfg : AllocatorConfig} {s t : Allocator} {op : Op} {ops : List Op}

/-- One operation, which may raise an exception. -/
def Attempt (cfg : AllocatorConfig) (s : Allocator) (op : Op) (t : Allocator) : Prop :=
  Allowed s op ∧ ((∃ b, perform cfg op s = .ok b t) ∨ ∃ ex, perform cfg op s = .error ex t)

theorem Step.attempt (h : Step cfg s op t) : Attempt cfg s op t := ⟨h.1, Or.inl h.2⟩

/-- **What new columns that were computed do to the recorded holes**, in any state. -/
theorem computeAllocationMatrix_exact_iff {map : Stage → Finset Fid} {new : Stage → List ℕ}
    (h : computeAllocationMatrix cfg map s = .ok new t) (h0 : ∀ i, 0 ∉ map i) {i : Stage} (hi : map i ≠ ∅) :
    FragmentsExact (new i) (t.elasticOffset i) (t.fragmentation i) ↔
      Tidy (s.allocationMatrix i) (s.elasticOffset i) := by
  have hdone := (computeAllocationMatrix_ok h).done i (mem_stages i)
  rw [stageResult, if_neg hi] at hdone
  exact placeStage_exact_iff hdone (h0 i)

/-- The map that an arrival asks for places no free memory. -/
theorem zero_notMem_arrivalMap (h0 : ∀ i, 0 ∉ s.allocationMap i) {af : ActiveFunction} (ha : Arrival s af)
    (v : List Stage) (i : Stage) : 0 ∉ arrivalMap s.allocationMap af.fid v i := by
  unfold arrivalMap
  split_ifs
  · rw [Finset.mem_insert, not_or]
    exact ⟨ha.pos.ne, h0 i⟩
  · exact h0 i

theorem ends_arrive_map {af : ActiveFunction} (ha : Arrival s af) (h0 : ∀ i, 0 ∉ s.allocationMap i) :
    Ends (Allocator.arrive cfg af) s (fun _ t => ∀ i, 0 ∉ t.allocationMap i)
      fun t => ∀ i, 0 ∉ t.allocationMap i := by
  have hchoice := @ends_computeAllocation cfg af s
  cases hc : computeAllocation cfg af s with
  | error ex u =>
      obtain ⟨d, rfl, -⟩ := hchoice.2 ex u hc
      have hx : Allocator.arrive cfg af s = .error ex (s.marked af.fid d) := by
        simp only [Allocator.arrive, hc]
      exact ends_of_error hx h0
  | ok r u =>
      obtain ⟨d, rfl, -⟩ := hchoice.1 r u hc
      cases r with
      | none =>
          have hx : Allocator.arrive cfg af s = .ok false (s.marked af.fid d) := by
            simp only [Allocator.arrive, hc]
          exact ends_of_ok hx h0
      | some ch =>
          have hqueue := @ends_enqueueAllocation cfg ch.allocation ch.allocationMap (s.marked af.fid d)
          cases he : enqueueAllocation cfg ch.allocation ch.allocationMap (s.marked af.fid d) with
          | error ex u =>
              obtain ⟨e, fr, rfl⟩ := hqueue.2 ex u he
              have hx : Allocator.arrive cfg af s = .error ex ((s.marked af.fid d).reshaped e fr) := by
                simp only [Allocator.arrive, hc, he]
              exact ends_of_error hx h0
          | ok p u =>
              -- the map that was queued is the one that the arrival asks for
              obtain ⟨new, e, fr, -, -, -, rfl⟩ := hqueue.1 p u he
              obtain ⟨⟨-, -, -, hch⟩, -⟩ := computeAllocation_some hc
              have hx : Allocator.arrive cfg af s = .ok true (((s.marked af.fid d).reshaped e fr).applied
                  ⟨ch.allocation, ch.allocationMap, reverseMap ch.allocationMap, new⟩) := by
                simp only [Allocator.arrive, hc, he]
                rfl
              refine ends_of_ok hx fun i => ?_
              simp only [applied, hch]
              exact zero_notMem_arrivalMap h0 ha ch.optimal i

theorem ends_deallocate_map (f : Fid) (h0 : ∀ i, 0 ∉ s.allocationMap i) :
    Ends (deallocate f) s (fun _ t => ∀ i, 0 ∉ t.allocationMap i) fun t => ∀ i, 0 ∉ t.allocationMap i := by
  have hpresent : ¬s.Present 0 := by
    rintro ⟨j, hj | hj⟩
    · exact h0 j hj
    · exact (mem_tenants_iff.1 hj).1 rfl
  exact (ends_deallocate_present f s).mono (fun _ t ht i hi => hpresent (ht 0 ⟨i, Or.inl hi⟩))
    fun t ht i hi => hpresent (ht 0 ⟨i, Or.inl hi⟩)

/-- **No operation places free memory**, whether or not it raises an exception. -/
theorem Attempt.zero_notMem (h : Attempt cfg s op t) (h0 : ∀ i, 0 ∉ s.allocationMap i) :
    ∀ i, 0 ∉ t.allocationMap i := by
  obtain ⟨hall, h⟩ := h
  have hends : Ends (perform cfg op) s (fun _ t => ∀ i, 0 ∉ t.allocationMap i)
      fun t => ∀ i, 0 ∉ t.allocationMap i := by
    cases op with
    | arrive af => exact ends_arrive_map hall h0
    | depart f => exact ends_deallocate_map f h0
  rcases h with ⟨b, h⟩ | ⟨ex, h⟩
  · exact hends.1 b t h
  · exact hends.2 ex t h

/-- In no run is free memory placed. -/
theorem zero_notMem_of_run (h : Run (Attempt cfg) (init cfg) ops s) : ∀ i, 0 ∉ s.allocationMap i :=
  h.invariant (I := fun s => ∀ i, 0 ∉ s.allocationMap i) (fun _ _ _ h0 hstep => hstep.zero_notMem h0)
    (by simp [init])

/-- **The recorded holes in every run.**  Whenever new columns are computed for an arrival, the holes
recorded at an occupied stage are those that there are below the new offset, sorted and disjoint, exactly
when the stage was tidy before. -/
theorem fragments_exact_iff {af : ActiveFunction} {ch : Choice} {s₁ : Allocator} {new : Stage → List ℕ}
    (hrun : Run (Attempt cfg) (init cfg) ops s) (ha : Arrival s af)
    (hc : computeAllocation cfg af s = .ok (some ch) s₁)
    (hm : computeAllocationMatrix cfg ch.allocationMap s₁ = .ok new t) (i : Stage)
    (hi : ch.allocationMap i ≠ ∅) :
    FragmentsExact (new i) (t.elasticOffset i) (t.fragmentation i) ↔
      Tidy (s.allocationMatrix i) (s.elasticOffset i) := by
  obtain ⟨⟨rfl, -, -, hch⟩, -⟩ := computeAllocation_some hc
  refine computeAllocationMatrix_exact_iff hm (fun j => ?_) hi
  rw [hch]
  exact zero_notMem_arrivalMap (zero_notMem_of_run hrun) ha _ j

end Runs

/-! ### Single runs -/

section Samples

/-- The choice for an arrival and its new columns; `none` when there are none. -/
def newColumns (cfg : AllocatorConfig) (s : Allocator) (af : ActiveFunction) :
    Option (Choice × Allocator × (Stage → List ℕ) × Allocator) :=
  match computeAllocation cfg af s with
  | .ok (some ch) s₁ =>
      match computeAllocationMatrix cfg ch.allocationMap s₁ with
      | .ok new t => some (ch, s₁, new, t)
      | .error _ _ => none
  | _ => none

variable {cfg : AllocatorConfig} {s s₁ t : Allocator} {af : ActiveFunction} {ch : Choice}
  {new : Stage → List ℕ} {ops : List Op}

theorem of_newColumns (h : newColumns cfg s af = some (ch, s₁, new, t)) :
    computeAllocation cfg af s = .ok (some ch) s₁ ∧
      computeAllocationMatrix cfg ch.allocationMap s₁ = .ok new t := by
  unfold newColumns at h
  split at h
  · rename_i hc
    split at h
    · rename_i hm
      obtain ⟨rfl, rfl, rfl, rfl⟩ := by simpa only [Option.some.injEq, Prod.mk.injEq] using h
      exact ⟨hc, hm⟩
    · cases h
  · cases h

/-- Three inelastic functions of two blocks each; the second one departs. -/
def threeAndOneLeaves : List Op :=
  [.arrive (.singleAccess 1 0 2), .arrive (.singleAccess 2 0 2), .arrive (.singleAccess 3 0 2), .depart 2]

/-- The hole that is left is recorded when an elastic function arrives. -/
theorem fragments_exact_iff_threeAndOneLeaves :
    ∃ s ch s₁ new t, execute ⟨16, .cost, true, true⟩ threeAndOneLeaves (init ⟨16, .cost, true, true⟩) = some s ∧
      computeAllocation ⟨16, .cost, true, true⟩ (.singleAccess 4 0 1) s = .ok (some ch) s₁ ∧
      computeAllocationMatrix ⟨16, .cost, true, true⟩ ch.allocationMap s₁ = .ok new t ∧
      t.fragmentation 0 = [⟨2, 2⟩] ∧ FragmentsExact (new 0) (t.elasticOffset 0) (t.fragmentation 0) := by
  have hex : (execute ⟨16, .cost, true, true⟩ threeAndOneLeaves (init ⟨16, .cost, true, true⟩)).any (fun s =>
      (newColumns ⟨16, .cost, true, true⟩ s (.singleAccess 4 0 1)).any fun r =>
        Arrival s (.singleAccess 4 0 1) ∧ r.1.allocationMap 0 ≠ ∅ ∧ r.2.2.2.fragmentation 0 = [⟨2, 2⟩] ∧
          Tidy (s.allocationMatrix 0) (s.elasticOffset 0)) = true := by
    decide +kernel
  obtain ⟨s, hs, hex⟩ := (Option.any_eq_true _ _).1 hex
  obtain ⟨⟨ch, s₁, new, t⟩, hnew, hex⟩ := (Option.any_eq_true _ _).1 hex
  obtain ⟨ha, hne, hfr, htidy⟩ := of_decide_eq_true hex
  obtain ⟨hc, hm⟩ := of_newColumns hnew
  refine ⟨s, ch, s₁, new, t, hs, hc, hm, hfr, ?_⟩
  exact (fragments_exact_iff ((run_iff_execute.2 hs).mono fun _ _ _ h => h.attempt) ha hc hm 0 hne).2 htidy

/-- Four inelastic functions; the third one departs, one of two blocks takes its place and leaves one block,
and the first one departs. -/
def oneBlockLeft : List Op :=
  [.arrive (.singleAccess 1 0 2), .arrive (.singleAccess 2 0 2), .arrive (.singleAccess 3 0 3),
    .arrive (.singleAccess 4 0 2), .depart 3, .arrive (.singleAccess 5 0 2), .depart 1]

/-- **A hole that is not recorded, and one that is recorded with a negative length.**  When the third function
departs after the second the offset is lowered to the hole that the second has left; and a hole of one block is
measured from the end of the hole before it. -/
theorem holes_misrecorded :
    (∃ s ch s₁ new t, Run (Attempt ⟨16, .cost, true, true⟩) (init ⟨16, .cost, true, true⟩)
        (threeAndOneLeaves ++ [.depart 3]) s ∧ Arrival s (.singleAccess 4 0 1) ∧
      computeAllocation ⟨16, .cost, true, true⟩ (.singleAccess 4 0 1) s = .ok (some ch) s₁ ∧
      computeAllocationMatrix ⟨16, .cost, true, true⟩ ch.allocationMap s₁ = .ok new t ∧
      ch.allocationMap 0 ≠ ∅ ∧ MaximalFreeRun (new 0) (t.elasticOffset 0) 2 2 ∧ t.fragmentation 0 = [] ∧
      ¬FragmentsExact (new 0) (t.elasticOffset 0) (t.fragmentation 0)) ∧
    ∃ s ch s₁ new t, Run (Attempt ⟨16, .cost, true, true⟩) (init ⟨16, .cost, true, true⟩) oneBlockLeft s ∧
      Arrival s (.singleAccess 6 0 1) ∧
      computeAllocation ⟨16, .cost, true, true⟩ (.singleAccess 6 0 1) s = .ok (some ch) s₁ ∧
      computeAllocationMatrix ⟨16, .cost, true, true⟩ ch.allocationMap s₁ = .ok new t ∧
      ch.allocationMap 0 ≠ ∅ ∧ t.fragmentation 0 = [⟨0, 2⟩, ⟨6, -4⟩] ∧
      ¬FragmentsExact (new 0) (t.elasticOffset 0) (t.fragmentation 0) := by
  constructor
  · have hex : (execute ⟨16, .cost, true, true⟩ (threeAndOneLeaves ++ [.depart 3])
        (init ⟨16, .cost, true, true⟩)).any (fun s =>
        (newColumns ⟨16, .cost, true, true⟩ s (.singleAccess 4 0 1)).any fun r =>
          Arrival s (.singleAccess 4 0 1) ∧ r.1.allocationMap 0 ≠ ∅ ∧
            MaximalFreeRun (r.2.2.1 0) (r.2.2.2.elasticOffset 0) 2 2 ∧ r.2.2.2.fragmentation 0 = []) = true := by
      decide +kernel
    obtain ⟨s, hs, hex⟩ := (Option.any_eq_true _ _).1 hex
    obtain ⟨⟨ch, s₁, new, t⟩, hnew, hex⟩ := (Option.any_eq_true _ _).1 hex
    obtain ⟨ha, hne, hrun, hfr⟩ := of_decide_eq_true hex
    obtain ⟨hc, hm⟩ := of_newColumns hnew
    refine ⟨s, ch, s₁, new, t, (run_iff_execute.2 hs).mono fun _ _ _ h => h.attempt, ha, hc, hm, hne, hrun, hfr,
      fun h => ?_⟩
    have hmem := (h.listed.mem_iff ⟨2, 2⟩).2 ⟨2, rfl, hrun⟩
    rw [hfr] at hmem
    exact absurd hmem List.not_mem_nil
  · have hex : (execute ⟨16, .cost, true, true⟩ oneBlockLeft (init ⟨16, .cost, true, true⟩)).any (fun s =>
        (newColumns ⟨16, .cost, true, true⟩ s (.singleAccess 6 0 1)).any fun r =>
          Arrival s (.singleAccess 6 0 1) ∧ r.1.allocationMap 0 ≠ ∅ ∧
            r.2.2.2.fragmentation 0 = [⟨0, 2⟩, ⟨6, -4⟩]) = true := by
      decide +kernel
    obtain ⟨s, hs, hex⟩ := (Option.any_eq_true _ _).1 hex
    obtain ⟨⟨ch, s₁, new, t⟩, hnew, hex⟩ := (Option.any_eq_true _ _).1 hex
    obtain ⟨ha, hne, hfr⟩ := of_decide_eq_true hex
    obtain ⟨hc, hm⟩ := of_newColumns hnew
    refine ⟨s, ch, s₁, new, t, (run_iff_execute.2 hs).mono fun _ _ _ h => h.attempt, ha, hc, hm, hne, hfr,
      fun h => ?_⟩
    have hpos := h.pos ⟨6, -4⟩ (by rw [hfr]; exact List.mem_cons_of_mem _ List.mem_cons_self)
    exact absurd hpos (by decide)

end Samples

end Allocator

end ActiveRmt
