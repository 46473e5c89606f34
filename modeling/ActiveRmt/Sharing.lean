/-
**Sharing: which accesses of a program meet one stage.**

A placement may put accesses on a stage together only if the program itself does, and has to if it does.
The code groups the accesses of the program by their stages, and keeps a placement if neighbouring
members of each group are on one stage and the number of stages is that of the program.  The first
condition makes the stages of the placement a function of those of the program; by the second, this
function loses none of them.

Main definitions:

* `members` — the accesses of a stage, in program order;
* `SameSharing` — two vectors of positions share stages in the same way.

Main results:

* `card_image_eq_iff` — **a function that does not reduce the number of values is injective on them**;
* `get?_reuses` — the groups that the code builds;
* `kept_iff` — the two conditions together;
* `prune_eq_filter` — **pruning keeps the placements that share stages as the program does**.
-/

import ActiveRmt.ActiveFunction
import Mathlib.Data.Finset.Card
import Mathlib.Logic.Function.Basic

set_option relaxedAutoImplicit false
set_option autoImplicit false

namespace ActiveRmt

/-- **Counting the values** of a function that factors through another: they are as many exactly when
the other factors through it too. -/
theorem card_image_eq_iff {ι α β : Type} [Fintype ι] [DecidableEq α] [DecidableEq β] {f : ι → α}
    {g : ι → β} (h : f.FactorsThrough g) :
    (Finset.univ.image f).card = (Finset.univ.image g).card ↔ g.FactorsThrough f := by
  rcases isEmpty_or_nonempty ι with hempty | ⟨⟨i₀⟩⟩
  · simp [Function.FactorsThrough]
  have : Nonempty α := ⟨f i₀⟩
  obtain ⟨e, rfl⟩ := (Function.factorsThrough_iff f).1 h
  have himage : Finset.univ.image (e ∘ g) = (Finset.univ.image g).image e := by
    rw [Finset.image_image]
  rw [himage, Finset.card_image_iff]
  constructor
  · intro hinj i j hij
    exact hinj (by simp) (by simp) hij
  · intro hback a ha b hb hab
    obtain ⟨i, -, rfl⟩ := Finset.mem_image.1 (Finset.mem_coe.1 ha)
    obtain ⟨j, -, rfl⟩ := Finset.mem_image.1 (Finset.mem_coe.1 hb)
    exact hback hab

namespace ActiveFunction

/-- Positions that are 32-bit words are their own lower bounds. -/
theorem constrLB_eq {accessIdx : List ℕ} (hlt : ∀ a ∈ accessIdx, a < 2 ^ 32) :
    constrLB accessIdx = accessIdx := by
  rw [constrLB]
  conv_rhs => rw [← List.map_id accessIdx]
  exact List.map_congr_left fun a ha => Nat.mod_eq_of_lt (hlt a ha)

/-! ### The groups -/

/-- The accesses at a stage, in program order. -/
def members (orig : List Stage) (s : Stage) : List ℕ :=
  (orig.zipIdx.filter fun p => p.1 = s).map Prod.snd

theorem mem_members {orig : List Stage} {s : Stage} {i : ℕ} :
    i ∈ members orig s ↔ orig[i]? = some s := by
  simp only [members, List.mem_map, List.mem_filter, decide_eq_true_eq, Prod.exists,
    List.mem_zipIdx_iff_getElem?]
  constructor
  · rintro ⟨t, j, ⟨hj, rfl⟩, rfl⟩
    exact hj
  · intro hi
    exact ⟨s, i, ⟨hi, rfl⟩, rfl⟩

/-- The groups after some more accesses: the new ones are behind the old. -/
theorem get?_foldl_reuses (l : List (Stage × ℕ)) (d : Dict Stage (List ℕ)) (s : Stage) :
    (l.foldl (fun d p => d.set p.1 ((d.get? p.1).getD [] ++ [p.2])) d).get? s =
      if (l.filter fun p => p.1 = s) = [] then d.get? s
      else some ((d.get? s).getD [] ++ (l.filter fun p => p.1 = s).map Prod.snd) := by
  induction l generalizing d with
  | nil => rfl
  | cons p l ih =>
      rw [List.foldl_cons, ih, Dict.get?_set]
      by_cases hs : p.1 = s
      · rw [List.filter_cons_of_pos (by simpa using hs), if_pos hs.symm, if_neg (List.cons_ne_nil _ _),
          List.map_cons, hs]
        by_cases hnil : (l.filter fun p => p.1 = s) = []
        · rw [if_pos hnil, hnil, List.map_nil]
        · rw [if_neg hnil, Option.getD_some, List.append_assoc, List.singleton_append]
      · rw [List.filter_cons_of_neg (by simpa using hs), if_neg (Ne.symm hs)]

/-- **The groups of the code.** -/
theorem get?_reuses {orig : List Stage} {s : Stage} {l : List ℕ} :
    (reuses orig).get? s = some l ↔ l = members orig s ∧ l ≠ [] := by
  rw [reuses, get?_foldl_reuses]
  by_cases hnil : (orig.zipIdx.filter fun p => p.1 = s) = []
  · rw [if_pos hnil, Dict.get?_empty, members, hnil]
    simp
  · rw [if_neg hnil, Dict.get?_empty, Option.getD_none, List.nil_append, Option.some.injEq]
    constructor
    · rintro rfl
      exact ⟨rfl, by simpa using hnil⟩
    · rintro ⟨rfl, -⟩
      rfl

/-- There is a group for each stage of the program. -/
theorem keys_reuses (orig : List Stage) : (reuses orig).keys.toFinset = orig.toFinset := by
  ext s
  rw [List.mem_toFinset, List.mem_toFinset, Dict.mem_keys_iff]
  constructor
  · rintro ⟨l, hl⟩
    obtain ⟨rfl, hne⟩ := get?_reuses.1 hl
    obtain ⟨i, hi⟩ := List.exists_mem_of_ne_nil _ hne
    exact List.mem_of_getElem? (mem_members.1 hi)
  · intro hs
    obtain ⟨i, hi⟩ := List.mem_iff_getElem?.1 hs
    exact ⟨_, get?_reuses.2 ⟨rfl, List.ne_nil_of_mem (mem_members.2 hi)⟩⟩

theorem length_keys_reuses (orig : List Stage) :
    (reuses orig).keys.length = orig.toFinset.card := by
  rw [← keys_reuses]
  exact (List.toFinset_card_of_nodup (reuses orig).nodup).symm

/-! ### The conditions -/

/-- Neighbours agree when, and only when, all members do. -/
theorem agree_iff {x : List Stage} {l : List ℕ} :
    agree x l = true ↔ ∀ i ∈ l, ∀ j ∈ l, x[i]? = x[j]? := by
  induction l with
  | nil => simp [agree]
  | cons i l ih =>
      cases l with
      | nil => simp [agree]
      | cons j l =>
          rw [agree, Bool.and_eq_true, beq_iff_eq, ih]
          constructor
          · rintro ⟨hji, hrest⟩
            -- all members agree with the second
            have hall : ∀ k ∈ i :: j :: l, x[k]? = x[j]? := by
              intro k hk
              rcases List.mem_cons.1 hk with rfl | hk
              · exact hji.symm
              · exact hrest k hk j List.mem_cons_self
            exact fun k hk m hm => (hall k hk).trans (hall m hm).symm
          · intro hall
            refine ⟨hall j (by simp) i List.mem_cons_self, fun k hk m hm => ?_⟩
            exact hall k (List.mem_cons_of_mem i hk) m (List.mem_cons_of_mem i hm)

/-- All groups agree: the stages of the placement are a function of those of the program. -/
theorem classes_agree_iff {orig x : List Stage} :
    ((reuses orig).items.filter fun c => 1 < c.2.length).all (fun c => agree x c.2) = true ↔
      ∀ i j : ℕ, i < orig.length → orig[i]? = orig[j]? → x[i]? = x[j]? := by
  simp only [List.all_eq_true, List.mem_filter, decide_eq_true_eq, agree_iff]
  constructor
  · intro h i j hi hij
    rcases eq_or_ne i j with rfl | hne
    · rfl
    have hmem : i ∈ members orig orig[i] := mem_members.2 (List.getElem?_eq_getElem hi)
    have hmem' : j ∈ members orig orig[i] :=
      mem_members.2 (hij.symm.trans (List.getElem?_eq_getElem hi))
    have hlen : 1 < (members orig orig[i]).length := by
      by_contra hle
      obtain ⟨k, hk⟩ := List.length_eq_one_iff.1
        (le_antisymm (Nat.not_lt.1 hle) (List.length_pos_of_mem hmem))
      rw [hk, List.mem_singleton] at hmem hmem'
      exact hne (hmem.trans hmem'.symm)
    have hitem : (orig[i], members orig orig[i]) ∈ (reuses orig).items :=
      (Dict.mem_items_iff _ _ _).2 (get?_reuses.2 ⟨rfl, List.ne_nil_of_mem hmem⟩)
    exact h _ ⟨hitem, hlen⟩ i hmem j hmem'
  · rintro h ⟨s, l⟩ ⟨hitem, -⟩ i hi j hj
    obtain ⟨rfl, -⟩ := get?_reuses.1 ((Dict.mem_items_iff _ _ _).1 hitem)
    have hi' := mem_members.1 hi
    exact h i j (List.getElem?_eq_some_iff.1 hi').1 (hi'.trans (mem_members.1 hj).symm)

/-- Two vectors of positions share stages in the same way. -/
def SameSharing (lb x : List ℕ) : Prop :=
  ∀ i < lb.length, ∀ j < lb.length,
    (x.map stageOf)[i]? = (x.map stageOf)[j]? ↔ (lb.map stageOf)[i]? = (lb.map stageOf)[j]?

instance (lb x : List ℕ) : Decidable (SameSharing lb x) :=
  inferInstanceAs (Decidable (∀ i < lb.length, ∀ j < lb.length, _ ↔ _))

/-- The values of a vector, counted by its indices. -/
theorem card_toFinset_eq {α : Type} [DecidableEq α] {n : ℕ} {l : List α} (hl : l.length = n) :
    l.toFinset.card = (Finset.univ.image fun i : Fin n => l[(i : ℕ)]?).card := by
  rw [← Finset.card_image_of_injective l.toFinset (Option.some_injective α)]
  congr 1
  ext o
  simp only [Finset.mem_image, List.mem_toFinset, Finset.mem_univ, true_and]
  constructor
  · rintro ⟨a, ha, rfl⟩
    obtain ⟨i, hi⟩ := List.mem_iff_getElem?.1 ha
    exact ⟨⟨i, hl ▸ (List.getElem?_eq_some_iff.1 hi).1⟩, hi⟩
  · rintro ⟨i, rfl⟩
    have hi : (i : ℕ) < l.length := by omega
    exact ⟨l[(i : ℕ)], List.getElem_mem hi, (List.getElem?_eq_getElem hi).symm⟩

/-- **The two conditions of the pruning pass say that the sharing is the same.** -/
theorem kept_iff {lb x : List ℕ} (hlen : x.length = lb.length) :
    (decide ((x.map stageOf).toFinset.card = (reuses (lb.map stageOf)).keys.length) &&
      ((reuses (lb.map stageOf)).items.filter fun c => 1 < c.2.length).all
        fun c => agree (x.map stageOf) c.2) = true ↔ SameSharing lb x := by
  rw [Bool.and_eq_true, decide_eq_true_eq, classes_agree_iff, length_keys_reuses,
    card_toFinset_eq ((List.length_map _).trans hlen),
    card_toFinset_eq (l := lb.map stageOf) (List.length_map _), List.length_map]
  constructor
  · rintro ⟨hcard, hagree⟩
    -- the stages of the program are a function of those of the placement, too
    have hback := (card_image_eq_iff fun (i j : Fin lb.length) => hagree i j i.isLt).1 hcard
    exact fun i hi j hj => ⟨fun h => @hback ⟨i, hi⟩ ⟨j, hj⟩ h, hagree i j hi⟩
  · intro hsame
    have hagree : ∀ i j : ℕ, i < lb.length → (lb.map stageOf)[i]? = (lb.map stageOf)[j]? →
        (x.map stageOf)[i]? = (x.map stageOf)[j]? := by
      intro i j hi hij
      have hj : j < lb.length := by
        have hsome : (lb.map stageOf)[j]?.isSome := by
          rw [← hij, List.getElem?_eq_getElem (by rwa [List.length_map])]
          rfl
        simpa using hsome
      exact (hsame i hi j hj).2 hij
    refine ⟨(card_image_eq_iff fun (i j : Fin lb.length) => hagree i j i.isLt).2 fun i j h => ?_,
      hagree⟩
    exact (hsame i i.isLt j j.isLt).1 h

/-- **Pruning is exact.**  Of any candidates with a position for each access, those are kept, in their
order, that share stages as the original positions do. -/
theorem prune_eq_filter {lb : List ℕ} {candidates : List (List ℕ)}
    (hlen : ∀ x ∈ candidates, x.length = lb.length) :
    prune lb candidates = candidates.filter fun x => decide (SameSharing lb x) := by
  refine List.filter_congr fun x hx => ?_
  rw [Bool.eq_iff_iff, decide_eq_true_eq]
  exact kept_iff (hlen x hx)

/-- Accesses at three and fifteen, and a third one that meets the stage of the second again: of four
candidates, the first two are kept. -/
theorem prune_eq_filter_three :
    (∀ x ∈ [[3, 15, 25], [4, 16, 26], [3, 15, 26], [15, 15, 25]], x.length = [3, 15, 25].length) ∧
      prune [3, 15, 25] [[3, 15, 25], [4, 16, 26], [3, 15, 26], [15, 15, 25]] =
        [[3, 15, 25], [4, 16, 26], [3, 15, 26], [15, 15, 25]].filter
          (fun x => decide (SameSharing [3, 15, 25] x)) :=
  ⟨by decide, prune_eq_filter (by decide)⟩

end ActiveFunction

end ActiveRmt
