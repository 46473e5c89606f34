/-
**Columns of memory blocks and the runs in them.**

A region of memory is divided into equal blocks, each of which is free or has one owner.  A
*column* is the list of the owners, `0` standing for a free block.  The operations here are those
of any block allocator that hands out consecutive blocks: write a range of blocks, release all the
blocks of an owner, cut the blocks from an offset on into consecutive shares, and deal a number of
blocks out to owners in rounds.

Main definitions:

* `Blocks.owner`, `Blocks.writeRange`, `Blocks.release` — reading and writing a column;
* `Blocks.blocksOf`, `Blocks.tenants` — the blocks of an owner, and the owners;
* `Blocks.Owns`, `Blocks.FreeRun`, `Blocks.MaximalFreeRun` — an owner holds exactly a run of
  consecutive blocks; a run of free blocks, and one that cannot be extended below an offset;
* `Blocks.writeRuns`, `Blocks.dealRound`, `Blocks.deal` — consecutive shares, and dealing in
  rounds.

Main results:

* `Blocks.owner_writeRange`, `Blocks.owner_release` — what a write changes;
* `Blocks.exists_maximalFreeRun_iff` — there is room for `d` consecutive blocks below an offset
  exactly when a maximal free run has length at least `d`;
* `Blocks.sum_le_of_owns` — owners of disjoint runs and a free run fit below an offset together;
* `Blocks.deal_sum`, `Blocks.deal_pos` — dealing hands everything out, and a block to everyone;
* `Blocks.owns_writeRuns` — each share is a run, and the shares fill the blocks they are cut from.
-/

import Mathlib

set_option relaxedAutoImplicit false
set_option autoImplicit false

namespace Blocks

/-! ### Reading and writing a column -/

/-- The owner of block `j`, `0` when the block is free or does not exist. -/
def owner (c : List ℕ) (j : ℕ) : ℕ := c.getD j 0

/-- Writing `f` into the `l` blocks from `a` on. -/
def writeRange (c : List ℕ) (a l f : ℕ) : List ℕ :=
  c.mapIdx fun j x => if a ≤ j ∧ j < a + l then f else x

/-- Freeing all blocks of `f`. -/
def release (c : List ℕ) (f : ℕ) : List ℕ := c.map fun x => if x = f then 0 else x

/-- The blocks of `f`, in increasing order. -/
def blocksOf (c : List ℕ) (f : ℕ) : List ℕ := (List.range c.length).filter fun j => owner c j = f

/-- The owners of a column. -/
def tenants (c : List ℕ) : Finset ℕ := c.toFinset.erase 0

theorem owner_of_length_le {c : List ℕ} {j : ℕ} (h : c.length ≤ j) : owner c j = 0 := by
  simp [owner, h]

theorem lt_length_of_owner_ne {c : List ℕ} {j : ℕ} (h : owner c j ≠ 0) : j < c.length := by
  by_contra hj
  exact h (owner_of_length_le (by omega))

theorem owner_eq_getElem {col : List ℕ} {j : ℕ} (h : j < col.length) : owner col j = col[j] := by
  simp [owner, h]

/-- Two columns of one length with the same owners are the same. -/
theorem ext_owner {c d : List ℕ} (hl : c.length = d.length) (h : ∀ j, owner c j = owner d j) :
    c = d := by
  refine List.ext_getElem hl ?_
  intro j h₁ h₂
  rw [← owner_eq_getElem h₁, ← owner_eq_getElem h₂, h]

theorem mem_tenants_iff {c : List ℕ} {f : ℕ} : f ∈ tenants c ↔ f ≠ 0 ∧ ∃ j, owner c j = f := by
  rw [tenants, Finset.mem_erase, List.mem_toFinset]
  refine and_congr_right fun hf => ?_
  constructor
  · intro h
    obtain ⟨j, hj, rfl⟩ := List.getElem_of_mem h
    exact ⟨j, owner_eq_getElem hj⟩
  · rintro ⟨j, rfl⟩
    have hj := lt_length_of_owner_ne hf
    rw [owner_eq_getElem hj]
    exact List.getElem_mem hj

theorem mem_blocksOf {c : List ℕ} {f j : ℕ} : j ∈ blocksOf c f ↔ j < c.length ∧ owner c j = f := by
  simp [blocksOf]

@[simp] theorem length_writeRange (c : List ℕ) (a l f : ℕ) :
    (writeRange c a l f).length = c.length := by
  simp [writeRange]

@[simp] theorem length_release (c : List ℕ) (f : ℕ) : (release c f).length = c.length := by
  simp [release]

/-- A write inside the column changes the owner of the blocks it covers and of no other. -/
theorem owner_writeRange {c : List ℕ} {a l f : ℕ} (h : a + l ≤ c.length) (j : ℕ) :
    owner (writeRange c a l f) j = if a ≤ j ∧ j < a + l then f else owner c j := by
  by_cases hj : j < c.length
  · rw [owner_eq_getElem (by simpa using hj), owner_eq_getElem hj]
    simp [writeRange]
  · rw [owner_of_length_le (by simpa using hj), owner_of_length_le (by omega), if_neg (by omega)]

@[simp] theorem owner_release (c : List ℕ) (f j : ℕ) :
    owner (release c f) j = if owner c j = f then 0 else owner c j := by
  by_cases hj : j < c.length
  · rw [owner_eq_getElem (by simpa using hj), owner_eq_getElem hj]
    simp [release]
  · rw [owner_of_length_le (by simpa using hj), owner_of_length_le (by omega)]
    simp

theorem owner_replicate (n j : ℕ) : owner (List.replicate n 0) j = 0 := by
  simp [owner]

theorem tenants_release (c : List ℕ) (f : ℕ) : tenants (release c f) = (tenants c).erase f := by
  ext g
  simp only [Finset.mem_erase, mem_tenants_iff, owner_release]
  constructor
  · rintro ⟨hg, j, hj⟩
    by_cases hjf : owner c j = f
    · rw [if_pos hjf] at hj
      exact absurd hj.symm hg
    · rw [if_neg hjf] at hj
      exact ⟨fun h => hjf (hj.trans h), hg, j, hj⟩
  · rintro ⟨hgf, hg, j, rfl⟩
    exact ⟨hg, j, by rw [if_neg hgf]⟩

theorem tenants_eq_empty_iff {c : List ℕ} : tenants c = ∅ ↔ ∀ j, owner c j = 0 := by
  constructor
  · intro h j
    by_contra hj
    have : owner c j ∈ tenants c := mem_tenants_iff.2 ⟨hj, j, rfl⟩
    simp [h] at this
  · intro h
    refine Finset.eq_empty_of_forall_notMem fun f hf => ?_
    obtain ⟨hf0, j, rfl⟩ := mem_tenants_iff.1 hf
    exact hf0 (h j)

/-! ### Runs -/

/-- The blocks of `f` are exactly the `l` blocks from `a` on. -/
def Owns (c : List ℕ) (f a l : ℕ) : Prop := ∀ j, owner c j = f ↔ a ≤ j ∧ j < a + l

/-- The `l` blocks from `a` on are free. -/
def FreeRun (c : List ℕ) (a l : ℕ) : Prop := ∀ j, a ≤ j → j < a + l → owner c j = 0

/-- A non-empty free run below the offset `e` that cannot be extended on either side. -/
structure MaximalFreeRun (c : List ℕ) (e a l : ℕ) : Prop where
  /-- It has a block. -/
  pos : 0 < l
  /-- It lies below the offset. -/
  le : a + l ≤ e
  /-- Its blocks are free. -/
  free : FreeRun c a l
  /-- It cannot be extended downwards. -/
  left : a = 0 ∨ owner c (a - 1) ≠ 0
  /-- It cannot be extended upwards. -/
  right : a + l = e ∨ owner c (a + l) ≠ 0

theorem Owns.add_le {c : List ℕ} {f a l : ℕ} (h : Owns c f a l) (hf : f ≠ 0) (hl : 0 < l) :
    a + l ≤ c.length := by
  have hlast : owner c (a + l - 1) = f := (h _).2 ⟨by omega, by omega⟩
  have := lt_length_of_owner_ne (c := c) (j := a + l - 1) (by rw [hlast]; exact hf)
  omega

/-- A run starts and ends where its blocks do. -/
theorem Owns.unique {c : List ℕ} {f a l a' l' : ℕ} (h : Owns c f a l) (h' : Owns c f a' l')
    (hl : 0 < l) : a' = a ∧ l' = l := by
  have h₁ := (h' a).1 ((h a).2 ⟨le_rfl, by omega⟩)
  have h₂ := (h' (a + l - 1)).1 ((h _).2 ⟨by omega, by omega⟩)
  have h₃ := (h a').1 ((h' a').2 ⟨le_rfl, by omega⟩)
  have h₄ := (h (a' + l' - 1)).1 ((h' _).2 ⟨by omega, by omega⟩)
  omega

/-- The listed blocks of a run. -/
theorem Owns.blocksOf_eq {c : List ℕ} {f a l : ℕ} (h : Owns c f a l) (hf : f ≠ 0) :
    blocksOf c f = List.range' a l := by
  refine List.SortedLT.eq_of_mem_iff ?_ ?_ ?_
  · exact ((List.sortedLT_range _).pairwise.filter _).sortedLT
  · exact List.sortedLT_range' a l one_ne_zero
  · intro j
    rw [mem_blocksOf, h j, List.mem_range'_1]
    constructor
    · exact And.right
    · intro hj
      refine ⟨?_, hj⟩
      have := h.add_le hf (by omega)
      omega

/-- A free run below an offset is part of a maximal one. -/
theorem FreeRun.exists_maximal_around {c : List ℕ} {e a d : ℕ} (h : FreeRun c a d) (hd : 0 < d)
    (hle : a + d ≤ e) : ∃ a' l, MaximalFreeRun c e a' l ∧ d ≤ l ∧ a' ≤ a ∧ a + d ≤ a' + l := by
  classical
  -- the lowest start and the highest end of a free run around the given one
  have hex : ∃ s, ∀ j, s ≤ j → j < a + d → owner c j = 0 := ⟨a, h⟩
  have hex' : ∃ t, a + d ≤ t ∧ (t = e ∨ owner c t ≠ 0) := ⟨e, hle, Or.inl rfl⟩
  set s := Nat.find hex with hs
  set t := Nat.find hex' with ht
  have hsa : s ≤ a := Nat.find_min' hex h
  have hsfree : ∀ j, s ≤ j → j < a + d → owner c j = 0 := Nat.find_spec hex
  obtain ⟨hat, hte⟩ := Nat.find_spec hex'
  have htle : t ≤ e := Nat.find_min' hex' ⟨hle, Or.inl rfl⟩
  have hmid : ∀ j, a + d ≤ j → j < t → owner c j = 0 := by
    intro j hj hjt
    by_contra hne
    exact Nat.find_min hex' hjt ⟨hj, Or.inr hne⟩
  refine ⟨s, t - s, ⟨by omega, by omega, ?_, ?_, ?_⟩, by omega, hsa, by omega⟩
  · intro j hj hjt
    rcases Nat.lt_or_ge j (a + d) with hlt | hge
    · exact hsfree j hj hlt
    · exact hmid j hge (by omega)
  · rcases Nat.eq_zero_or_pos s with h0 | hpos
    · exact Or.inl h0
    · right
      intro hfree
      refine Nat.find_min hex (m := s - 1) (by omega) ?_
      intro j hj hjad
      rcases Nat.lt_or_ge j s with hlt | hge
      · have : j = s - 1 := by omega
        rw [this, hfree]
      · exact hsfree j hge hjad
  · have hst : s + (t - s) = t := by omega
    rw [hst]
    exact hte

theorem FreeRun.exists_maximal {c : List ℕ} {e a d : ℕ} (h : FreeRun c a d) (hd : 0 < d)
    (hle : a + d ≤ e) : ∃ a' l, MaximalFreeRun c e a' l ∧ d ≤ l := by
  obtain ⟨a', l, hmax, hdl, -, -⟩ := h.exists_maximal_around hd hle
  exact ⟨a', l, hmax, hdl⟩

/-- **There is room for `d` consecutive blocks below the offset exactly when a maximal free run is
that long.** -/
theorem exists_maximalFreeRun_iff {c : List ℕ} {e d : ℕ} (hd : 0 < d) :
    (∃ a l, MaximalFreeRun c e a l ∧ d ≤ l) ↔ ∃ a, a + d ≤ e ∧ FreeRun c a d := by
  constructor
  · rintro ⟨a, l, h, hdl⟩
    have := h.le
    exact ⟨a, by omega, fun j hj hjd => h.free j hj (by omega)⟩
  · rintro ⟨a, hle, h⟩
    exact h.exists_maximal hd hle

/-- **Owners of runs below an offset fit there together with a free run**: their lengths add up to
at most the offset. -/
theorem sum_le_of_owns {c : List ℕ} {e a d : ℕ} (T : Finset ℕ) (len : ℕ → ℕ)
    (hT : ∀ f ∈ T, f ≠ 0 ∧ ∃ s, s + len f ≤ e ∧ Owns c f s (len f))
    (hfree : FreeRun c a d) (had : a + d ≤ e) : ∑ f ∈ T, len f + d ≤ e := by
  -- the blocks of the owners and the free blocks are disjoint sets of blocks below the offset
  have hcard : ∀ f ∈ T, ((Finset.range e).filter fun j => owner c j = f).card = len f := by
    intro f hf
    obtain ⟨-, s, hs, how⟩ := hT f hf
    have : ((Finset.range e).filter fun j => owner c j = f) = Finset.Ico s (s + len f) := by
      ext j
      rw [Finset.mem_filter, Finset.mem_range, Finset.mem_Ico, how j]
      constructor
      · exact And.right
      · intro hj
        exact ⟨by omega, hj⟩
    rw [this, Nat.card_Ico]
    omega
  have hdisj : (T : Set ℕ).PairwiseDisjoint
      fun f => (Finset.range e).filter fun j => owner c j = f := by
    intro f _ g _ hfg
    rw [Function.onFun, Finset.disjoint_left]
    intro j hj hj'
    exact hfg ((Finset.mem_filter.1 hj).2.symm.trans (Finset.mem_filter.1 hj').2)
  have hsum : ∑ f ∈ T, len f
      = (T.biUnion fun f => (Finset.range e).filter fun j => owner c j = f).card := by
    rw [Finset.card_biUnion hdisj]
    exact Finset.sum_congr rfl fun f hf => (hcard f hf).symm
  have hd : d = (Finset.Ico a (a + d)).card := by rw [Nat.card_Ico]; omega
  have hfd : Disjoint (T.biUnion fun f => (Finset.range e).filter fun j => owner c j = f)
      (Finset.Ico a (a + d)) := by
    rw [Finset.disjoint_left]
    intro j hj hja
    obtain ⟨f, hf, hjf⟩ := Finset.mem_biUnion.1 hj
    obtain ⟨h₁, h₂⟩ := Finset.mem_Ico.1 hja
    exact (hT f hf).1 ((Finset.mem_filter.1 hjf).2.symm.trans (hfree j h₁ h₂))
  calc ∑ f ∈ T, len f + d
      = ((T.biUnion fun f => (Finset.range e).filter fun j => owner c j = f)
          ∪ Finset.Ico a (a + d)).card := by rw [Finset.card_union_of_disjoint hfd, hsum, ← hd]
    _ ≤ (Finset.range e).card := by
        refine Finset.card_le_card (Finset.union_subset ?_ ?_)
        · exact Finset.biUnion_subset.2 fun f _ => Finset.filter_subset _ _
        · intro j hj
          rw [Finset.mem_Ico] at hj
          exact Finset.mem_range.2 (by omega)
    _ = e := Finset.card_range e

/-! ### Dealing blocks out in rounds -/

/-- One round: everybody gets one more block, until `r` blocks are dealt. -/
def dealRound : ℕ → List (ℕ × ℕ) → List (ℕ × ℕ)
  | _, [] => []
  | 0, l => l
  | r + 1, p :: l => (p.1, p.2 + 1) :: dealRound r l

/-- Rounds until `r` blocks are dealt; `fuel` bounds the number of rounds. -/
def deal : ℕ → ℕ → List (ℕ × ℕ) → List (ℕ × ℕ)
  | 0, _, l => l
  | fuel + 1, r, l => if r = 0 then l else deal fuel (r - l.length) (dealRound r l)

/-- The number of blocks in a list of shares. -/
def total (l : List (ℕ × ℕ)) : ℕ := (l.map Prod.snd).sum

@[simp] theorem total_nil : total [] = 0 := rfl

@[simp] theorem total_cons (p : ℕ × ℕ) (l : List (ℕ × ℕ)) : total (p :: l) = p.2 + total l := by
  simp [total]

@[simp] theorem map_fst_dealRound (r : ℕ) (l : List (ℕ × ℕ)) :
    (dealRound r l).map Prod.fst = l.map Prod.fst := by
  induction l generalizing r with
  | nil => cases r <;> rfl
  | cons p l ih =>
      cases r with
      | zero => rfl
      | succ r => simp [dealRound, ih]

@[simp] theorem length_dealRound (r : ℕ) (l : List (ℕ × ℕ)) :
    (dealRound r l).length = l.length := by
  have := congrArg List.length (map_fst_dealRound r l)
  simpa only [List.length_map] using this

theorem total_dealRound (r : ℕ) (l : List (ℕ × ℕ)) :
    total (dealRound r l) = total l + min r l.length := by
  induction l generalizing r with
  | nil => cases r <;> simp [dealRound]
  | cons p l ih =>
      cases r with
      | zero => simp [dealRound]
      | succ r =>
          simp only [dealRound, total_cons, ih, List.length_cons]
          omega

@[simp] theorem map_fst_deal (fuel r : ℕ) (l : List (ℕ × ℕ)) :
    (deal fuel r l).map Prod.fst = l.map Prod.fst := by
  induction fuel generalizing r l with
  | zero => rfl
  | succ fuel ih =>
      rw [deal]
      split_ifs
      · rfl
      · rw [ih, map_fst_dealRound]

/-- **Dealing hands everything out**, as long as somebody takes part. -/
theorem deal_sum {fuel r : ℕ} {l : List (ℕ × ℕ)} (hl : l ≠ []) (hf : r ≤ fuel) :
    total (deal fuel r l) = total l + r := by
  induction fuel generalizing r l with
  | zero =>
      have : r = 0 := by omega
      simp [deal, this]
  | succ fuel ih =>
      have hpos : 0 < l.length := List.length_pos_of_ne_nil hl
      have hne : dealRound r l ≠ [] := by
        rw [← List.length_pos_iff_ne_nil, length_dealRound]
        exact hpos
      rw [deal]
      split_ifs with hr
      · omega
      · rw [ih hne (by omega), total_dealRound]
        omega

theorem le_of_mem_dealRound (r k : ℕ) (l : List (ℕ × ℕ)) (h : ∀ p ∈ l, k ≤ p.2) :
    ∀ p ∈ dealRound r l, k ≤ p.2 := by
  induction l generalizing r with
  | nil => cases r <;> simp [dealRound]
  | cons q l ih =>
      cases r with
      | zero => exact h
      | succ r =>
          intro p hp
          rw [dealRound, List.mem_cons] at hp
          rcases hp with rfl | hp
          · have := h q (List.mem_cons_self ..)
            simp only
            omega
          · exact ih r (fun p hp => h p (List.mem_cons_of_mem _ hp)) p hp

theorem pos_of_mem_dealRound (r : ℕ) (l : List (ℕ × ℕ)) (hr : l.length ≤ r) :
    ∀ p ∈ dealRound r l, 1 ≤ p.2 := by
  induction l generalizing r with
  | nil => cases r <;> simp [dealRound]
  | cons q l ih =>
      cases r with
      | zero => simp at hr
      | succ r =>
          intro p hp
          rw [dealRound, List.mem_cons] at hp
          rcases hp with rfl | hp
          · simp
          · exact ih r (by simpa using hr) p hp

theorem le_of_mem_deal (k fuel : ℕ) (r : ℕ) (l : List (ℕ × ℕ)) (h : ∀ p ∈ l, k ≤ p.2) :
    ∀ p ∈ deal fuel r l, k ≤ p.2 := by
  induction fuel generalizing r l with
  | zero => exact h
  | succ fuel ih =>
      rw [deal]
      split_ifs
      · exact h
      · exact ih _ _ (le_of_mem_dealRound r k l h)

/-- **Everybody gets a block** when there are as many blocks as participants. -/
theorem deal_pos {fuel r : ℕ} {l : List (ℕ × ℕ)} (hl : l ≠ []) (hr : l.length ≤ r)
    (hf : r ≤ fuel) : ∀ p ∈ deal fuel r l, 1 ≤ p.2 := by
  have hpos : 0 < l.length := List.length_pos_of_ne_nil hl
  obtain ⟨k, rfl⟩ : ∃ k, fuel = k + 1 := ⟨fuel - 1, by omega⟩
  rw [deal, if_neg (by omega)]
  exact le_of_mem_deal 1 k _ _ (pos_of_mem_dealRound r l hr)

/-! ### Consecutive shares -/

/-- Writing shares one after the other from the offset `a` on. -/
def writeRuns (c : List ℕ) : ℕ → List (ℕ × ℕ) → List ℕ
  | _, [] => c
  | a, p :: l => writeRuns (writeRange c a p.2 p.1) (a + p.2) l

@[simp] theorem length_writeRuns (c : List ℕ) (a : ℕ) (l : List (ℕ × ℕ)) :
    (writeRuns c a l).length = c.length := by
  induction l generalizing c a with
  | nil => rfl
  | cons p l ih => rw [writeRuns, ih, length_writeRange]

/-- Outside of the blocks the shares are cut from nothing changes. -/
theorem owner_writeRuns_of_not {c : List ℕ} {a : ℕ} {l : List (ℕ × ℕ)}
    (h : a + total l ≤ c.length) {j : ℕ} (hj : ¬(a ≤ j ∧ j < a + total l)) :
    owner (writeRuns c a l) j = owner c j := by
  induction l generalizing c a with
  | nil => rfl
  | cons p l ih =>
      rw [total_cons] at h hj
      rw [writeRuns, ih (by rw [length_writeRange]; omega) (by omega),
        owner_writeRange (by omega), if_neg (by omega)]

/-- Inside of them every block has one of the share holders as its owner. -/
theorem owner_writeRuns_mem {c : List ℕ} {a : ℕ} {l : List (ℕ × ℕ)}
    (h : a + total l ≤ c.length) {j : ℕ} (hj : a ≤ j) (hjl : j < a + total l) :
    owner (writeRuns c a l) j ∈ l.map Prod.fst := by
  induction l generalizing c a with
  | nil => simp at hjl; omega
  | cons p l ih =>
      rw [total_cons] at h hjl
      rw [writeRuns, List.map_cons, List.mem_cons]
      rcases Nat.lt_or_ge j (a + p.2) with hlt | hge
      · left
        rw [owner_writeRuns_of_not (by rw [length_writeRange]; omega) (by omega),
          owner_writeRange (by omega), if_pos ⟨hj, hlt⟩]
      · right
        exact ih (by rw [length_writeRange]; omega) hge (by omega)

/-- **The `k`-th share is a run** behind the shares before it.  The share holders must be distinct and own
nothing before. -/
theorem owns_writeRuns_getElem {c : List ℕ} {a : ℕ} {l : List (ℕ × ℕ)} (h : a + total l ≤ c.length)
    (hn : (l.map Prod.fst).Nodup) (hnew : ∀ p ∈ l, ∀ j, owner c j ≠ p.1) {k : ℕ} {p : ℕ × ℕ}
    (hk : l[k]? = some p) : Owns (writeRuns c a l) p.1 (a + total (l.take k)) p.2 := by
  induction l generalizing c a k with
  | nil => simp at hk
  | cons q l ih =>
      rw [total_cons] at h
      rw [List.map_cons, List.nodup_cons] at hn
      have hlen : a + q.2 + total l ≤ (writeRange c a q.2 q.1).length := by
        rw [length_writeRange]; omega
      cases k with
      | zero =>
          obtain rfl : q = p := by simpa using hk
          intro j
          rw [List.take_zero, total_nil, Nat.add_zero]
          by_cases hj : a + q.2 ≤ j ∧ j < a + q.2 + total l
          · -- a later share: its owner is somebody else
            have hmem := owner_writeRuns_mem hlen hj.1 hj.2
            constructor
            · intro heq
              rw [writeRuns] at heq
              rw [heq] at hmem
              exact absurd hmem hn.1
            · intro hj'
              omega
          · rw [writeRuns, owner_writeRuns_of_not hlen hj, owner_writeRange (by omega)]
            split_ifs with hj'
            · simp [hj']
            · exact ⟨fun heq => absurd heq (hnew q (List.mem_cons_self ..) j), fun h' => absurd h' hj'⟩
      | succ k =>
          have hnew' : ∀ p ∈ l, ∀ j, owner (writeRange c a q.2 q.1) j ≠ p.1 := by
            intro p hp j
            rw [owner_writeRange (by omega)]
            split_ifs
            · intro heq
              exact hn.1 (heq ▸ List.mem_map_of_mem hp)
            · exact hnew p (List.mem_cons_of_mem _ hp) j
          rw [List.take_succ_cons, total_cons, ← Nat.add_assoc]
          exact ih hlen hn.2 hnew' (by simpa using hk)

theorem total_append (l l' : List (ℕ × ℕ)) : total (l ++ l') = total l + total l' := by
  rw [total, List.map_append, List.sum_append, total, total]

/-- A share ends within the blocks that the shares are cut from. -/
theorem total_take_add_le {l : List (ℕ × ℕ)} {k : ℕ} {p : ℕ × ℕ} (hk : l[k]? = some p) :
    total (l.take k) + p.2 ≤ total l := by
  obtain ⟨hlt, rfl⟩ := List.getElem?_eq_some_iff.1 hk
  conv_rhs => rw [← List.take_append_drop k l, List.drop_eq_getElem_cons hlt, total_append, total_cons]
  omega

/-- **Each share is a run.**  The share holders must be distinct and own nothing before. -/
theorem owns_writeRuns {c : List ℕ} {a : ℕ} {l : List (ℕ × ℕ)} (h : a + total l ≤ c.length)
    (hn : (l.map Prod.fst).Nodup) (hnew : ∀ p ∈ l, ∀ j, owner c j ≠ p.1) :
    ∀ p ∈ l, ∃ s, a ≤ s ∧ s + p.2 ≤ a + total l ∧ Owns (writeRuns c a l) p.1 s p.2 := by
  intro p hp
  obtain ⟨k, hk⟩ := List.mem_iff_getElem?.1 hp
  have hle := total_take_add_le hk
  exact ⟨a + total (l.take k), by omega, by omega, owns_writeRuns_getElem h hn hnew hk⟩

/-! ### Fair shares -/

/-- **The fair share** of the `k`-th of `n` parties in `r` blocks: the blocks that are left over go to the
first ones. -/
def fairShare (r n k : ℕ) : ℕ := r / n + if k < r % n then 1 else 0

/-- Where the fair share of the `k`-th party begins. -/
def fairStart (r n k : ℕ) : ℕ := k * (r / n) + min k (r % n)

theorem fairStart_succ (r n k : ℕ) : fairStart r n (k + 1) = fairStart r n k + fairShare r n k := by
  unfold fairStart fairShare
  rw [Nat.succ_mul]
  split_ifs <;> omega

/-- The shares fill the region. -/
theorem fairStart_self {r n : ℕ} (hn : 0 < n) : fairStart r n n = r := by
  have hmod := Nat.mod_lt r hn
  have hdiv := Nat.div_add_mod r n
  rw [fairStart, min_eq_right hmod.le]
  exact hdiv

/-- A round gives a block to the first `r` parties. -/
theorem dealRound_eq (r : ℕ) (l : List (ℕ × ℕ)) (i : ℕ) :
    (dealRound r l)[i]? = l[i]?.map fun p => (p.1, p.2 + if i < r then 1 else 0) := by
  induction l generalizing r i with
  | nil => cases r <;> simp [dealRound]
  | cons p l ih =>
      cases r with
      | zero => simp [dealRound]
      | succ r =>
          cases i with
          | zero => simp [dealRound]
          | succ i => simp [dealRound, ih]

/-- **Dealing in rounds gives fair shares.** -/
theorem deal_eq {fuel r : ℕ} {l : List (ℕ × ℕ)} (hl : l ≠ []) (hf : r ≤ fuel) (i : ℕ) :
    (deal fuel r l)[i]? = l[i]?.map fun p => (p.1, p.2 + fairShare r l.length i) := by
  induction fuel generalizing r l with
  | zero =>
      obtain rfl : r = 0 := by omega
      simp [deal, fairShare]
  | succ fuel ih =>
      have hpos : 0 < l.length := List.length_pos_of_ne_nil hl
      rw [deal]
      split_ifs with hr
      · simp [hr, fairShare]
      · have hne : dealRound r l ≠ [] := by
          rw [← List.length_pos_iff_ne_nil, length_dealRound]
          exact hpos
        rw [ih hne (by omega), dealRound_eq, Option.map_map, length_dealRound]
        cases hi : l[i]? with
        | none => rfl
        | some p =>
            have hil := (List.getElem?_eq_some_iff.1 hi).1
            have hshare : (if i < r then 1 else 0) + fairShare (r - l.length) l.length i =
                fairShare r l.length i := by
              unfold fairShare
              rcases Nat.lt_or_ge r l.length with hlt | hge
              · -- the last round
                have hzero : r - l.length = 0 := by omega
                rw [hzero, Nat.zero_div, Nat.zero_mod, Nat.div_eq_of_lt hlt, Nat.mod_eq_of_lt hlt]
                simp
              · have hdiv : r / l.length = (r - l.length) / l.length + 1 := by
                  rw [Nat.div_eq_sub_div hpos hge]
                rw [if_pos (by omega), hdiv, ← Nat.mod_eq_sub_mod hge]
                omega
            simp only [Option.map_some, Function.comp_apply, Option.some.injEq, Prod.mk.injEq,
              true_and]
            omega

end Blocks
