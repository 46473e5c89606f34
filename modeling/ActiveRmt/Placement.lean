/-
**Placing the functions of one stage.**

`Allocator.placeStage` computes the new column of a stage from its old one.  This module says what
it does on a stage whose geometry is right (`Allocator.StageInv`) when at most one function is new
there: when it succeeds the geometry is right again, inelastic functions have kept their blocks
and every function has its run; and it succeeds exactly when the arrival fits.

Main definitions:

* `Allocator.StageInv` — **the geometry of a stage**: inelastic functions hold runs below the
  offset, as long as their demands, elastic ones hold runs from the offset on, and the recorded
  holes of positive length are free;
* `Allocator.BaseColumn` — the column after the inelastic arrival and before the elastic fill.

Main results:

* `Allocator.placeStage_eq` — the placement, without the assertions that cannot fail;
* `Allocator.placeStage_ok` — what a placement that succeeds has done;
* `Allocator.placeStage_succeeds_iff` — when it succeeds.
-/

import ActiveRmt.HoleScan

set_option relaxedAutoImplicit false
set_option autoImplicit false

namespace ActiveRmt

open Blocks

namespace Allocator

/-! ### The geometry of a stage -/

/-- **The geometry of a stage** with `n` blocks, offset `e` and recorded holes `frags`, whose
functions have the demands `δ`. -/
structure StageInv (n : ℕ) (δ : Fid → ℕ) (col : List ℕ) (e : ℕ) (frags : List Fragment) :
    Prop where
  /-- The column has its `n` blocks. -/
  length_eq : col.length = n
  /-- The offset is inside of the column. -/
  offset_le : e ≤ n
  /-- Every function demands a block. -/
  demand_pos : ∀ f ∈ tenants col, 1 ≤ δ f
  /-- An inelastic function holds a run of its demand's length below the offset. -/
  pinned : ∀ f ∈ tenants col, 1 < δ f → ∃ a, a + δ f ≤ e ∧ Owns col f a (δ f)
  /-- An elastic function holds a run from the offset on. -/
  elastic : ∀ f ∈ tenants col, δ f = 1 → ∃ a l, 0 < l ∧ e ≤ a ∧ Owns col f a l
  /-- A recorded hole of positive length is free and lies below the offset. -/
  hole : ∀ fr ∈ frags, 0 < fr.size →
    fr.start + fr.size.toNat ≤ e ∧ FreeRun col fr.start fr.size.toNat

section Geometry

variable {n e : ℕ} {δ : Fid → ℕ} {col : List ℕ} {frags : List Fragment}

/-- A function with a block below the offset is inelastic. -/
theorem StageInv.one_lt_of_lt (h : StageInv n δ col e frags) {j : ℕ} (hj : j < e)
    (h0 : owner col j ≠ 0) : 1 < δ (owner col j) := by
  have hmem : owner col j ∈ tenants col := mem_tenants_iff.2 ⟨h0, j, rfl⟩
  rcases (h.demand_pos _ hmem).lt_or_eq with hlt | heq
  · exact hlt
  · obtain ⟨a, l, -, hea, how⟩ := h.elastic _ hmem heq.symm
    have := (how j).1 rfl
    omega

/-- A function with a block from the offset on is elastic. -/
theorem StageInv.eq_one_of_le (h : StageInv n δ col e frags) {j : ℕ} (hj : e ≤ j)
    (h0 : owner col j ≠ 0) : δ (owner col j) = 1 := by
  have hmem : owner col j ∈ tenants col := mem_tenants_iff.2 ⟨h0, j, rfl⟩
  rcases (h.demand_pos _ hmem).lt_or_eq with hlt | heq
  · obtain ⟨a, hae, how⟩ := h.pinned _ hmem hlt
    have := (how j).1 rfl
    omega
  · exact heq.symm

/-- Every function of a stage holds a run. -/
theorem StageInv.exists_owns (h : StageInv n δ col e frags) {f : Fid} (hf : f ∈ tenants col) :
    ∃ a l, 0 < l ∧ Owns col f a l := by
  rcases (h.demand_pos f hf).lt_or_eq with hlt | heq
  · obtain ⟨a, -, how⟩ := h.pinned f hf hlt
    exact ⟨a, δ f, by omega, how⟩
  · obtain ⟨a, l, hl, -, how⟩ := h.elastic f hf heq.symm
    exact ⟨a, l, hl, how⟩

/-- An empty stage with any offset. -/
theorem stageInv_replicate (n e : ℕ) (he : e ≤ n) (δ : Fid → ℕ) :
    StageInv n δ (List.replicate n 0) e [] := by
  have hempty : tenants (List.replicate n 0) = ∅ := tenants_eq_empty_iff.2 (owner_replicate n)
  refine ⟨by simp, he, ?_, ?_, ?_, by simp⟩ <;> simp [hempty]

/-- The geometry depends on the demands of the functions of the stage only. -/
theorem StageInv.congr (h : StageInv n δ col e frags) {δ' : Fid → ℕ}
    (hδ : ∀ f ∈ tenants col, δ' f = δ f) : StageInv n δ' col e frags := by
  refine ⟨h.length_eq, h.offset_le, ?_, ?_, ?_, h.hole⟩
  · intro f hf
    rw [hδ f hf]
    exact h.demand_pos f hf
  · intro f hf
    rw [hδ f hf]
    exact h.pinned f hf
  · intro f hf
    rw [hδ f hf]
    exact h.elastic f hf

/-- The elastic functions fit into the blocks from the offset on: each of them has one. -/
theorem StageInv.card_elastic_le (h : StageInv n δ col e frags) {T : Finset Fid}
    (hT : ∀ f ∈ T, f ∈ tenants col ∧ δ f = 1) : e + T.card ≤ n := by
  choose! a l hl hea how using fun f (hf : f ∈ T) => h.elastic f (hT f hf).1 (hT f hf).2
  have hinj : Set.InjOn a T := by
    intro f hf g hg hfg
    have h₁ : owner col (a f) = f := (how f hf _).2 ⟨le_rfl, by have := hl f hf; omega⟩
    have h₂ : owner col (a g) = g := (how g hg _).2 ⟨le_rfl, by have := hl g hg; omega⟩
    rw [← h₁, hfg, h₂]
  have hsub : T.image a ⊆ Finset.Ico e n := by
    intro j hj
    obtain ⟨f, hf, rfl⟩ := Finset.mem_image.1 hj
    have hown : owner col (a f) = f := (how f hf _).2 ⟨le_rfl, by have := hl f hf; omega⟩
    have hf0 : f ≠ 0 := (mem_tenants_iff.1 (hT f hf).1).1
    have hlt := lt_length_of_owner_ne (c := col) (j := a f) (by rw [hown]; exact hf0)
    exact Finset.mem_Ico.2 ⟨hea f hf, by rw [← h.length_eq]; exact hlt⟩
  have hcard := Finset.card_le_card hsub
  rw [Finset.card_image_of_injOn hinj, Nat.card_Ico] at hcard
  have := h.offset_le
  omega

end Geometry

/-! ### The inelastic arrival -/

/-- Elastic functions are skipped. -/
theorem placeInelastic_filter (apps : List (Fid × ℕ)) (col : List ℕ) (st : StageState) :
    placeInelastic apps col st = placeInelastic (apps.filter fun app => 1 < app.2) col st := by
  induction apps generalizing col st with
  | nil => rfl
  | cons app apps ih =>
      by_cases h : 1 < app.2
      · rw [List.filter_cons_of_pos (by simpa using h), placeInelastic, placeInelastic]
        simp only [if_neg (not_le.2 h), ih]
      · rw [List.filter_cons_of_neg (by simpa using h), placeInelastic]
        simp only [if_pos (not_lt.1 h), ih]

theorem owner_copyBelow (e : ℕ) (col : List ℕ) (j : ℕ) :
    owner (copyBelow e col) j = if j < e then owner col j else 0 := by
  by_cases hj : j < col.length
  · rw [owner_eq_getElem (by simpa [copyBelow] using hj), owner_eq_getElem hj]
    simp [copyBelow]
  · rw [owner_of_length_le (by simpa [copyBelow] using hj), owner_of_length_le (by omega)]
    simp

@[simp] theorem length_copyBelow (e : ℕ) (col : List ℕ) : (copyBelow e col).length = col.length := by
  simp [copyBelow]

/-- **The column before the elastic fill**: the old blocks below the offset, and the inelastic
arrivals `arr`, of which there is at most one. -/
structure BaseColumn (n : ℕ) (old : List ℕ) (e : ℕ) (arr : List (Fid × ℕ)) (col : List ℕ)
    (st : StageState) : Prop where
  /-- The column has its `n` blocks. -/
  length_eq : col.length = n
  /-- The offset only grows. -/
  le_offset : e ≤ st.elasticOffset
  /-- The offset stays inside of the column. -/
  offset_le : st.elasticOffset ≤ n
  /-- Occupied blocks below the offset are kept. -/
  kept : ∀ j < e, owner old j ≠ 0 → owner col j = owner old j
  /-- From the new offset on the column is free. -/
  free : ∀ j, st.elasticOffset ≤ j → owner col j = 0
  /-- Only the arrivals are new. -/
  only : ∀ j, owner col j ≠ 0 →
    (j < e ∧ owner col j = owner old j) ∨ owner col j ∈ arr.map Prod.fst
  /-- An arrival holds a run of its demand's length. -/
  arrived : ∀ app ∈ arr, ∃ a, a + app.2 ≤ st.elasticOffset ∧ Owns col app.1 a app.2
  /-- A recorded hole of positive length is free. -/
  hole : ∀ fr ∈ st.fragmentation, 0 < fr.size →
    fr.start + fr.size.toNat ≤ st.elasticOffset ∧ FreeRun col fr.start fr.size.toNat
  /-- If the offset has grown, the block below it belongs to an arrival. -/
  top : st.elasticOffset ≠ e → 0 < st.elasticOffset ∧
    owner col (st.elasticOffset - 1) ∈ arr.map Prod.fst

section Inelastic

variable {n e : ℕ} {δ : Fid → ℕ} {old : List ℕ} {frags frags₀ : List Fragment}

/-- The holes that a scan has recorded are free and lie below the offset. -/
theorem ScanAt.hole_below {col : List ℕ} {sc : Scan} (h : ScanAt col e sc) {fr : Fragment}
    (hfr : fr ∈ sc.fragments) (hpos : 0 < fr.size) :
    fr.start + fr.size.toNat ≤ e ∧ FreeRun col fr.start fr.size.toNat := by
  obtain ⟨hlt, hrun⟩ := h.sound fr hfr hpos
  exact ⟨by omega, hrun.free⟩

theorem freeRun_copyBelow {a l : ℕ} (hal : a + l ≤ e) (h : FreeRun old a l) :
    FreeRun (copyBelow e old) a l := by
  intro j hj hjl
  rw [owner_copyBelow, if_pos (by omega), h j hj hjl]

/-- Without an inelastic arrival the blocks below the offset are copied. -/
theorem baseColumn_nil (hlen : old.length = n) (he : e ≤ n)
    (hfr : ∀ fr ∈ frags, 0 < fr.size →
      fr.start + fr.size.toNat ≤ e ∧ FreeRun old fr.start fr.size.toNat) :
    BaseColumn n old e [] (copyBelow e old) ⟨frags, e⟩ where
  length_eq := by rw [length_copyBelow, hlen]
  le_offset := le_rfl
  offset_le := he
  kept := fun j hj _ => by rw [owner_copyBelow, if_pos hj]
  free := fun j hj => by rw [owner_copyBelow, if_neg (by simpa using hj)]
  only := by
    intro j hj
    rw [owner_copyBelow] at hj ⊢
    split_ifs at hj ⊢ with hje
    · exact Or.inl ⟨hje, rfl⟩
    · exact absurd rfl hj
  arrived := by simp
  hole := fun fr hfr' hpos =>
    ⟨(hfr fr hfr' hpos).1, freeRun_copyBelow (hfr fr hfr' hpos).1 (hfr fr hfr' hpos).2⟩
  top := fun h => absurd rfl h

/-- An inelastic arrival at the offset. -/
theorem baseColumn_offset (hlen : old.length = n) {f d : ℕ} (hd : 0 < d)
    (hnew : ∀ j, owner old j ≠ f) (hf : f ≠ 0) (hfit : e + d ≤ n)
    (hfr : ∀ fr ∈ frags, 0 < fr.size →
      fr.start + fr.size.toNat ≤ e ∧ FreeRun old fr.start fr.size.toNat) :
    BaseColumn n old e [(f, d)] (writeRange (copyBelow e old) e d f) ⟨frags, e + d⟩ := by
  have hown : ∀ j, owner (writeRange (copyBelow e old) e d f) j =
      if e ≤ j ∧ j < e + d then f else if j < e then owner old j else 0 := by
    intro j
    rw [owner_writeRange (by rw [length_copyBelow]; omega), owner_copyBelow]
  refine ⟨by simp [hlen], by simp, by simpa using hfit, ?_, ?_, ?_, ?_, ?_, ?_⟩
  · intro j hj _
    rw [hown, if_neg (by omega), if_pos hj]
  · intro j hj
    simp only at hj
    rw [hown, if_neg (by omega), if_neg (by omega)]
  · intro j hj
    rw [hown] at hj ⊢
    split_ifs at hj ⊢ with h₁ h₂
    · right; simp
    · exact Or.inl ⟨h₂, rfl⟩
    · exact absurd rfl hj
  · intro app happ
    obtain rfl := List.mem_singleton.1 happ
    refine ⟨e, le_rfl, fun j => ?_⟩
    rw [hown]
    split_ifs with h₁ h₂
    · simp [h₁]
    · exact ⟨fun h => absurd h (hnew j), fun h => absurd h h₁⟩
    · exact ⟨fun h => absurd h.symm hf, fun h => absurd h h₁⟩
  · intro fr hfr' hpos
    obtain ⟨hle, hrun⟩ := hfr fr hfr' hpos
    refine ⟨by simp only; omega, fun j hj hjl => ?_⟩
    rw [hown, if_neg (by omega), if_pos (by omega), hrun j hj hjl]
  · intro _
    refine ⟨by simp only; omega, ?_⟩
    simp only
    rw [hown, if_pos (by omega)]
    simp

/-- An inelastic arrival in a hole: the hole shrinks, and the other holes are not touched. -/
theorem baseColumn_hole (hlen : old.length = n) (he : e ≤ n) {f d : ℕ} (hd : 0 < d)
    (hnew : ∀ j, owner old j ≠ f) (hf : f ≠ 0) {sc : Scan} (hsc : ScanAt old e sc)
    {fr : Fragment} {k : ℕ} (hk : sc.fragments[k]? = some fr) (hdfr : (d : ℤ) ≤ fr.size) :
    BaseColumn n old e [(f, d)] (writeRange (copyBelow e old) fr.start d f)
      ⟨if (d : ℤ) = fr.size then sc.fragments.eraseIdx k
        else sc.fragments.set k ⟨fr.start + d, fr.size - d⟩, e⟩ := by
  have hpos : 0 < fr.size := by omega
  have hfr : fr ∈ sc.fragments := List.mem_of_getElem? hk
  obtain ⟨hle, hrun⟩ := hsc.hole_below hfr hpos
  have hown : ∀ j, owner (writeRange (copyBelow e old) fr.start d f) j =
      if fr.start ≤ j ∧ j < fr.start + d then f else if j < e then owner old j else 0 := by
    intro j
    rw [owner_writeRange (by rw [length_copyBelow]; omega), owner_copyBelow]
  -- a hole recorded at another index does not overlap the blocks written
  have hother : ∀ (m : ℕ) (q : Fragment), m ≠ k → sc.fragments[m]? = some q → 0 < q.size →
      q.start + q.size.toNat ≤ e ∧
        FreeRun (writeRange (copyBelow e old) fr.start d f) q.start q.size.toNat := by
    intro m q hmk hm hq
    obtain ⟨hqle, hqrun⟩ := hsc.hole_below (List.mem_of_getElem? hm) hq
    refine ⟨hqle, fun j hj hjl => ?_⟩
    have hord := List.pairwise_iff_getElem.1 hsc.ordered
    obtain ⟨hklt, hkeq⟩ := List.getElem?_eq_some_iff.1 hk
    obtain ⟨hmlt, hmeq⟩ := List.getElem?_eq_some_iff.1 hm
    rw [hown, if_neg, if_pos (by omega), hqrun j hj hjl]
    rintro ⟨h₁, h₂⟩
    rcases Nat.lt_or_gt_of_ne hmk with hlt | hgt
    · have := hord m k hmlt hklt hlt (by rw [hmeq]; exact hq) (by rw [hkeq]; exact hpos)
      rw [hmeq, hkeq] at this
      omega
    · have := hord k m hklt hmlt hgt (by rw [hkeq]; exact hpos) (by rw [hmeq]; exact hq)
      rw [hmeq, hkeq] at this
      omega
  refine ⟨by simp [hlen], le_rfl, he, ?_, ?_, ?_, ?_, ?_, fun h => absurd rfl h⟩
  · intro j hj h0
    rw [hown, if_neg, if_pos hj]
    rintro ⟨h₁, h₂⟩
    exact h0 (hrun j h₁ (by omega))
  · intro j hj
    simp only at hj
    rw [hown, if_neg (by omega), if_neg (by omega)]
  · intro j hj
    rw [hown] at hj ⊢
    split_ifs at hj ⊢ with h₁ h₂
    · right; simp
    · exact Or.inl ⟨h₂, rfl⟩
    · exact absurd rfl hj
  · intro app happ
    obtain rfl := List.mem_singleton.1 happ
    refine ⟨fr.start, by simp only; omega, fun j => ?_⟩
    rw [hown]
    split_ifs with h₁ h₂
    · simp [h₁]
    · exact ⟨fun h => absurd h (hnew j), fun h => absurd h h₁⟩
    · exact ⟨fun h => absurd h.symm hf, fun h => absurd h h₁⟩
  · intro q hq hqpos
    simp only at hq ⊢
    split_ifs at hq with hsize
    · obtain ⟨m, hmk, hm⟩ := List.mem_eraseIdx_iff_getElem?.1 hq
      exact hother m q hmk hm hqpos
    · obtain ⟨m, hm⟩ := List.getElem?_of_mem hq
      rw [List.getElem?_set] at hm
      split_ifs at hm with hkm hlt
      · -- what is left of the hole
        obtain rfl := Option.some.inj hm
        simp only at hqpos ⊢
        refine ⟨by omega, fun j hj hjl => ?_⟩
        rw [hown, if_neg (by omega), if_pos (by omega), hrun j (by omega) (by omega)]
      · exact hother m q (Ne.symm hkm) hm hqpos

/-- **Where the inelastic arrivals go**, when there is at most one of them. -/
theorem placeInelastic_ok (hlen : old.length = n) (he : e ≤ n) {sc : Scan}
    (hsc : ScanAt old e sc) {arr : List (Fid × ℕ)} (harr : arr.length ≤ 1)
    (hnew : ∀ app ∈ arr, app.1 ≠ 0 ∧ 1 < app.2 ∧ ∀ j, owner old j ≠ app.1)
    {col : List ℕ} {st : StageState}
    (h : placeInelastic arr (copyBelow e old) ⟨sc.fragments, e⟩ = .ok col st) :
    BaseColumn n old e arr col st := by
  match arr, harr with
  | [], _ =>
      simp only [placeInelastic, EStateM.Result.ok.injEq] at h
      obtain ⟨rfl, rfl⟩ := h
      exact baseColumn_nil hlen he fun fr hfr hpos => hsc.hole_below hfr hpos
  | [(f, d)], _ =>
      obtain ⟨hf, hd, hnf⟩ := hnew (f, d) (List.mem_cons_self ..)
      simp only at hf hd hnf
      simp only [placeInelastic, if_neg (not_le.2 hd)] at h
      cases hb : bestHole d sc.fragments with
      | none =>
          rw [hb] at h
          simp only [length_copyBelow, hlen] at h
          split_ifs at h with hfit
          simp only [EStateM.Result.ok.injEq] at h
          obtain ⟨rfl, rfl⟩ := h
          exact baseColumn_offset hlen (by omega) hnf hf (by omega)
            fun fr hfr hpos => hsc.hole_below hfr hpos
      | some b =>
          obtain ⟨fr, k⟩ := b
          obtain ⟨hk, hdfr⟩ := bestHole_some hb
          rw [hb] at h
          simp only [length_copyBelow, hlen] at h
          split_ifs at h with hfit
          all_goals
            simp only [EStateM.Result.ok.injEq] at h
            obtain ⟨rfl, rfl⟩ := h
          · simpa only [if_pos ‹(d : ℤ) = fr.size›] using
              baseColumn_hole hlen he (by omega) hnf hf hsc hk hdfr
          · simpa only [if_neg ‹¬(d : ℤ) = fr.size›] using
              baseColumn_hole hlen he (by omega) hnf hf hsc hk hdfr

end Inelastic

/-! ### The elastic fill -/

/-- Shares that fit are all packed. -/
theorem pack_eq {l : List (Fid × ℕ)} {size : ℕ} (hpos : ∀ p ∈ l, 1 ≤ p.2) (h : total l ≤ size) :
    pack size l = (l, size - total l, []) := by
  induction l generalizing size with
  | nil => simp [pack]
  | cons p l ih =>
      rw [total_cons] at h
      have hp := hpos p (List.mem_cons_self ..)
      rw [pack, if_pos (by omega), ih (fun q hq => hpos q (List.mem_cons_of_mem _ hq)) (by omega)]
      simp only [total_cons, Prod.mk.injEq, and_true, true_and]
      omega

/-- The shares of the elastic functions `E` in `r` blocks. -/
def sharesOf (r : ℕ) (E : List Fid) : List (Fid × ℕ) := deal r r (E.map fun f => (f, 0))

section Shares

variable {r : ℕ} {E : List Fid}

@[simp] theorem map_fst_sharesOf (r : ℕ) (E : List Fid) : (sharesOf r E).map Prod.fst = E := by
  rw [sharesOf, map_fst_deal, List.map_map]
  exact List.map_id _

theorem length_sharesOf (r : ℕ) (E : List Fid) : (sharesOf r E).length = E.length := by
  have := congrArg List.length (map_fst_sharesOf r E)
  rwa [List.length_map] at this

theorem total_sharesOf (hE : E ≠ []) : total (sharesOf r E) = r := by
  have h0 : total (E.map fun f => (f, 0)) = 0 := by
    induction E with
    | nil => rfl
    | cons f E ih =>
        cases E with
        | nil => rfl
        | cons g E => simpa using ih (by simp)
  rw [sharesOf, deal_sum (by simpa using hE) le_rfl, h0, Nat.zero_add]

theorem sharesOf_pos (hE : E ≠ []) (hr : E.length ≤ r) : ∀ p ∈ sharesOf r E, 1 ≤ p.2 :=
  deal_pos (by simpa using hE) (by simpa using hr) le_rfl

end Shares

/-- The blocks from the offset on cut into the shares of the elastic functions `E`. -/
def fillRuns (e : ℕ) (E : List Fid) (col : List ℕ) : Except Exn (List ℕ) :=
  if E = [] then .ok col
  else if col.length < e + E.length then .error .assertionError
  else .ok (writeRuns col e (sharesOf (col.length - e) E))

/-- **The elastic fill** cuts the blocks from the offset on into shares; its second packing pass
has nothing to do. -/
theorem fillElastic_eq {e : ℕ} {apps : List (Fid × ℕ)} {col : List ℕ} {E : List Fid}
    (hE : (apps.filter fun app => app.2 ≤ 1).map Prod.fst = E) :
    fillElastic e E.length apps col = fillRuns e E col := by
  unfold fillRuns
  by_cases hnil : E = []
  · simp [fillElastic, hnil]
  have hlen : E.length ≠ 0 := by simpa using hnil
  rw [fillElastic, if_neg hlen, if_neg hnil]
  by_cases hfit : col.length < e + E.length
  · simp only [if_pos hfit]
  have happs : (apps.filter fun app => app.2 ≤ 1).map (fun app => (app.1, 0))
      = E.map fun f => (f, 0) := by
    rw [← hE, List.map_map]
    rfl
  have hpos := sharesOf_pos (r := col.length - e) hnil (by omega)
  have htot := total_sharesOf (r := col.length - e) hnil
  have htake : (sharesOf (col.length - e) E).take E.length = sharesOf (col.length - e) E :=
    List.take_of_length_le (length_sharesOf _ _).le
  have hpack := pack_eq hpos htot.le
  simp only [if_neg hfit, happs]
  rw [sharesOf] at htake hpack htot
  rw [htake, hpack, htot, sharesOf]
  have hsub : col.length - e - (col.length - e) = 0 := Nat.sub_self _
  simp only [hsub, lt_irrefl, if_false, List.length_nil, List.take_zero, List.map_nil,
    List.append_nil, htot]
  rw [if_neg (by omega)]

section Fill

variable {n e : ℕ} {δ : Fid → ℕ} {old col : List ℕ} {arr : List (Fid × ℕ)} {st : StageState}
  {frags : List Fragment}

/-- The functions of the column before the elastic fill: the inelastic ones of the old column, and
the inelastic arrival. -/
theorem BaseColumn.mem_tenants_iff (hb : BaseColumn n old e arr col st)
    (hinv : StageInv n δ old e frags) (harr : ∀ app ∈ arr, app.1 ≠ 0 ∧ 1 < app.2) {f : Fid} :
    f ∈ tenants col ↔ (f ∈ tenants old ∧ 1 < δ f) ∨ f ∈ arr.map Prod.fst := by
  constructor
  · intro hf
    obtain ⟨h0, j, rfl⟩ := Blocks.mem_tenants_iff.1 hf
    rcases hb.only j h0 with ⟨hj, heq⟩ | hmem
    · rw [heq] at h0 ⊢
      exact Or.inl ⟨Blocks.mem_tenants_iff.2 ⟨h0, j, rfl⟩, hinv.one_lt_of_lt hj h0⟩
    · exact Or.inr hmem
  · rintro (⟨hf, hδ⟩ | hf)
    · obtain ⟨a, hae, how⟩ := hinv.pinned f hf hδ
      have hfa : owner old a = f := (how a).2 ⟨le_rfl, by omega⟩
      have h0 := (Blocks.mem_tenants_iff.1 hf).1
      refine Blocks.mem_tenants_iff.2 ⟨h0, a, ?_⟩
      rw [hb.kept a (by omega) (by rw [hfa]; exact h0), hfa]
    · obtain ⟨app, happ, rfl⟩ := List.mem_map.1 hf
      obtain ⟨a, -, how⟩ := hb.arrived app happ
      have := harr app happ
      exact Blocks.mem_tenants_iff.2 ⟨this.1, a, (how a).2 ⟨le_rfl, by omega⟩⟩

/-- An inelastic function of the old column keeps exactly its blocks. -/
theorem BaseColumn.owner_eq_iff (hb : BaseColumn n old e arr col st)
    (hinv : StageInv n δ old e frags) (hnew : ∀ app ∈ arr, app.1 ∉ tenants old) {f : Fid}
    (hf : f ∈ tenants old) (hδ : 1 < δ f) (j : ℕ) : owner col j = f ↔ owner old j = f := by
  have h0 := (Blocks.mem_tenants_iff.1 hf).1
  constructor
  · rintro rfl
    rcases hb.only j h0 with ⟨-, heq⟩ | hmem
    · exact heq.symm
    · obtain ⟨app, happ, heq⟩ := List.mem_map.1 hmem
      exact absurd (heq ▸ hf) (hnew app happ)
  · intro hj
    obtain ⟨a, hae, how⟩ := hinv.pinned f hf hδ
    have := (how j).1 hj
    rw [hb.kept j (by omega) (by rw [hj]; exact h0), hj]

/-- **The final column of a stage**, from the column before the elastic fill. -/
structure FinalColumn (δ : Fid → ℕ) (base : List ℕ) (e : ℕ) (E : List Fid) (col : List ℕ) :
    Prop where
  /-- Nothing changes below the offset. -/
  below : ∀ j < e, owner col j = owner base j
  /-- From the offset on there are elastic functions only. -/
  above : ∀ j, e ≤ j → owner col j = 0 ∨ owner col j ∈ E
  /-- Each of them holds a run there. -/
  runs : ∀ f ∈ E, ∃ a l, 0 < l ∧ e ≤ a ∧ Owns col f a l
  /-- The column has its length. -/
  length_eq : col.length = base.length

theorem finalColumn_of_fill {E : List Fid} {col' : List ℕ} (hfree : ∀ j, e ≤ j → owner col j = 0)
    (hnew : ∀ f ∈ E, f ≠ 0 ∧ ∀ j, owner col j ≠ f) (hn : E.Nodup) (he : e ≤ col.length)
    (h : fillRuns e E col = .ok col') : FinalColumn δ col e E col' := by
  unfold fillRuns at h
  split_ifs at h with hnil hfit
  · obtain rfl := Except.ok.inj h
    refine ⟨fun _ _ => rfl, fun j hj => Or.inl (hfree j hj), ?_, rfl⟩
    simp [hnil]
  · obtain rfl := Except.ok.inj h
    have htot := total_sharesOf (r := col.length - e) hnil
    have hle : e + total (sharesOf (col.length - e) E) ≤ col.length := by omega
    have hkeys := map_fst_sharesOf (col.length - e) E
    refine ⟨?_, ?_, ?_, by simp⟩
    · intro j hj
      exact owner_writeRuns_of_not hle (by omega)
    · intro j hj
      rcases Nat.lt_or_ge j col.length with hlt | hge
      · right
        have := owner_writeRuns_mem hle hj (by omega)
        rwa [hkeys] at this
      · left
        exact owner_of_length_le (by simpa using hge)
    · intro f hf
      rw [← hkeys] at hf
      obtain ⟨p, hp, rfl⟩ := List.mem_map.1 hf
      have hpE : ∀ q ∈ sharesOf (col.length - e) E, ∀ j, owner col j ≠ q.1 := by
        intro q hq
        refine (hnew q.1 ?_).2
        rw [← hkeys]
        exact List.mem_map_of_mem hq
      obtain ⟨s, hs, -, how⟩ := owns_writeRuns hle (by rwa [hkeys]) hpE p hp
      exact ⟨s, p.2, sharesOf_pos hnil (by omega) p hp, hs, how⟩

/-- The blocks of the other functions stay. -/
theorem FinalColumn.owner_eq_iff {E : List Fid} {base : List ℕ} {e f : ℕ} (h : FinalColumn δ base e E col)
    (hfree : ∀ j, e ≤ j → owner base j = 0) (hf : f ≠ 0) (hE : f ∉ E) (j : ℕ) :
    owner col j = f ↔ owner base j = f := by
  rcases Nat.lt_or_ge j e with hlt | hge
  · rw [h.below j hlt]
  · rw [hfree j hge]
    rcases h.above j hge with h0 | hmem
    · rw [h0]
    · refine iff_of_false ?_ hf.symm
      rintro rfl
      exact hE hmem

/-- The functions of the column are joined by those that it is filled with. -/
theorem FinalColumn.mem_tenants_iff {E : List Fid} {base : List ℕ} {e f : ℕ} (h : FinalColumn δ base e E col)
    (hfree : ∀ j, e ≤ j → owner base j = 0) (hE : ∀ f ∈ E, f ≠ 0) :
    f ∈ tenants col ↔ f ∈ tenants base ∨ f ∈ E := by
  constructor
  · intro hf
    obtain ⟨h0, j, rfl⟩ := Blocks.mem_tenants_iff.1 hf
    rcases Nat.lt_or_ge j e with hlt | hge
    · left
      rw [h.below j hlt] at h0 ⊢
      exact Blocks.mem_tenants_iff.2 ⟨h0, j, rfl⟩
    · rcases h.above j hge with h0' | hmem
      · exact absurd h0' h0
      · exact Or.inr hmem
  · rintro (hf | hf)
    · obtain ⟨h0, j, rfl⟩ := Blocks.mem_tenants_iff.1 hf
      have hlt : j < e := by
        by_contra hge
        exact h0 (hfree j (not_lt.1 hge))
      exact Blocks.mem_tenants_iff.2 ⟨h0, j, h.below j hlt⟩
    · obtain ⟨a, l, hl, -, how⟩ := h.runs f hf
      exact Blocks.mem_tenants_iff.2 ⟨hE f hf, a, (how a).2 ⟨le_rfl, by omega⟩⟩

/-- **The geometry of the new column.** -/
theorem BaseColumn.finish (hb : BaseColumn n old e arr col st) (hinv : StageInv n δ old e frags)
    (harr : ∀ app ∈ arr, app.1 ≠ 0 ∧ 1 < app.2 ∧ app.2 = δ app.1 ∧ app.1 ∉ tenants old)
    {E : List Fid} (hE : ∀ f ∈ E, f ≠ 0 ∧ δ f = 1) {col' : List ℕ}
    (hfin : FinalColumn δ col st.elasticOffset E col') :
    StageInv n δ col' st.elasticOffset st.fragmentation ∧
      (∀ f, f ∈ tenants col' ↔ ((f ∈ tenants old ∧ 1 < δ f) ∨ f ∈ arr.map Prod.fst) ∨ f ∈ E) ∧
      ∀ f ∈ tenants old, 1 < δ f → ∀ j, owner col' j = f ↔ owner old j = f := by
  have harr' : ∀ app ∈ arr, app.1 ≠ 0 ∧ 1 < app.2 := fun app happ =>
    ⟨(harr app happ).1, (harr app happ).2.1⟩
  have hnew : ∀ app ∈ arr, app.1 ∉ tenants old := fun app happ => (harr app happ).2.2.2
  have hbase : ∀ f, f ∈ tenants col ↔ (f ∈ tenants old ∧ 1 < δ f) ∨ f ∈ arr.map Prod.fst :=
    fun f => hb.mem_tenants_iff hinv harr'
  -- a function that is inelastic owns the same blocks before and after the fill
  have hinel : ∀ f, f ≠ 0 → 1 < δ f → ∀ j, owner col' j = f ↔ owner col j = f := fun f hf hδ =>
    hfin.owner_eq_iff hb.free hf fun hmem => by
      have := (hE f hmem).2
      omega
  have htenants : ∀ f, f ∈ tenants col' ↔
      ((f ∈ tenants old ∧ 1 < δ f) ∨ f ∈ arr.map Prod.fst) ∨ f ∈ E := by
    intro f
    rw [← hbase f]
    exact hfin.mem_tenants_iff hb.free fun f hf => (hE f hf).1
  have hpin : ∀ f ∈ tenants old, 1 < δ f → ∀ j, owner col' j = f ↔ owner old j = f := by
    intro f hf hδ j
    rw [hinel f (Blocks.mem_tenants_iff.1 hf).1 hδ j]
    exact hb.owner_eq_iff hinv hnew hf hδ j
  refine ⟨⟨?_, hb.offset_le, ?_, ?_, ?_, ?_⟩, htenants, hpin⟩
  · rw [hfin.length_eq, hb.length_eq]
  · intro f hf
    rcases (htenants f).1 hf with (⟨-, hδ⟩ | hmem) | hmem
    · exact hδ.le
    · obtain ⟨app, happ, rfl⟩ := List.mem_map.1 hmem
      have := harr app happ
      omega
    · exact (hE f hmem).2.ge
  · intro f hf hδ
    rcases (htenants f).1 hf with (⟨hfo, -⟩ | hmem) | hmem
    · obtain ⟨a, hae, how⟩ := hinv.pinned f hfo hδ
      have := hb.le_offset
      exact ⟨a, by omega, fun j => (hpin f hfo hδ j).trans (how j)⟩
    · obtain ⟨app, happ, rfl⟩ := List.mem_map.1 hmem
      obtain ⟨h0, -, hd, -⟩ := harr app happ
      obtain ⟨a, hae, how⟩ := hb.arrived app happ
      rw [← hd]
      exact ⟨a, hae, fun j => (hinel _ h0 hδ j).trans (how j)⟩
    · have := (hE f hmem).2
      omega
  · intro f hf hδ
    rcases (htenants f).1 hf with (⟨-, hδ'⟩ | hmem) | hmem
    · omega
    · obtain ⟨app, happ, rfl⟩ := List.mem_map.1 hmem
      have := harr app happ
      omega
    · exact hfin.runs f hmem
  · intro fr hfr hpos
    obtain ⟨hle, hrun⟩ := hb.hole fr hfr hpos
    refine ⟨hle, fun j hj hjl => ?_⟩
    rw [hfin.below j (by omega), hrun j hj hjl]

end Fill

/-! ### The placement -/

/-- The inelastic functions among `fids` that are new at a stage, with their demands. -/
def inelasticArrivals (δ : Fid → ℕ) (fids : Finset Fid) (old : List ℕ) : List (Fid × ℕ) :=
  ((ascending fids).filter fun f => f ∉ tenants old ∧ 1 < δ f).map fun f => (f, δ f)

/-- The elastic functions among `fids`. -/
def elasticOf (δ : Fid → ℕ) (fids : Finset Fid) : List Fid :=
  (ascending fids).filter fun f => δ f = 1

/-- The holes that a placement finds. -/
def holesBelow (e : ℕ) (old : List ℕ) : List Fragment :=
  (scanFrom 0 (old.take e) Scan.start).fragments

/-- **What a placement that succeeds has gone through**, whatever the stage is like: the scan, the
inelastic arrivals, of which there is at most one, and the elastic fill. -/
theorem placeStage_inv {demand : Fid → Except Exn ℕ} {fids : Finset Fid} {old col : List ℕ}
    {st st' : StageState} (h : placeStage demand fids old st = .ok col st') :
    ∃ (apps : List (Fid × ℕ)) (base : List ℕ) (mid : StageState) (n : ℕ),
      (∀ app ∈ apps, app.1 ∈ fids) ∧ (apps.filter fun app => 1 < app.2).length ≤ 1 ∧
      st.elasticOffset ≤ old.length ∧
      placeInelastic apps (copyBelow st.elasticOffset old)
        ⟨holesBelow st.elasticOffset old, st.elasticOffset⟩ = .ok base mid ∧
      fillElastic mid.elasticOffset n apps base = .ok col ∧
      st' = { mid with fragmentation := sortFragments mid.fragmentation } := by
  unfold placeStage at h
  dsimp only at h
  split at h
  · cases h
  rename_i hscan
  rw [scanLoop_ok hscan] at h
  split_ifs at h with hlen
  split at h
  · cases h
  rename_i above habove
  split at h
  · cases h
  rename_i apps happs
  split_ifs at h with hmany
  split at h
  · cases h
  rename_i base mid hbase
  split at h
  · cases h
  rename_i col' hfill
  obtain ⟨rfl, rfl⟩ := EStateM.Result.ok.inj h
  refine ⟨_, base, mid, _, fun app happ => ?_, ?_, not_lt.1 hlen, hbase, hfill, rfl⟩
  · obtain ⟨g, hg, happ⟩ := exists_of_mem_mapM happs
      (List.mem_of_mem_filter ((List.mem_insertionSort _).1 happ))
    cases hd : demand g with
    | error ex =>
        rw [hd] at happ
        cases happ
    | ok d =>
        rw [hd] at happ
        obtain rfl := Except.ok.inj happ
        exact mem_ascending.1 hg
  · simp only [not_or, not_lt] at hmany
    rw [((List.perm_insertionSort _ _).filter _).length_eq]
    exact hmany.2.1

/-- The functions of a listed set that have a property are as many as those of the set. -/
theorem length_filter_ascending (s : Finset Fid) (p : Fid → Prop) [DecidablePred p] :
    ((ascending s).filter fun f => p f).length = (s.filter p).card := by
  rw [← Finset.card_val, Finset.filter_val, ← coe_ascending, Multiset.filter_coe,
    Multiset.coe_card]

section Place

variable {n e : ℕ} {δ : Fid → ℕ} {old : List ℕ} {frags : List Fragment} {fids : Finset Fid}
  {demand : Fid → Except Exn ℕ}

theorem StageInv.scanAt (h : StageInv n δ old e frags) :
    ScanAt old e (scanFrom 0 (old.take e) Scan.start) :=
  scanAt_take (h.length_eq.symm ▸ h.offset_le)

/-- The scan meets exactly the inelastic functions. -/
theorem StageInv.mem_scan_inelastic (h : StageInv n δ old e frags) {f : Fid} :
    f ∈ (scanFrom 0 (old.take e) Scan.start).inelastic ↔ f ∈ tenants old ∧ 1 < δ f := by
  rw [h.scanAt.inelastic f]
  constructor
  · rintro ⟨h0, k, hk, rfl⟩
    exact ⟨mem_tenants_iff.2 ⟨h0, k, rfl⟩, h.one_lt_of_lt hk h0⟩
  · rintro ⟨hf, hδ⟩
    obtain ⟨a, hae, how⟩ := h.pinned f hf hδ
    exact ⟨(mem_tenants_iff.1 hf).1, a, by omega, (how a).2 ⟨le_rfl, by omega⟩⟩

/-- The functions found from the offset on are exactly the elastic ones. -/
theorem StageInv.mem_current_elastic (h : StageInv n δ old e frags) {f : Fid} :
    f ∈ (old.drop e).filter (0 < ·) ↔ f ∈ tenants old ∧ δ f = 1 := by
  rw [List.mem_filter, List.mem_iff_getElem]
  constructor
  · rintro ⟨⟨k, hk, rfl⟩, h0⟩
    rw [List.length_drop] at hk
    rw [List.getElem_drop, ← owner_eq_getElem (by omega)] at h0 ⊢
    have h0' : owner old (e + k) ≠ 0 := (of_decide_eq_true h0).ne'
    exact ⟨mem_tenants_iff.2 ⟨h0', _, rfl⟩, h.eq_one_of_le (by omega) h0'⟩
  · rintro ⟨hf, hδ⟩
    obtain ⟨a, l, hl, hea, how⟩ := h.elastic f hf hδ
    have hfa : owner old a = f := (how a).2 ⟨le_rfl, by omega⟩
    have h0 := (mem_tenants_iff.1 hf).1
    have hlt := lt_length_of_owner_ne (c := old) (j := a) (by rw [hfa]; exact h0)
    refine ⟨⟨a - e, by rw [List.length_drop]; omega, ?_⟩, by simpa using Nat.pos_of_ne_zero h0⟩
    rw [List.getElem_drop, ← hfa, owner_eq_getElem hlt]
    congr 1
    omega

/-- The functions of a stage, with their demands. -/
def demandsOf (δ : Fid → ℕ) (fids : Finset Fid) : List (Fid × ℕ) := (ascending fids).map fun f => (f, δ f)

/-- The functions of a stage that the scan has not met, with their demands. -/
def prunedOf (δ : Fid → ℕ) (fids : Finset Fid) (old : List ℕ) (e : ℕ) : List (Fid × ℕ) :=
  (demandsOf δ fids).filter fun app => app.1 ∉ (scanFrom 0 (old.take e) Scan.start).inelastic

theorem filter_demandsOf (δ : Fid → ℕ) (fids : Finset Fid) (p : Fid × ℕ → Bool) :
    (demandsOf δ fids).filter p = ((ascending fids).filter fun f => p (f, δ f)).map fun f => (f, δ f) := by
  rw [demandsOf, List.filter_map]
  rfl

/-- The lists that are counted are lists of functions that are new at the stage. -/
theorem length_filter_demandsOf_le (hcard : (fids \ tenants old).card ≤ 1) (p : Fid × ℕ → Bool)
    (hp : ∀ f ∈ fids, p (f, δ f) = true → f ∉ tenants old) : ((demandsOf δ fids).filter p).length ≤ 1 := by
  rw [filter_demandsOf, List.length_map]
  refine le_trans ?_ hcard
  rw [← length_ascending]
  refine ((nodup_ascending fids).filter _).subperm ?_ |>.length_le
  intro f hf
  rw [List.mem_filter, mem_ascending] at hf
  rw [mem_ascending, Finset.mem_sdiff]
  exact ⟨hf.1, hp f hf.1 hf.2⟩

/-- The demands of the functions of a stage are known. -/
theorem mapM_demand {l : List Fid} (h : ∀ f ∈ l, demand f = .ok (δ f)) :
    l.mapM (fun f => (demand f).map fun d => (f, d)) = .ok (l.map fun f => (f, δ f)) := by
  refine mapM_eq_ok fun f hf => ?_
  rw [h f hf]
  rfl

/-- The scan succeeds. -/
theorem StageInv.scanLoop_ok (h : StageInv n δ old e frags) (hdemand : ∀ f ∈ tenants old, demand f = .ok (δ f)) :
    scanLoop demand 0 (old.take e) Scan.start = (scanFrom 0 (old.take e) Scan.start, .ok ()) := by
  refine scanLoop_eq ?_ 0 Scan.start
  intro x hx h0
  obtain ⟨k, hk, rfl⟩ := List.mem_iff_getElem.1 hx
  rw [List.length_take] at hk
  rw [List.getElem_take, ← owner_eq_getElem (by omega)] at h0 ⊢
  exact ⟨_, hdemand _ (mem_tenants_iff.2 ⟨h0, k, rfl⟩), h.one_lt_of_lt (by omega) h0⟩

/-- The inelastic functions that the scan has not met are the new ones. -/
theorem StageInv.filter_prunedOf_inelastic (h : StageInv n δ old e frags) (fids : Finset Fid) :
    (prunedOf δ fids old e).filter (fun app => 1 < app.2) = inelasticArrivals δ fids old := by
  rw [prunedOf, List.filter_filter, filter_demandsOf, inelasticArrivals]
  congr 1
  refine List.filter_congr fun f _ => ?_
  simp only [h.mem_scan_inelastic (f := f), Bool.decide_and, decide_not]
  by_cases h₁ : f ∈ tenants old <;> by_cases h₂ : 1 < δ f <;> simp [h₁, h₂]

/-- No elastic function was met by the scan. -/
theorem StageInv.filter_prunedOf_elastic (h : StageInv n δ old e frags) (hpos : ∀ f ∈ fids, 1 ≤ δ f) :
    ((prunedOf δ fids old e).filter fun app => app.2 ≤ 1).map Prod.fst = elasticOf δ fids := by
  rw [prunedOf, List.filter_filter, filter_demandsOf, List.map_map, elasticOf]
  refine (List.map_id _).trans (List.filter_congr fun f hf => ?_)
  have h1 := hpos f (mem_ascending.1 hf)
  simp only [h.mem_scan_inelastic (f := f), decide_not]
  by_cases h₂ : δ f = 1
  · simp [h₂]
  · simp [h₂]
    omega

theorem sort_prunedOf (δ : Fid → ℕ) (fids : Finset Fid) (old : List ℕ) (e : ℕ) :
    (prunedOf δ fids old e).insertionSort (fun a b => a.1 ≤ b.1) = prunedOf δ fids old e := by
  refine List.Pairwise.insertionSort_eq (List.Pairwise.filter _ ?_)
  exact List.pairwise_map.2 (pairwise_ascending fids)

/-- **None of the counts that a placement checks is more than one**, when at most one function is new. -/
theorem StageInv.counts_le (h : StageInv n δ old e frags) (hcard : (fids \ tenants old).card ≤ 1) :
    ((demandsOf δ fids).filter fun app => app.1 ∉ tenants old).length ≤ 1 ∧
      ((prunedOf δ fids old e).filter fun app => 1 < app.2).length ≤ 1 ∧
      ((prunedOf δ fids old e).filter fun app => app.2 = 1 ∧ app.1 ∉
        (((((old.drop e).filter (0 < ·)).map fun x => (x, δ x)).filter fun p => p.2 = 1).map
          Prod.fst).toFinset).length ≤ 1 := by
  refine ⟨length_filter_demandsOf_le hcard _ fun f _ hf => by simpa using hf, ?_, ?_⟩
  · rw [h.filter_prunedOf_inelastic, inelasticArrivals, List.length_map]
    have := length_filter_demandsOf_le (δ := δ) hcard (fun app => app.1 ∉ tenants old ∧ 1 < app.2) fun f _ hf => by
      simp only [decide_eq_true_eq] at hf
      exact hf.1
    rwa [filter_demandsOf, List.length_map] at this
  · rw [prunedOf, List.filter_filter]
    refine length_filter_demandsOf_le hcard _ fun f hf hp hmem => ?_
    simp only [Bool.and_eq_true, decide_eq_true_eq, List.mem_toFinset] at hp
    refine hp.1.2 (List.mem_map.2 ⟨(f, δ f), List.mem_filter.2 ⟨List.mem_map.2 ⟨f, ?_, rfl⟩, ?_⟩, rfl⟩)
    · exact h.mem_current_elastic.2 ⟨hmem, hp.1.1⟩
    · simpa using hp.1.1

/-- **The placement without the checks that cannot fail**, when at most one function is new. -/
theorem placeStage_eq (h : StageInv n δ old e frags) (hdemand : ∀ f ∈ fids, demand f = .ok (δ f))
    (hpos : ∀ f ∈ fids, 1 ≤ δ f) (hsub : tenants old ⊆ fids)
    (hcard : (fids \ tenants old).card ≤ 1) (st₀ : List Fragment) :
    placeStage demand fids old ⟨st₀, e⟩ =
      if n < e + (elasticOf δ fids).length then .error .assertionError ⟨holesBelow e old, e⟩
      else
        match placeInelastic (inelasticArrivals δ fids old) (copyBelow e old)
            ⟨holesBelow e old, e⟩ with
        | .error ex st => .error ex st
        | .ok col st =>
            match fillRuns st.elasticOffset (elasticOf δ fids) col with
            | .error ex => .error ex st
            | .ok col => .ok col { st with fragmentation := sortFragments st.fragmentation } := by
  have hscan := h.scanLoop_ok fun f hf => hdemand f (hsub hf)
  have habove : ((old.drop e).filter (0 < ·)).mapM (fun x => (demand x).map fun d => (x, d))
      = .ok (((old.drop e).filter (0 < ·)).map fun x => (x, δ x)) :=
    mapM_demand fun x hx => hdemand x (hsub (h.mem_current_elastic.1 hx).1)
  have happs : (ascending fids).mapM (fun fid => (demand fid).map fun d => (fid, d)) = .ok (demandsOf δ fids) :=
    mapM_demand fun x hx => hdemand x (mem_ascending.1 hx)
  have hnum : ((demandsOf δ fids).filter fun app => app.2 = 1).length = (elasticOf δ fids).length := by
    rw [filter_demandsOf, List.length_map]
    rfl
  obtain ⟨hone, htwo, hthree⟩ := h.counts_le hcard
  have hlen : ¬n < e := not_lt.2 h.offset_le
  have hfill : ∀ (e' : ℕ) (col : List ℕ), fillElastic e' (elasticOf δ fids).length (prunedOf δ fids old e) col =
      fillRuns e' (elasticOf δ fids) col :=
    fun e' col => fillElastic_eq (h.filter_prunedOf_elastic hpos)
  unfold placeStage
  simp only [hscan, habove, happs]
  rw [← prunedOf]
  simp only [not_lt.2 hone, not_lt.2 htwo, not_lt.2 hthree, hnum, sort_prunedOf, h.length_eq, if_neg hlen,
    false_or, hfill]
  rw [placeInelastic_filter, h.filter_prunedOf_inelastic]
  rfl

/-- **What a placement has done** to a stage with the old column `old` and offset `e`. -/
structure Placed (n : ℕ) (δ : Fid → ℕ) (fids : Finset Fid) (old : List ℕ) (e : ℕ)
    (col : List ℕ) (st : StageState) : Prop where
  /-- The geometry is right. -/
  inv : StageInv n δ col st.elasticOffset st.fragmentation
  /-- The functions of the stage are the ones asked for. -/
  tenants_eq : tenants col = fids
  /-- An inelastic function keeps exactly its blocks. -/
  pinned : ∀ f ∈ tenants old, 1 < δ f → ∀ j, owner col j = f ↔ owner old j = f
  /-- The offset only grows. -/
  le_offset : e ≤ st.elasticOffset
  /-- If it has grown, the block below it is owned by a function below the offset. -/
  top : st.elasticOffset ≠ e → 0 < st.elasticOffset ∧ owner col (st.elasticOffset - 1) ≠ 0

theorem mem_inelasticArrivals {app : Fid × ℕ} :
    app ∈ inelasticArrivals δ fids old ↔
      app.1 ∈ fids ∧ app.1 ∉ tenants old ∧ 1 < app.2 ∧ app.2 = δ app.1 := by
  simp only [inelasticArrivals, List.mem_map, List.mem_filter, mem_ascending, decide_eq_true_eq]
  constructor
  · rintro ⟨f, ⟨hf, hnew, hδ⟩, rfl⟩
    exact ⟨hf, hnew, hδ, rfl⟩
  · rintro ⟨hf, hnew, hd, heq⟩
    exact ⟨app.1, ⟨hf, hnew, heq ▸ hd⟩, Prod.ext rfl heq.symm⟩

theorem mem_elasticOf {f : Fid} : f ∈ elasticOf δ fids ↔ f ∈ fids ∧ δ f = 1 := by
  simp [elasticOf]

/-- The elastic functions, each once and in order. -/
theorem pairwise_elasticOf (δ : Fid → ℕ) (fids : Finset Fid) : (elasticOf δ fids).Pairwise (· < ·) :=
  ((pairwise_ascending fids).and (nodup_ascending fids)).imp (fun h => lt_of_le_of_ne h.1 h.2) |>.filter _

theorem length_inelasticArrivals_le (hcard : (fids \ tenants old).card ≤ 1) :
    (inelasticArrivals δ fids old).length ≤ 1 := by
  rw [inelasticArrivals, List.length_map, length_filter_ascending]
  refine (Finset.card_le_card fun f hf => ?_).trans hcard
  rw [Finset.mem_filter] at hf
  exact Finset.mem_sdiff.2 ⟨hf.1, hf.2.1⟩

theorem mem_sortFragments {frags : List Fragment} {fr : Fragment} :
    fr ∈ sortFragments frags ↔ fr ∈ frags := List.mem_insertionSort _

/-- **The two halves of a placement that succeeds**: the column with the inelastic arrivals, and its
elastic fill. -/
theorem placeStage_halves (h : StageInv n δ old e frags)
    (hdemand : ∀ f ∈ fids, demand f = .ok (δ f)) (hpos : ∀ f ∈ fids, 1 ≤ δ f)
    (hsub : tenants old ⊆ fids) (hcard : (fids \ tenants old).card ≤ 1) (h0 : 0 ∉ fids)
    {st₀ : List Fragment} {col : List ℕ} {st : StageState}
    (hok : placeStage demand fids old ⟨st₀, e⟩ = .ok col st) :
    ∃ base st', BaseColumn n old e (inelasticArrivals δ fids old) base st' ∧
      (∀ f ∈ elasticOf δ fids, f ≠ 0 ∧ ∀ j, owner base j ≠ f) ∧
      fillRuns st'.elasticOffset (elasticOf δ fids) base = .ok col ∧
      st = { st' with fragmentation := sortFragments st'.fragmentation } := by
  rw [placeStage_eq h hdemand hpos hsub hcard] at hok
  split_ifs at hok with hfit
  cases hp : placeInelastic (inelasticArrivals δ fids old) (copyBelow e old)
      ⟨holesBelow e old, e⟩ with
  | error ex st' => simp [hp] at hok
  | ok base st' =>
      rw [hp] at hok
      dsimp only at hok
      cases hf : fillRuns st'.elasticOffset (elasticOf δ fids) base with
      | error ex => simp [hf] at hok
      | ok col' =>
          rw [hf] at hok
          simp only [EStateM.Result.ok.injEq] at hok
          obtain ⟨rfl, rfl⟩ := hok
          have harr : ∀ app ∈ inelasticArrivals δ fids old,
              app.1 ≠ 0 ∧ 1 < app.2 ∧ app.2 = δ app.1 ∧ app.1 ∉ tenants old := by
            intro app happ
            obtain ⟨hm, hnew, hd, heq⟩ := mem_inelasticArrivals.1 happ
            exact ⟨fun h' => h0 (h' ▸ hm), hd, heq, hnew⟩
          have hb : BaseColumn n old e (inelasticArrivals δ fids old) base st' := by
            refine placeInelastic_ok h.length_eq h.offset_le h.scanAt
              (length_inelasticArrivals_le hcard) ?_ hp
            intro app happ
            obtain ⟨hne, hd, -, hnew⟩ := harr app happ
            exact ⟨hne, hd, fun j hj => hnew (mem_tenants_iff.2 ⟨hne, j, hj⟩)⟩
          refine ⟨base, st', hb, fun f hf => ?_, hf, rfl⟩
          obtain ⟨hm, hδ⟩ := mem_elasticOf.1 hf
          have hne : f ≠ 0 := fun h' => h0 (h' ▸ hm)
          refine ⟨hne, fun j hj => ?_⟩
          rcases (hb.mem_tenants_iff h fun app happ => ⟨(harr app happ).1, (harr app happ).2.1⟩).1
            (mem_tenants_iff.2 ⟨hne, j, hj⟩) with ⟨-, hδ'⟩ | hmem
          · omega
          · obtain ⟨app, happ, rfl⟩ := List.mem_map.1 hmem
            have := harr app happ
            omega

/-- **A placement that succeeds has placed every function** and moved no inelastic one. -/
theorem placeStage_ok (h : StageInv n δ old e frags) (hdemand : ∀ f ∈ fids, demand f = .ok (δ f))
    (hpos : ∀ f ∈ fids, 1 ≤ δ f) (hsub : tenants old ⊆ fids)
    (hcard : (fids \ tenants old).card ≤ 1) (h0 : 0 ∉ fids) {st₀ : List Fragment}
    {col : List ℕ} {st : StageState}
    (hok : placeStage demand fids old ⟨st₀, e⟩ = .ok col st) : Placed n δ fids old e col st := by
  obtain ⟨base, st', hb, hE, hf, rfl⟩ := placeStage_halves h hdemand hpos hsub hcard h0 hok
  have harr : ∀ app ∈ inelasticArrivals δ fids old,
      app.1 ≠ 0 ∧ 1 < app.2 ∧ app.2 = δ app.1 ∧ app.1 ∉ tenants old := by
    intro app happ
    obtain ⟨hm, hnew, hd, heq⟩ := mem_inelasticArrivals.1 happ
    exact ⟨fun h' => h0 (h' ▸ hm), hd, heq, hnew⟩
  have hfin : FinalColumn δ base st'.elasticOffset (elasticOf δ fids) col :=
    finalColumn_of_fill hb.free hE ((nodup_ascending fids).filter _)
      (hb.length_eq.symm ▸ hb.offset_le) hf
  obtain ⟨hinv, hten, hpin⟩ := hb.finish h harr
    (fun f hf => ⟨(hE f hf).1, (mem_elasticOf.1 hf).2⟩) hfin
  refine ⟨?_, ?_, hpin, hb.le_offset, ?_⟩
  · exact ⟨hinv.length_eq, hinv.offset_le, hinv.demand_pos, hinv.pinned, hinv.elastic,
      fun fr hfr => hinv.hole fr (mem_sortFragments.1 hfr)⟩
  · ext f
    rw [hten f]
    constructor
    · rintro ((⟨hm, -⟩ | hm) | hm)
      · exact hsub hm
      · obtain ⟨app, happ, rfl⟩ := List.mem_map.1 hm
        exact (mem_inelasticArrivals.1 happ).1
      · exact (mem_elasticOf.1 hm).1
    · intro hm
      rcases (hpos f hm).lt_or_eq with hlt | heq
      · by_cases hold : f ∈ tenants old
        · exact Or.inl (Or.inl ⟨hold, hlt⟩)
        · exact Or.inl (Or.inr (List.mem_map.2
            ⟨(f, δ f), mem_inelasticArrivals.2 ⟨hm, hold, hlt, rfl⟩, rfl⟩))
      · exact Or.inr (mem_elasticOf.2 ⟨hm, heq.symm⟩)
  · intro hne
    obtain ⟨hgt, hmem⟩ := hb.top hne
    refine ⟨hgt, ?_⟩
    simp only
    rw [hfin.below _ (by omega)]
    obtain ⟨app, happ, heq⟩ := List.mem_map.1 hmem
    rw [← heq]
    exact (harr app happ).1

/-- The inelastic arrivals, of which there is at most one, find a place. -/
theorem placeInelastic_ok_iff (hlen : old.length = n) (he : e ≤ n) {holes : List Fragment}
    (hholes : ∀ fr ∈ holes, 0 < fr.size → fr.start + fr.size.toNat ≤ e)
    {arr : List (Fid × ℕ)} (harr : arr.length ≤ 1) (hd : ∀ app ∈ arr, 1 < app.2) (m : ℕ) :
    (∃ col st, placeInelastic arr (copyBelow e old) ⟨holes, e⟩ = .ok col st ∧
        st.elasticOffset + m ≤ n) ↔
      e + m ≤ n ∧ ∀ app ∈ arr, (∃ fr ∈ holes, (app.2 : ℤ) ≤ fr.size) ∨ e + app.2 + m ≤ n := by
  match arr, harr with
  | [], _ => simp [placeInelastic]
  | [(f, d)], _ =>
      have hd1 : 1 < d := hd (f, d) (List.mem_cons_self ..)
      simp only [placeInelastic, if_neg (not_le.2 hd1), List.mem_singleton, forall_eq,
        length_copyBelow, hlen]
      cases hb : bestHole d holes with
      | none =>
          have hnone : ¬∃ fr ∈ holes, (d : ℤ) ≤ fr.size := by
            rintro ⟨fr, hfr, hle⟩
            have := bestHole_none hb fr hfr
            omega
          simp only [hnone, false_or]
          by_cases hfit : n < e + d
          · simp only [if_pos hfit]
            constructor
            · rintro ⟨col, st, hst, -⟩
              exact absurd hst (by simp)
            · intro hle
              omega
          · simp only [if_neg hfit, EStateM.Result.ok.injEq]
            constructor
            · rintro ⟨_, _, ⟨rfl, rfl⟩, hle⟩
              simp only at hle
              omega
            · rintro ⟨-, hle⟩
              exact ⟨_, _, ⟨rfl, rfl⟩, hle⟩
      | some b =>
          obtain ⟨fr, k⟩ := b
          obtain ⟨hk, hdfr⟩ := bestHole_some hb
          have hmem : fr ∈ holes := List.mem_of_getElem? hk
          have hle := hholes fr hmem (by omega)
          have hsome : ∃ fr ∈ holes, (d : ℤ) ≤ fr.size := ⟨fr, hmem, hdfr⟩
          simp only [hsome, true_or, and_true, if_neg (show ¬n < fr.start + d by omega),
            EStateM.Result.ok.injEq]
          constructor
          · rintro ⟨_, _, ⟨rfl, rfl⟩, hle⟩
            exact hle
          · intro hle
            exact ⟨_, _, ⟨rfl, rfl⟩, hle⟩

theorem fillRuns_ok_iff {E : List Fid} {col : List ℕ} (he : e ≤ col.length) :
    (∃ col', fillRuns e E col = .ok col') ↔ e + E.length ≤ col.length := by
  unfold fillRuns
  split_ifs with hnil hfit
  · simp [hnil, he]
  · simp only [exists_false, false_iff]
    omega
  · simp only [Except.ok.injEq, exists_eq', true_iff]
    omega

/-- **A placement succeeds exactly when the arrival fits**: into a hole that the scan has found,
or between the offset and the elastic functions. -/
theorem placeStage_succeeds_iff (h : StageInv n δ old e frags)
    (hdemand : ∀ f ∈ fids, demand f = .ok (δ f)) (hpos : ∀ f ∈ fids, 1 ≤ δ f)
    (hsub : tenants old ⊆ fids) (hcard : (fids \ tenants old).card ≤ 1) (h0 : 0 ∉ fids)
    (st₀ : List Fragment) :
    (∃ col st, placeStage demand fids old ⟨st₀, e⟩ = .ok col st) ↔
      e + (elasticOf δ fids).length ≤ n ∧ ∀ app ∈ inelasticArrivals δ fids old,
        (∃ fr ∈ holesBelow e old, (app.2 : ℤ) ≤ fr.size) ∨
          e + app.2 + (elasticOf δ fids).length ≤ n := by
  have harr : ∀ app ∈ inelasticArrivals δ fids old, app.1 ≠ 0 ∧ 1 < app.2 ∧
      ∀ j, owner old j ≠ app.1 := by
    intro app happ
    obtain ⟨hm, hnew, hd, -⟩ := mem_inelasticArrivals.1 happ
    have hne : app.1 ≠ 0 := fun h' => h0 (h' ▸ hm)
    exact ⟨hne, hd, fun j hj => hnew (mem_tenants_iff.2 ⟨hne, j, hj⟩)⟩
  have hlen : (inelasticArrivals δ fids old).length ≤ 1 := length_inelasticArrivals_le hcard
  have hholes : ∀ fr ∈ holesBelow e old, 0 < fr.size → fr.start + fr.size.toNat ≤ e :=
    fun fr hfr hpos => (h.scanAt.hole_below hfr hpos).1
  rw [← placeInelastic_ok_iff h.length_eq h.offset_le hholes hlen
    (fun app happ => (harr app happ).2.1), placeStage_eq h hdemand hpos hsub hcard]
  -- the column before the fill leaves room for the elastic functions exactly when the fill succeeds
  have hfill : ∀ col st, placeInelastic (inelasticArrivals δ fids old) (copyBelow e old)
      ⟨holesBelow e old, e⟩ = .ok col st →
      ((∃ col', fillRuns st.elasticOffset (elasticOf δ fids) col = .ok col') ↔
        st.elasticOffset + (elasticOf δ fids).length ≤ n) := by
    intro col st hp
    have hb := placeInelastic_ok h.length_eq h.offset_le h.scanAt hlen harr hp
    rw [fillRuns_ok_iff (by rw [hb.length_eq]; exact hb.offset_le), hb.length_eq]
  have hgrow : ∀ col st, placeInelastic (inelasticArrivals δ fids old) (copyBelow e old)
      ⟨holesBelow e old, e⟩ = .ok col st → e ≤ st.elasticOffset := fun col st hp =>
    (placeInelastic_ok h.length_eq h.offset_le h.scanAt hlen harr hp).le_offset
  constructor
  · rintro ⟨col', st', hok⟩
    split_ifs at hok
    cases hp : placeInelastic (inelasticArrivals δ fids old) (copyBelow e old)
        ⟨holesBelow e old, e⟩ with
    | error ex st => simp [hp] at hok
    | ok col st =>
        refine ⟨col, st, rfl, (hfill col st hp).1 ?_⟩
        rw [hp] at hok
        cases hf : fillRuns st.elasticOffset (elasticOf δ fids) col with
        | error ex => simp [hf] at hok
        | ok col'' => exact ⟨col'', rfl⟩
  · rintro ⟨col, st, hp, hle⟩
    obtain ⟨col', hf⟩ := (hfill col st hp).2 hle
    have := hgrow col st hp
    rw [if_neg (by omega), hp]
    simp only [hf]
    exact ⟨_, _, rfl⟩

end Place

end Allocator

end ActiveRmt
