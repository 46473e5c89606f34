/-
**Committing an augmentation.**

A function that asks for more memory while it is resident is augmented: the addition arrives as a
function of its own, under the identifier 253, and once it is placed `commitAugmentedAllocation` makes
its blocks blocks of the base function.  The blocks change their owner; the stages of the addition are
appended to those of the base, without a look at whether they are among them already; the demands of the
addition are appended to those of the base, and the stages of the addition keep their indices, which
pointed into the demands of the addition alone.

So the base function has the right demands afterwards only where the demand at the old index happens to
be the same, and it can depart only if no stage was shared.  Otherwise all is well: up to the order in
which the stages of a function are listed the state is consistent, and every later operation works.

Main definitions:

* `Allocator.commitAugmentedAllocation` — the commit;
* `Allocator.Mergeable` — no shared stage, and the same demand at the old indices;
* `Allocator.AugmentStep`, `Allocator.MergeStep` — arrivals, departures and commits, and those whose
  commits are of two functions that can be merged;
* `Allocator.Committed` — what a commit should achieve;
* `Allocator.Regular` — consistent up to the order in which the stages of a function are listed.

Main results:

* `Allocator.Regular.arrive`, `Allocator.Regular.depart`, `Allocator.Merge.regular` — every operation
  keeps the state regular;
* `Allocator.committed_iff` — **exactly when a commit does what it should**, in every run;
* `Allocator.committed_wrong` — a demand that is lost, and a stage that is listed twice.
-/

import ActiveRmt.AllocatorRuns

set_option relaxedAutoImplicit false
set_option autoImplicit false

namespace ActiveRmt

open Blocks

/-! ### The commit -/

namespace ActiveFunction

/-- The accesses and the demands of the base function, followed by those of its addition.
`computeConstraints` recomputes what depends on the fields set here. -/
def extended (base aug : ActiveFunction) : ActiveFunction :=
  { base with
    progLen := aug.progLen
    igLim := aug.igLim
    accessIdx := base.accessIdx ++ aug.accessIdx
    minDemand := base.minDemand ++ aug.minDemand }

/-- The accesses of the stages of the addition, written over those of the base function. -/
def overlay (alloc augAlloc : Dict Stage ℕ) : Dict Stage ℕ :=
  augAlloc.items.foldl (fun d p => d.set p.1 p.2) alloc

/-- The same, where one of the two may have none. -/
def overlay? : Option (Dict Stage ℕ) → Option (Dict Stage ℕ) → Except Exn (Option (Dict Stage ℕ))
  | some alloc, some augAlloc => .ok (some (overlay alloc augAlloc))
  | none, some augAlloc => if augAlloc.items = [] then .ok none else .error .typeError
  | _, none => .error .typeError

end ActiveFunction

namespace Allocator

/-- `FID_AUGMENTATION`. -/
def fidAugmentation : Fid := 253

/-- How a commit fails. -/
inductive CommitFailure
  /-- An exception of the language. -/
  | exn (ex : Exn)
  /-- The base function has no stages. -/
  | notInAllocationMap (fid : Fid)
  deriving DecidableEq

/-- The base function becomes the owner of a block. -/
def takeOver (fid x : Fid) : Fid := if x = fidAugmentation then fid else x

/-- The reverse map after the stages of the addition are moved.  The base function is another one: a list
that is extended while it is read has no end. -/
def mergeRev (rev : Dict Fid (List Stage)) (fid : Fid) :
    Except CommitFailure (Dict Fid (List Stage)) :=
  match rev.get? fidAugmentation with
  | none => .ok rev
  | some augStages =>
      match rev.get? fid with
      | none => .error (.notInAllocationMap fid)
      | some baseStages => .ok ((rev.set fid (baseStages ++ augStages)).erase fidAugmentation)

/-- **`commitAugmentedAllocation`.**  The set of stages that are occupied has no identifiers, and there is
nothing to remove from it. -/
def commitAugmentedAllocation (fid : Fid) : EStateM CommitFailure Allocator Unit := fun s =>
  let s := { s with
    allocationMap := fun i =>
      if fidAugmentation ∈ s.allocationMap i then
        insert fid ((s.allocationMap i).erase fidAugmentation)
      else s.allocationMap i }
  match mergeRev s.revAllocationMap fid with
  | .error failure => .error failure s
  | .ok rev =>
      let s := { s with
        revAllocationMap := rev
        allocationMatrix := fun i => (s.allocationMatrix i).map (takeOver fid) }
      match s.activeFuncs.get? fid, s.activeFuncs.get? fidAugmentation with
      | none, _ => .error (.exn .assertionError) s
      | some _, none => .error (.exn .keyError) s
      | some base, some aug =>
          let extended := base.extended aug
          match ActiveFunction.overlay? base.allocation aug.allocation with
          | .error ex => .error (.exn ex) { s with activeFuncs := s.activeFuncs.set fid extended }
          | .ok allocation =>
              let extended := { extended with allocation := allocation }
              .ok ⟨⟩ { s with activeFuncs := (s.activeFuncs.set fid extended).erase fidAugmentation }

/-! ### What is expected of it -/

/-- Both functions are resident. -/
structure BothResident (s : Allocator) (f : Fid) : Prop where
  ne : f ≠ fidAugmentation
  base : f ∈ s.activeFuncs.keys
  aug : fidAugmentation ∈ s.activeFuncs.keys

/-- **The two can be merged**: they share no stage, and at the index of each stage of the addition the
demands of both together are as those of the addition alone. -/
structure Mergeable (s : Allocator) (f : Fid) : Prop where
  disjoint : ∀ i, f ∈ s.allocationMap i → fidAugmentation ∉ s.allocationMap i
  demands : ∀ base ∈ s.activeFuncs.get? f, ∀ aug ∈ s.activeFuncs.get? fidAugmentation,
    ∀ augAlloc ∈ aug.allocation, ∀ i, ∀ k ∈ augAlloc.get? i,
      (base.minDemand ++ aug.minDemand)[k]? = aug.minDemand[k]?

instance (s : Allocator) (f : Fid) : Decidable (BothResident s f) :=
  decidable_of_iff (f ≠ fidAugmentation ∧ f ∈ s.activeFuncs.keys ∧
      fidAugmentation ∈ s.activeFuncs.keys)
    ⟨fun h => ⟨h.1, h.2.1, h.2.2⟩, fun h => ⟨h.ne, h.base, h.aug⟩⟩

instance (s : Allocator) (f : Fid) : Decidable (Mergeable s f) :=
  decidable_of_iff ((∀ i, f ∈ s.allocationMap i → fidAugmentation ∉ s.allocationMap i) ∧
      ∀ base ∈ s.activeFuncs.get? f, ∀ aug ∈ s.activeFuncs.get? fidAugmentation,
        ∀ augAlloc ∈ aug.allocation, ∀ i, ∀ k ∈ augAlloc.get? i,
          (base.minDemand ++ aug.minDemand)[k]? = aug.minDemand[k]?)
    ⟨fun h => ⟨h.1, h.2⟩, fun h => ⟨h.disjoint, h.demands⟩⟩

/-- The operations of a run with augmentations. -/
inductive AugmentOp
  /-- An arrival or a departure. -/
  | op (o : Op)
  /-- The addition is committed to a function. -/
  | commit (fid : Fid)
  deriving DecidableEq

section Expected

variable (cfg : AllocatorConfig)

/-- **One operation** that raises no exception; a commit is of two functions that are resident. -/
def AugmentStep (s : Allocator) : AugmentOp → Allocator → Prop
  | .op o, t => Step cfg s o t
  | .commit f, t => BothResident s f ∧ commitAugmentedAllocation f s = .ok ⟨⟩ t

/-- **An operation whose commit is of two functions that can be merged.** -/
def MergeStep (s : Allocator) (o : AugmentOp) (t : Allocator) : Prop :=
  AugmentStep cfg s o t ∧ ∀ f, o = .commit f → Mergeable s f

/-- **The base function has taken over the addition**, from `s` to `t`. -/
structure Committed (s : Allocator) (f : Fid) (t : Allocator) : Prop where
  /-- It holds the stages of both. -/
  held : ∀ i, f ∈ s.allocationMap i ∨ fidAugmentation ∈ s.allocationMap i → f ∈ t.allocationMap i
  /-- It holds the blocks of both. -/
  blocks : ∀ i k, owner (s.allocationMatrix i) k = f ∨ owner (s.allocationMatrix i) k = fidAugmentation →
    owner (t.allocationMatrix i) k = f
  /-- It has the demands of both. -/
  demands : ∀ i, (f ∈ s.allocationMap i → t.getMinDemand f i = s.getMinDemand f i) ∧
    (fidAugmentation ∈ s.allocationMap i →
      t.getMinDemand f i = s.getMinDemand fidAugmentation i)
  /-- Each of its stages is listed once. -/
  listed : ∃ l, t.revAllocationMap.get? f = some l ∧
    ∀ i, f ∈ s.allocationMap i ∨ fidAugmentation ∈ s.allocationMap i → l.count i = 1
  /-- The addition is nowhere. -/
  gone : fidAugmentation ∉ t.activeFuncs.keys ∧ fidAugmentation ∉ t.revAllocationMap.keys ∧
    ∀ i, fidAugmentation ∉ t.allocationMap i ∧ fidAugmentation ∉ t.allocationMatrix i
  /-- Whenever it departs later, it gives back all its blocks. -/
  departs : ∀ ops u, Run (MergeStep cfg) t ops u → .op (.depart f) ∉ ops →
    ∃ u', deallocate f u = .ok true u' ∧ ∀ i, f ∉ u'.allocationMap i ∧ f ∉ u'.allocationMatrix i

end Expected

/-! ### Columns with another owner -/

section Columns

variable {f : Fid} {col : List ℕ}

theorem takeOver_self (f : Fid) : takeOver f fidAugmentation = f := if_pos rfl

theorem takeOver_of_ne {x : Fid} (h : x ≠ fidAugmentation) : takeOver f x = x := if_neg h

theorem takeOver_ne (hf : f ≠ fidAugmentation) (x : Fid) : takeOver f x ≠ fidAugmentation := by
  unfold takeOver
  split_ifs with hx
  · exact hf
  · exact hx

theorem owner_takeOver (f : Fid) (col : List ℕ) (j : ℕ) :
    owner (col.map (takeOver f)) j = takeOver f (owner col j) := by
  by_cases hj : j < col.length
  · rw [owner_eq_getElem (by simpa using hj), owner_eq_getElem hj, List.getElem_map]
  · rw [owner_of_length_le (by simpa using hj), owner_of_length_le (by omega)]
    exact (takeOver_of_ne (by decide)).symm

theorem mem_tenants_takeOver (hf0 : f ≠ 0) {g : Fid} : g ∈ tenants (col.map (takeOver f)) ↔
    (g = f ∧ fidAugmentation ∈ tenants col) ∨ (g ≠ fidAugmentation ∧ g ∈ tenants col) := by
  simp only [mem_tenants_iff, owner_takeOver]
  constructor
  · rintro ⟨hg, j, rfl⟩
    by_cases hj : owner col j = fidAugmentation
    · rw [hj, takeOver_self] at hg ⊢
      exact .inl ⟨rfl, by decide, j, hj⟩
    · rw [takeOver_of_ne hj] at hg ⊢
      exact .inr ⟨hj, hg, j, rfl⟩
  · rintro (⟨rfl, -, j, hj⟩ | ⟨hg, hg0, j, rfl⟩)
    · exact ⟨hf0, j, by rw [hj, takeOver_self]⟩
    · exact ⟨hg0, j, takeOver_of_ne hg⟩

/-- The runs of the base function, which takes them over. -/
theorem owns_takeOver_self {a l : ℕ} (hno : f ∉ tenants col) (hf0 : f ≠ 0)
    (h : Owns col fidAugmentation a l) : Owns (col.map (takeOver f)) f a l := by
  intro j
  rw [owner_takeOver, ← h j]
  constructor
  · intro hj
    by_contra hne
    rw [takeOver_of_ne hne] at hj
    exact hno (mem_tenants_iff.2 ⟨hf0, j, hj⟩)
  · intro hj
    rw [hj, takeOver_self]

/-- The runs of the others. -/
theorem owns_takeOver_of_ne {g : Fid} {a l : ℕ} (hg : g ≠ fidAugmentation)
    (hother : g = f → fidAugmentation ∉ tenants col) (h : Owns col g a l) :
    Owns (col.map (takeOver f)) g a l := by
  intro j
  rw [owner_takeOver, ← h j]
  constructor
  · intro hj
    by_cases hne : owner col j = fidAugmentation
    · rw [hne, takeOver_self] at hj
      exact absurd (mem_tenants_iff.2 ⟨by decide, j, hne⟩) (hother hj.symm)
    · rwa [takeOver_of_ne hne] at hj
  · rintro rfl
    exact takeOver_of_ne hg

/-- **The geometry of a stage does not depend on who owns a run**, as long as only one of the two has
one. -/
theorem StageInv.takeOver {n e : ℕ} {δ δ' : Fid → ℕ} {frags : List Fragment}
    (h : StageInv n δ col e frags) (hf0 : f ≠ 0)
    (hshared : ¬ (f ∈ tenants col ∧ fidAugmentation ∈ tenants col))
    (haug : fidAugmentation ∈ tenants col → δ' f = δ fidAugmentation)
    (hsame : ∀ g ∈ tenants col, g ≠ fidAugmentation → δ' g = δ g) :
    StageInv n δ' (col.map (Allocator.takeOver f)) e frags := by
  -- where a tenant of the new column comes from
  have hfrom : ∀ g ∈ tenants (col.map (Allocator.takeOver f)), ∃ g₀ ∈ tenants col, δ' g = δ g₀ ∧
      ∀ a l, Owns col g₀ a l → Owns (col.map (Allocator.takeOver f)) g a l := by
    intro g hg
    rcases (mem_tenants_takeOver hf0).1 hg with ⟨rfl, ha⟩ | ⟨hne, hg⟩
    · exact ⟨_, ha, haug ha, fun a l => owns_takeOver_self (fun hg => hshared ⟨hg, ha⟩) hf0⟩
    · exact ⟨g, hg, hsame g hg hne, fun a l =>
        owns_takeOver_of_ne hne fun heq ha => hshared ⟨heq ▸ hg, ha⟩⟩
  refine ⟨by rw [List.length_map]; exact h.length_eq, h.offset_le, ?_, ?_, ?_, ?_⟩
  · intro g hg
    obtain ⟨g₀, hg₀, hδ, -⟩ := hfrom g hg
    rw [hδ]
    exact h.demand_pos g₀ hg₀
  · intro g hg h1
    obtain ⟨g₀, hg₀, hδ, howns⟩ := hfrom g hg
    rw [hδ] at h1 ⊢
    obtain ⟨a, ha, how⟩ := h.pinned g₀ hg₀ h1
    exact ⟨a, ha, howns _ _ how⟩
  · intro g hg h1
    obtain ⟨g₀, hg₀, hδ, howns⟩ := hfrom g hg
    rw [hδ] at h1
    obtain ⟨a, l, hl, ha, how⟩ := h.elastic g₀ hg₀ h1
    exact ⟨a, l, hl, ha, howns _ _ how⟩
  · intro fr hfr hpos
    obtain ⟨hle, hfree⟩ := h.hole fr hfr hpos
    refine ⟨hle, fun j hj hjl => ?_⟩
    rw [owner_takeOver, hfree j hj hjl]
    exact takeOver_of_ne (by decide)

end Columns

/-! ### The state after a commit -/

section Merged

variable {s : Allocator} {f : Fid}

/-- When a demand can be read. -/
theorem getMinDemand_eq_ok_iff {g : Fid} {i : Stage} {d : ℕ} : s.getMinDemand g i = .ok d ↔
    ∃ af alloc k, s.activeFuncs.get? g = some af ∧ af.allocation = some alloc ∧
      alloc.get? i = some k ∧ af.minDemand[k]? = some d := by
  constructor
  · intro h
    unfold getMinDemand at h
    cases haf : s.activeFuncs.get? g with
    | none => simp [haf] at h
    | some af =>
        cases halloc : af.allocation with
        | none => simp [haf, halloc] at h
        | some alloc =>
            cases hk : alloc.get? i with
            | none => simp [haf, halloc, hk] at h
            | some k =>
                cases hd : af.minDemand[k]? with
                | none => simp [haf, halloc, hk, hd] at h
                | some d' =>
                    simp only [haf, halloc, hk, hd, Except.ok.injEq] at h
                    exact ⟨af, alloc, k, rfl, halloc, hk, h ▸ hd⟩
  · rintro ⟨af, alloc, k, haf, halloc, hk, hd⟩
    simp only [getMinDemand, haf, halloc, hk, hd]

/-- What the structures have about a function and its addition. -/
structure Parts where
  /-- The function. -/
  base : ActiveFunction
  /-- Its addition. -/
  aug : ActiveFunction
  /-- The accesses that the stages of the function serve. -/
  alloc : Dict Stage ℕ
  /-- The accesses that the stages of the addition serve. -/
  augAlloc : Dict Stage ℕ
  /-- The stages of the function. -/
  listed : List Stage
  /-- The stages of the addition. -/
  augListed : List Stage

/-- It is what they have. -/
structure PartsOf (s : Allocator) (f : Fid) (p : Parts) : Prop where
  base : s.activeFuncs.get? f = some p.base
  aug : s.activeFuncs.get? fidAugmentation = some p.aug
  alloc : p.base.allocation = some p.alloc
  augAlloc : p.aug.allocation = some p.augAlloc
  listed : s.revAllocationMap.get? f = some p.listed
  augListed : s.revAllocationMap.get? fidAugmentation = some p.augListed

/-- The base function with its addition. -/
def Parts.augmented (p : Parts) : ActiveFunction :=
  { p.base.extended p.aug with allocation := some (ActiveFunction.overlay p.alloc p.augAlloc) }

/-- **The state after a commit.** -/
def merged (s : Allocator) (f : Fid) (p : Parts) : Allocator :=
  { s with
    allocationMap := fun i =>
      if fidAugmentation ∈ s.allocationMap i then
        insert f ((s.allocationMap i).erase fidAugmentation)
      else s.allocationMap i
    revAllocationMap := (s.revAllocationMap.set f (p.listed ++ p.augListed)).erase fidAugmentation
    activeFuncs := (s.activeFuncs.set f p.augmented).erase fidAugmentation
    allocationMatrix := fun i => (s.allocationMatrix i).map (takeOver f) }

variable {p : Parts}

/-- **A commit has a closed form.** -/
theorem commit_eq (hp : PartsOf s f p) : commitAugmentedAllocation f s = .ok ⟨⟩ (s.merged f p) := by
  unfold commitAugmentedAllocation mergeRev
  simp only [hp.base, hp.aug, hp.alloc, hp.augAlloc, hp.listed, hp.augListed]
  rfl

theorem mem_allocationMap_merged {g : Fid} {i : Stage} :
    g ∈ (s.merged f p).allocationMap i ↔
      (g = f ∧ fidAugmentation ∈ s.allocationMap i) ∨
        (g ≠ fidAugmentation ∧ g ∈ s.allocationMap i) := by
  unfold merged
  dsimp only
  split_ifs with ha
  · rw [Finset.mem_insert, Finset.mem_erase]
    exact or_congr (iff_self_and.2 fun _ => ha) Iff.rfl
  · constructor
    · exact fun hg => .inr ⟨fun heq => ha (heq ▸ hg), hg⟩
    · rintro (⟨-, ha'⟩ | ⟨-, hg⟩)
      · exact absurd ha' ha
      · exact hg

theorem get?_activeFuncs_merged (g : Fid) : (s.merged f p).activeFuncs.get? g =
    if g = fidAugmentation then none
    else if g = f then some p.augmented
    else s.activeFuncs.get? g := by
  rw [merged, Dict.get?_erase, Dict.get?_set]

theorem get?_revAllocationMap_merged (g : Fid) : (s.merged f p).revAllocationMap.get? g =
    if g = fidAugmentation then none
    else if g = f then some (p.listed ++ p.augListed)
    else s.revAllocationMap.get? g := by
  rw [merged, Dict.get?_erase, Dict.get?_set]

/-- The demands of the others. -/
theorem getMinDemand_merged_of_ne {g : Fid} (hgf : g ≠ f) (hga : g ≠ fidAugmentation) (i : Stage) :
    (s.merged f p).getMinDemand g i = s.getMinDemand g i := by
  simp only [getMinDemand, get?_activeFuncs_merged, if_neg hgf, if_neg hga]

/-- The accesses of the base function and its addition, where they overlap those of the addition. -/
theorem get?_overlay (alloc augAlloc : Dict Stage ℕ) (i : Stage) :
    (ActiveFunction.overlay alloc augAlloc).get? i =
      (augAlloc.get? i).orElse fun _ => alloc.get? i := by
  ext k
  rw [ActiveFunction.overlay, Dict.get?_foldl_set Prod.fst Prod.snd augAlloc.nodup]
  cases ha : augAlloc.get? i with
  | none =>
      have hnot : ∀ p ∈ augAlloc.items, p.1 ≠ i := by
        rintro ⟨j, l⟩ hp rfl
        rw [Dict.mem_items_iff, ha] at hp
        cases hp
      constructor
      · rintro (⟨p, hp, heq, -⟩ | ⟨-, h⟩)
        · exact absurd heq (hnot p hp)
        · exact h
      · exact fun h => .inr ⟨hnot, h⟩
  | some l =>
      have hmem := (Dict.mem_items_iff _ _ _).2 ha
      constructor
      · rintro (⟨⟨j, l'⟩, hp, rfl, rfl⟩ | ⟨hnot, -⟩)
        · rw [Dict.mem_items_iff, ha] at hp
          exact hp
        · exact absurd rfl (hnot _ hmem)
      · rintro h
        exact .inl ⟨_, hmem, rfl, Option.some.inj h⟩

/-- **The demand of the base function at a stage of its addition** is the one at the old index. -/
theorem getMinDemand_merged_aug (hne : f ≠ fidAugmentation) {i : Stage} {k : ℕ}
    (hk : p.augAlloc.get? i = some k) {d : ℕ} :
    (s.merged f p).getMinDemand f i = .ok d ↔ (p.base.minDemand ++ p.aug.minDemand)[k]? = some d := by
  have hget : (s.merged f p).activeFuncs.get? f = some p.augmented := by
    rw [get?_activeFuncs_merged, if_neg hne, if_pos rfl]
  have hover := get?_overlay p.alloc p.augAlloc i
  rw [hk] at hover
  rw [getMinDemand_eq_ok_iff]
  constructor
  · rintro ⟨af, alloc, k', haf, halloc, hk', hd⟩
    obtain rfl := Option.some.inj (hget.symm.trans haf)
    obtain rfl := Option.some.inj halloc
    obtain rfl := Option.some.inj (hover.symm.trans hk')
    exact hd
  · exact fun hd => ⟨_, _, k, hget, rfl, hover, hd⟩

/-- Its demand at a stage that the addition does not have is the one it had. -/
theorem getMinDemand_merged_base (hne : f ≠ fidAugmentation) (hp : PartsOf s f p) {i : Stage}
    (hk : p.augAlloc.get? i = none) {d : ℕ} (hd : s.getMinDemand f i = .ok d) :
    (s.merged f p).getMinDemand f i = .ok d := by
  have hget : (s.merged f p).activeFuncs.get? f = some p.augmented := by
    rw [get?_activeFuncs_merged, if_neg hne, if_pos rfl]
  have hover := get?_overlay p.alloc p.augAlloc i
  rw [hk] at hover
  obtain ⟨af, alloc, k, haf, halloc, hk', hd'⟩ := getMinDemand_eq_ok_iff.1 hd
  obtain rfl := Option.some.inj (hp.base.symm.trans haf)
  obtain rfl := Option.some.inj (hp.alloc.symm.trans halloc)
  refine getMinDemand_eq_ok_iff.2 ⟨_, _, k, hget, rfl, hover.trans hk', ?_⟩
  have hlt : k < p.base.minDemand.length := (List.getElem?_eq_some_iff.1 hd').1
  exact (List.getElem?_append_left hlt).trans hd'

end Merged

/-! ### Consistent up to the order of the stages -/

/-- The state with the stages of each function listed in order. -/
def inOrder (s : Allocator) : Allocator := { s with revAllocationMap := reverseMap s.allocationMap }

/-- **Consistent up to the order in which the stages of a function are listed**; and what a function
knows about its stages is about stages that it holds. -/
structure Regular (cfg : AllocatorConfig) (s : Allocator) : Prop where
  consistent : Consistent cfg s.inOrder
  listed : ∀ g i, g ∈ s.allocationMap i →
    ∃ l, s.revAllocationMap.get? g = some l ∧ l.Perm (stagesOf s.allocationMap g)
  unlisted : ∀ g, (∀ i, g ∉ s.allocationMap i) → s.revAllocationMap.get? g = none
  known : ∀ g af alloc i k, s.activeFuncs.get? g = some af → af.allocation = some alloc →
    alloc.get? i = some k → g ∈ s.allocationMap i

section Regular

variable {cfg : AllocatorConfig} {s t : Allocator} {f : Fid}

theorem Regular.tenants_eq (hs : Regular cfg s) (i : Stage) :
    tenants (s.allocationMatrix i) = s.allocationMap i := hs.consistent.tenants_eq i

theorem Regular.demand_ok (hs : Regular cfg s) {g : Fid} {i : Stage} (hg : g ∈ s.allocationMap i) :
    s.getMinDemand g i = .ok (s.demand i g) := (hs.consistent.demand_ok i g hg).1

theorem Regular.occupied (hs : Regular cfg s) (i : Stage) :
    i ∈ s.allocation ↔ s.allocationMap i ≠ ∅ := hs.consistent.occupied i

theorem Regular.active (hs : Regular cfg s) (g : Fid) :
    g ∈ s.activeFuncs.keys ↔ ∃ i, g ∈ s.allocationMap i := hs.consistent.active g

theorem Regular.ne_zero (hs : Regular cfg s) (hf : f ∈ s.activeFuncs.keys) : f ≠ 0 :=
  hs.consistent.ne_zero ((hs.active f).1 hf)

/-- A consistent state is one when its stages are listed anew. -/
theorem Consistent.inOrder (hs : Consistent cfg s) : Consistent cfg s.inOrder :=
  ⟨⟨⟨hs.zero_notMem, hs.tenants_eq, hs.demand_ok, get?_reverseMap s.allocationMap, hs.occupied⟩,
    hs.geometry⟩, hs.active⟩

/-- A consistent state is regular. -/
theorem Consistent.regular (hs : Consistent cfg s)
    (hknown : ∀ g af alloc i k, s.activeFuncs.get? g = some af → af.allocation = some alloc →
      alloc.get? i = some k → g ∈ s.allocationMap i) : Regular cfg s := by
  refine ⟨hs.inOrder, fun g i hg => ?_, fun g hg => ?_, hknown⟩
  · have hrev := hs.rev g
    rw [if_neg (List.ne_nil_of_mem (mem_stagesOf.2 hg))] at hrev
    exact ⟨_, hrev, List.Perm.refl _⟩
  · have hnil : stagesOf s.allocationMap g = [] :=
      List.eq_nil_iff_forall_not_mem.2 fun i hi => hg i (mem_stagesOf.1 hi)
    rw [hs.rev g, if_pos hnil]

theorem regular_init (cfg : AllocatorConfig) : Regular cfg (init cfg) :=
  (consistent_init cfg).regular fun _ _ _ _ _ haf => nomatch haf

/-- **An arrival lists the stages anew.** -/
theorem Regular.arrive (hs : Regular cfg s) {af : ActiveFunction} (ha : Arrival s af) {b : Bool}
    (h : Allocator.arrive cfg af s = .ok b t) :
    Regular cfg t ∧ ∀ g ∈ s.activeFuncs.keys, g ∈ t.activeFuncs.keys := by
  cases hc : computeAllocation cfg af s with
  | error ex s₁ => simp [Allocator.arrive, hc] at h
  | ok r s₁ =>
      cases r with
      | none =>
          simp only [Allocator.arrive, hc, EStateM.Result.ok.injEq] at h
          obtain ⟨-, rfl⟩ := h
          obtain rfl := computeAllocation_none ha.fresh hc
          exact ⟨⟨hs.consistent.mark _ _, hs.listed, hs.unlisted, hs.known⟩, fun g hg => hg⟩
      | some ch =>
          obtain ⟨⟨-, hv, -⟩, -⟩ := computeAllocation_some hc
          have hnew : Newcomer s af :=
            ⟨ha.built, fun i hi => ha.fresh ((hs.active _).2 ⟨i, hi⟩), ha.pos, ha.demands⟩
          have hr : Ready cfg (s.register af ch.optimal)
              (arrivalMap s.allocationMap af.fid ch.optimal) := by
            have hnew' : Newcomer s.inOrder af := ⟨hnew.built, hnew.absent, hnew.pos, hnew.demands⟩
            have hr := hs.consistent.ready hnew' hv
            exact ⟨hr.geometry, hr.demand_ok, hr.zero_notMem, hr.tenants_subset, hr.arrivals⟩
          obtain ⟨new, t', -, hsw, rfl, hcoh⟩ := hr.arrive_of_choice hc hs.occupied h
          have hactive := hsw.active hnew hv hs.active
          have hfun : t'.activeFuncs =
              s.activeFuncs.set af.fid { af with allocation := some (accessMap ch.optimal) } := by
            rw [hsw.state]
            rfl
          constructor
          · refine Consistent.regular ⟨hcoh, hactive⟩ ?_
            intro g af' alloc i k haf halloc hk
            change t'.activeFuncs.get? g = some af' at haf
            change g ∈ arrivalMap s.allocationMap af.fid ch.optimal i
            rw [hfun, Dict.get?_set] at haf
            unfold arrivalMap
            split_ifs at haf with hg
            · obtain rfl := Option.some.inj haf
              obtain rfl := Option.some.inj halloc
              have hi := (get?_accessMap (hnew.wellFormed.nodup _ hv)).1 hk
              rw [if_pos (List.mem_of_getElem? hi), hg]
              exact Finset.mem_insert_self _ _
            · have hmem := hs.known g af' alloc i k haf halloc hk
              split_ifs
              · exact Finset.mem_insert_of_mem hmem
              · exact hmem
          · intro g hg
            change g ∈ t'.activeFuncs.keys
            rw [hfun, Dict.mem_keys_set]
            exact .inr hg

/-- **A departure succeeds**, and keeps the state regular. -/
theorem Regular.depart (hs : Regular cfg s) (hf : f ∈ s.activeFuncs.keys) :
    deallocate f s = .ok true (s.departed f) ∧ Regular cfg (s.departed f) := by
  obtain ⟨i, hi⟩ := (hs.active f).1 hf
  obtain ⟨l, hl, hperm⟩ := hs.listed f i hi
  refine ⟨deallocate_listed hf hl hperm (fun i hi => hs.demand_ok hi) hs.tenants_eq hs.occupied,
    (hs.consistent.departed hf).inOrder, ?_, ?_, ?_⟩
  · intro g i hg
    rw [allocationMap_departed, Finset.mem_erase] at hg
    obtain ⟨l, hl, hperm⟩ := hs.listed g i hg.2
    refine ⟨l, ?_, ?_⟩
    · rw [departed, Dict.get?_erase, if_neg hg.1, hl]
    · rw [stagesOf_departed, if_neg hg.1]
      exact hperm
  · intro g hg
    rw [departed, Dict.get?_erase]
    split_ifs with hgf
    · rfl
    · refine hs.unlisted g fun i hi => hg i ?_
      rw [allocationMap_departed]
      exact Finset.mem_erase.2 ⟨hgf, hi⟩
  · intro g af alloc i k haf halloc hk
    rw [departed, Dict.get?_erase] at haf
    split_ifs at haf with hgf
    rw [allocationMap_departed]
    exact Finset.mem_erase.2 ⟨hgf, hs.known g af alloc i k haf halloc hk⟩

end Regular

/-! ### A commit of functions that can be merged -/

section Commit

variable {cfg : AllocatorConfig} {s t : Allocator} {f : Fid} {p : Parts}

/-- A function that is placed has a record that says where. -/
theorem Regular.exists_record (hs : Regular cfg s) (hf : f ∈ s.activeFuncs.keys) :
    ∃ af alloc l, s.activeFuncs.get? f = some af ∧ af.allocation = some alloc ∧
      s.revAllocationMap.get? f = some l := by
  obtain ⟨i, hi⟩ := (hs.active f).1 hf
  obtain ⟨af, alloc, -, haf, halloc, -⟩ := getMinDemand_eq_ok_iff.1 (hs.demand_ok hi)
  obtain ⟨l, hl, -⟩ := hs.listed f i hi
  exact ⟨af, alloc, l, haf, halloc, hl⟩

theorem Regular.exists_parts (hs : Regular cfg s) (hf : BothResident s f) :
    ∃ p, PartsOf s f p := by
  obtain ⟨base, alloc, l, hbase, halloc, hl⟩ := hs.exists_record hf.base
  obtain ⟨aug, augAlloc, al, haug, haugAlloc, hal⟩ := hs.exists_record hf.aug
  exact ⟨⟨base, aug, alloc, augAlloc, l, al⟩, hbase, haug, halloc, haugAlloc, hl, hal⟩

/-- The stages of the two. -/
theorem Regular.mem_listed (hs : Regular cfg s) {g : Fid} {l : List Stage}
    (hl : s.revAllocationMap.get? g = some l) : l.Perm (stagesOf s.allocationMap g) := by
  by_cases hg : ∃ i, g ∈ s.allocationMap i
  · obtain ⟨i, hi⟩ := hg
    obtain ⟨l', hl', hperm⟩ := hs.listed g i hi
    obtain rfl := Option.some.inj (hl.symm.trans hl')
    exact hperm
  · rw [hs.unlisted g fun i hi => hg ⟨i, hi⟩] at hl
    cases hl

/-- The access of a stage that the addition does not hold is the one of the base function. -/
theorem Regular.augAlloc_eq_none (hs : Regular cfg s) (hp : PartsOf s f p) {i : Stage}
    (hi : fidAugmentation ∉ s.allocationMap i) : p.augAlloc.get? i = none := by
  cases hk : p.augAlloc.get? i with
  | none => rfl
  | some k => exact absurd (hs.known _ _ _ i k hp.aug hp.augAlloc hk) hi

/-- The demand of the addition at a stage is the one at its index. -/
theorem Regular.augDemand (hs : Regular cfg s) (hp : PartsOf s f p) {i : Stage}
    (hi : fidAugmentation ∈ s.allocationMap i) :
    ∃ k, p.augAlloc.get? i = some k ∧ p.aug.minDemand[k]? = some (s.demand i fidAugmentation) := by
  obtain ⟨af, alloc, k, haf, halloc, hk, hd⟩ := getMinDemand_eq_ok_iff.1 (hs.demand_ok hi)
  obtain rfl := Option.some.inj (hp.aug.symm.trans haf)
  obtain rfl := Option.some.inj (hp.augAlloc.symm.trans halloc)
  exact ⟨k, hk, hd⟩

/-- **Functions that can be merged keep their demands.** -/
theorem Regular.demands_merged (hs : Regular cfg s) (hne : f ≠ fidAugmentation) (hp : PartsOf s f p)
    (hm : Mergeable s f) (i : Stage) :
    (f ∈ s.allocationMap i → (s.merged f p).getMinDemand f i = .ok (s.demand i f)) ∧
      (fidAugmentation ∈ s.allocationMap i →
        (s.merged f p).getMinDemand f i = .ok (s.demand i fidAugmentation)) := by
  constructor
  · intro hi
    exact getMinDemand_merged_base hne hp (hs.augAlloc_eq_none hp (hm.disjoint i hi)) (hs.demand_ok hi)
  · intro hi
    obtain ⟨k, hk, hd⟩ := hs.augDemand hp hi
    rw [getMinDemand_merged_aug hne hk, hm.demands _ hp.base _ hp.aug _ hp.augAlloc i k hk]
    exact hd

/-- Where a function of a stage comes from, and that its demand is the one it had there. -/
theorem Regular.demand_merged (hs : Regular cfg s) (hne : f ≠ fidAugmentation) (hp : PartsOf s f p)
    (hm : Mergeable s f) {i : Stage} {g : Fid} (hg : g ∈ (s.merged f p).allocationMap i) :
    ∃ g₀ ∈ s.allocationMap i, (s.merged f p).getMinDemand g i = .ok (s.demand i g₀) := by
  rcases mem_allocationMap_merged.1 hg with ⟨rfl, ha⟩ | ⟨hga, hgs⟩
  · exact ⟨_, ha, (hs.demands_merged hne hp hm i).2 ha⟩
  · refine ⟨g, hgs, ?_⟩
    by_cases hgf : g = f
    · subst hgf
      exact (hs.demands_merged hne hp hm i).1 hgs
    · rw [getMinDemand_merged_of_ne hgf hga]
      exact hs.demand_ok hgs

/-- **The state after a commit is consistent** up to the order of the stages. -/
theorem Regular.consistent_merged (hs : Regular cfg s) (hf : BothResident s f) (hp : PartsOf s f p)
    (hm : Mergeable s f) : Consistent cfg (s.merged f p).inOrder := by
  have hf0 : f ≠ 0 := hs.ne_zero hf.base
  have hten : ∀ i, tenants ((s.allocationMatrix i).map (takeOver f)) =
      (s.merged f p).allocationMap i := by
    intro i
    ext g
    rw [mem_tenants_takeOver hf0, hs.tenants_eq i, mem_allocationMap_merged]
  have hdem : ∀ i, ∀ g ∈ (s.merged f p).allocationMap i,
      (s.merged f p).getMinDemand g i = .ok ((s.merged f p).demand i g) ∧
        1 ≤ (s.merged f p).demand i g := by
    intro i g hg
    obtain ⟨g₀, hg₀, hd⟩ := hs.demand_merged hf.ne hp hm hg
    rw [demand_eq hd]
    exact ⟨hd, (hs.consistent.demand_ok i g₀ hg₀).2⟩
  refine ⟨⟨⟨?_, hten, hdem, get?_reverseMap _, ?_⟩, ?_⟩, ?_⟩
  · intro i h0
    rcases (mem_allocationMap_merged (p := p)).1 h0 with ⟨h0, -⟩ | ⟨-, h0⟩
    · exact hf0 h0.symm
    · exact hs.consistent.zero_notMem i h0
  · intro i
    refine (hs.occupied i).trans ?_
    rw [← Finset.nonempty_iff_ne_empty, ← Finset.nonempty_iff_ne_empty]
    constructor
    · rintro ⟨g, hg⟩
      by_cases hga : g = fidAugmentation
      · exact ⟨f, (mem_allocationMap_merged (p := p)).2 (.inl ⟨rfl, hga ▸ hg⟩)⟩
      · exact ⟨g, (mem_allocationMap_merged (p := p)).2 (.inr ⟨hga, hg⟩)⟩
    · rintro ⟨g, hg⟩
      rcases (mem_allocationMap_merged (p := p)).1 hg with ⟨-, ha⟩ | ⟨-, hg⟩
      · exact ⟨_, ha⟩
      · exact ⟨g, hg⟩
  · intro i
    refine (hs.consistent.geometry i).takeOver hf0 ?_ ?_ ?_
    · rintro ⟨hb, ha⟩
      change f ∈ tenants (s.allocationMatrix i) at hb
      change fidAugmentation ∈ tenants (s.allocationMatrix i) at ha
      rw [hs.tenants_eq i] at hb ha
      exact hm.disjoint i hb ha
    · intro ha
      change fidAugmentation ∈ tenants (s.allocationMatrix i) at ha
      rw [hs.tenants_eq i] at ha
      exact demand_eq ((hs.demands_merged hf.ne hp hm i).2 ha)
    · intro g hg hga
      change g ∈ tenants (s.allocationMatrix i) at hg
      rw [hs.tenants_eq i] at hg
      by_cases hgf : g = f
      · subst hgf
        exact demand_eq ((hs.demands_merged hf.ne hp hm i).1 hg)
      · refine demand_eq ((getMinDemand_merged_of_ne hgf hga i).trans (hs.demand_ok hg))
  · intro g
    change g ∈ (s.merged f p).activeFuncs.keys ↔ ∃ i, g ∈ (s.merged f p).allocationMap i
    have hkeys : g ∈ (s.merged f p).activeFuncs.keys ↔
        g ≠ fidAugmentation ∧ (g = f ∨ g ∈ s.activeFuncs.keys) := by
      rw [merged, Dict.mem_keys_erase, Dict.mem_keys_set]
    rw [hkeys, hs.active g]
    simp only [mem_allocationMap_merged]
    constructor
    · rintro ⟨hga, rfl | ⟨i, hi⟩⟩
      · obtain ⟨i, hi⟩ := (hs.active g).1 hf.base
        exact ⟨i, .inr ⟨hga, hi⟩⟩
      · exact ⟨i, .inr ⟨hga, hi⟩⟩
    · rintro ⟨i, ⟨rfl, -⟩ | ⟨hga, hi⟩⟩
      · exact ⟨hf.ne, .inl rfl⟩
      · exact ⟨hga, .inr ⟨i, hi⟩⟩

/-- The stages of both are listed, each once. -/
theorem Regular.perm_listed (hs : Regular cfg s) (hne : f ≠ fidAugmentation) (hp : PartsOf s f p)
    (hm : Mergeable s f) :
    (p.listed ++ p.augListed).Perm (stagesOf (s.merged f p).allocationMap f) := by
  have hbase := hs.mem_listed hp.listed
  have haug := hs.mem_listed hp.augListed
  have hnodup : (p.listed ++ p.augListed).Nodup := by
    refine List.nodup_append.2 ⟨hbase.nodup_iff.2 (nodup_stages.filter _),
      haug.nodup_iff.2 (nodup_stages.filter _), ?_⟩
    rintro i hi j hj rfl
    exact hm.disjoint i (mem_stagesOf.1 (hbase.mem_iff.1 hi)) (mem_stagesOf.1 (haug.mem_iff.1 hj))
  have hmerged : (stagesOf (s.merged f p).allocationMap f).Nodup := nodup_stages.filter _
  refine (List.perm_ext_iff_of_nodup hnodup hmerged).2 fun i => ?_
  rw [List.mem_append, hbase.mem_iff, haug.mem_iff, mem_stagesOf, mem_stagesOf, mem_stagesOf,
    mem_allocationMap_merged, or_comm]
  exact or_congr (and_iff_right rfl).symm (and_iff_right hne).symm

/-- The stages of the others are where they were. -/
theorem stagesOf_merged_of_ne {g : Fid} (hgf : g ≠ f) (hga : g ≠ fidAugmentation) :
    stagesOf (s.merged f p).allocationMap g = stagesOf s.allocationMap g := by
  refine List.filter_congr fun i _ => ?_
  rw [decide_eq_decide, mem_allocationMap_merged]
  exact ⟨fun h => (h.resolve_left fun h => hgf h.1).2, fun h => .inr ⟨hga, h⟩⟩

/-- **A commit keeps the state regular.** -/
theorem Regular.commit (hs : Regular cfg s) (hf : BothResident s f) (hp : PartsOf s f p)
    (hm : Mergeable s f) : Regular cfg (s.merged f p) := by
  refine ⟨hs.consistent_merged hf hp hm, ?_, ?_, ?_⟩
  · intro g i hg
    rw [get?_revAllocationMap_merged]
    rcases mem_allocationMap_merged.1 hg with ⟨rfl, -⟩ | ⟨hga, hg⟩
    · rw [if_neg hf.ne, if_pos rfl]
      exact ⟨_, rfl, hs.perm_listed hf.ne hp hm⟩
    · rw [if_neg hga]
      split_ifs with hgf
      · subst hgf
        exact ⟨_, rfl, hs.perm_listed hf.ne hp hm⟩
      · rw [stagesOf_merged_of_ne hgf hga]
        exact hs.listed g i hg
  · intro g hg
    rw [get?_revAllocationMap_merged]
    split_ifs with hga hgf
    · rfl
    · subst hgf
      obtain ⟨i, hi⟩ := (hs.active g).1 hf.base
      exact absurd (mem_allocationMap_merged.2 (.inr ⟨hga, hi⟩)) (hg i)
    · exact hs.unlisted g fun i hi => hg i (mem_allocationMap_merged.2 (.inr ⟨hga, hi⟩))
  · intro g af alloc i k haf halloc hk
    rw [get?_activeFuncs_merged] at haf
    rw [mem_allocationMap_merged]
    split_ifs at haf with hga hgf
    · subst hgf
      obtain rfl := Option.some.inj haf
      obtain rfl := Option.some.inj halloc
      rw [get?_overlay] at hk
      cases ha : p.augAlloc.get? i with
      | some l => exact .inl ⟨rfl, hs.known _ _ _ i l hp.aug hp.augAlloc ha⟩
      | none =>
          rw [ha] at hk
          exact .inr ⟨hga, hs.known _ _ _ i k hp.base hp.alloc hk⟩
    · exact .inr ⟨hga, hs.known g af alloc i k haf halloc hk⟩

end Commit

/-! ### Runs -/

section Runs

variable {cfg : AllocatorConfig} {s t : Allocator} {f : Fid} {o : AugmentOp} {ops : List AugmentOp}

/-- **Every operation keeps the state regular**, and a function resident unless it is the one that
departs. -/
theorem Regular.step (hs : Regular cfg s) (h : MergeStep cfg s o t) : Regular cfg t ∧
    ∀ g ∈ s.activeFuncs.keys, g ≠ fidAugmentation → o ≠ .op (.depart g) → g ∈ t.activeFuncs.keys := by
  obtain ⟨h, hm⟩ := h
  cases o with
  | op o =>
      obtain ⟨hop, b, h⟩ := h
      cases o with
      | arrive af =>
          obtain ⟨ht, hkeys⟩ := hs.arrive hop h
          exact ⟨ht, fun g hg _ _ => hkeys g hg⟩
      | depart f =>
          by_cases hf : f ∈ s.activeFuncs.keys
          · obtain ⟨hdep, ht⟩ := hs.depart hf
            obtain ⟨-, rfl⟩ := EStateM.Result.ok.inj (hdep.symm.trans h)
            refine ⟨ht, fun g hg _ hne => ?_⟩
            rw [departed, Dict.mem_keys_erase]
            exact ⟨fun heq => hne (heq ▸ rfl), hg⟩
          · obtain ⟨-, rfl⟩ := EStateM.Result.ok.inj ((deallocate_of_notMem hf).symm.trans h)
            exact ⟨hs, fun g hg _ _ => hg⟩
  | commit f =>
      obtain ⟨hf, h⟩ := h
      obtain ⟨p, hp⟩ := hs.exists_parts hf
      obtain ⟨-, rfl⟩ := EStateM.Result.ok.inj ((commit_eq hp).symm.trans h)
      refine ⟨hs.commit hf hp (hm f rfl), fun g hg hga _ => ?_⟩
      rw [merged, Dict.mem_keys_erase, Dict.mem_keys_set]
      exact ⟨hga, .inr hg⟩

theorem Regular.run (hs : Regular cfg s) (h : Run (MergeStep cfg) s ops t) : Regular cfg t :=
  h.invariant (fun _ _ _ hs hstep => (hs.step hstep).1) hs

/-- A function stays until it departs. -/
theorem Regular.mem_run (hs : Regular cfg s) (h : Run (MergeStep cfg) s ops t)
    (hf : f ∈ s.activeFuncs.keys) (hne : f ≠ fidAugmentation) (hops : .op (.depart f) ∉ ops) :
    f ∈ t.activeFuncs.keys := by
  induction h with
  | nil => exact hf
  | snoc hrun hop ih =>
      rw [List.mem_append, List.mem_singleton, not_or] at hops
      exact ((hs.run hrun).step hop).2 f (ih hops.1) hne (Ne.symm hops.2)

/-- **A function that departs gives back its blocks.** -/
theorem Regular.frees (hs : Regular cfg s) (hf : f ∈ s.activeFuncs.keys) :
    ∃ t, deallocate f s = .ok true t ∧ ∀ i, f ∉ t.allocationMap i ∧ f ∉ t.allocationMatrix i := by
  have hf0 := hs.ne_zero hf
  obtain ⟨hdep, ht⟩ := hs.depart hf
  refine ⟨_, hdep, fun i => ?_⟩
  have hmap : f ∉ (s.departed f).allocationMap i := by
    rw [allocationMap_departed]
    exact Finset.notMem_erase _ _
  refine ⟨hmap, fun hmem => hmap ?_⟩
  rw [← ht.tenants_eq i, mem_tenants_iff_mem (Nat.pos_of_ne_zero hf0)]
  exact hmem

/-- **What a commit of functions that can be merged achieves.** -/
theorem Regular.committed (hs : Regular cfg s) (hf : BothResident s f) {p : Parts} (hp : PartsOf s f p)
    (hm : Mergeable s f) : Committed cfg s f (s.merged f p) where
  held := by
    rintro i (hi | hi)
    · exact mem_allocationMap_merged.2 (.inr ⟨hf.ne, hi⟩)
    · exact mem_allocationMap_merged.2 (.inl ⟨rfl, hi⟩)
  blocks := by
    intro i k h
    change owner ((s.allocationMatrix i).map (takeOver f)) k = f
    rw [owner_takeOver]
    rcases h with h | h
    · rw [h, takeOver_of_ne hf.ne]
    · rw [h, takeOver_self]
  demands := by
    intro i
    obtain ⟨hbase, haug⟩ := hs.demands_merged hf.ne hp hm i
    exact ⟨fun hi => (hbase hi).trans (hs.demand_ok hi).symm,
      fun hi => (haug hi).trans (hs.demand_ok hi).symm⟩
  listed := by
    have hperm := hs.perm_listed hf.ne hp hm
    refine ⟨p.listed ++ p.augListed, ?_, fun i hi => ?_⟩
    · rw [get?_revAllocationMap_merged, if_neg hf.ne, if_pos rfl]
    · rw [hperm.count_eq]
      refine List.count_eq_one_of_mem (nodup_stages.filter _) ?_
      rw [mem_stagesOf, mem_allocationMap_merged]
      rcases hi with hi | hi
      · exact .inr ⟨hf.ne, hi⟩
      · exact .inl ⟨rfl, hi⟩
  gone := by
    refine ⟨?_, ?_, fun i => ⟨?_, ?_⟩⟩
    · rw [merged, Dict.mem_keys_erase]
      exact fun h => h.1 rfl
    · rw [merged, Dict.mem_keys_erase]
      exact fun h => h.1 rfl
    · rw [mem_allocationMap_merged]
      rintro (⟨heq, -⟩ | ⟨hne, -⟩)
      · exact hf.ne heq.symm
      · exact hne rfl
    · intro hmem
      obtain ⟨x, -, hx⟩ := List.mem_map.1 hmem
      exact takeOver_ne hf.ne x hx
  departs := by
    intro ops u hrun hops
    have ht := hs.commit hf hp hm
    have hft : f ∈ (s.merged f p).activeFuncs.keys := by
      rw [merged, Dict.mem_keys_erase, Dict.mem_keys_set]
      exact ⟨hf.ne, .inl rfl⟩
    exact (ht.run hrun).frees (ht.mem_run hrun hft hf.ne hops)

/-- **A commit that achieves it is of functions that can be merged**: a stage of both would be listed
twice, and an index at which the demand is another one would be read. -/
theorem Regular.mergeable (hs : Regular cfg s) (hf : BothResident s f) {p : Parts} (hp : PartsOf s f p)
    (h : Committed cfg s f (s.merged f p)) : Mergeable s f := by
  constructor
  · intro i hi ha
    obtain ⟨l, hl, hcount⟩ := h.listed
    rw [get?_revAllocationMap_merged, if_neg hf.ne, if_pos rfl] at hl
    obtain rfl := Option.some.inj hl
    have hbase : i ∈ p.listed := (hs.mem_listed hp.listed).mem_iff.2 (mem_stagesOf.2 hi)
    have haug : i ∈ p.augListed := (hs.mem_listed hp.augListed).mem_iff.2 (mem_stagesOf.2 ha)
    have htwo := hcount i (.inl hi)
    rw [List.count_append] at htwo
    have hb := List.count_pos_iff.2 hbase
    have ha := List.count_pos_iff.2 haug
    omega
  · intro base hbase aug haug augAlloc halloc i k hk
    obtain rfl := Option.some.inj (hp.base.symm.trans hbase)
    obtain rfl := Option.some.inj (hp.aug.symm.trans haug)
    obtain rfl := Option.some.inj (hp.augAlloc.symm.trans halloc)
    have hi := hs.known _ _ _ i k hp.aug hp.augAlloc hk
    obtain ⟨k', hk', hd⟩ := hs.augDemand hp hi
    obtain rfl := Option.some.inj (hk.symm.trans hk')
    have hdem := ((h.demands i).2 hi).trans (hs.demand_ok hi)
    rw [getMinDemand_merged_aug hf.ne hk] at hdem
    rw [hdem, hd]

/-- **When a commit does what it should**: in every run in which the functions of each commit could be
merged, a commit succeeds, and the base function takes over the addition exactly when the two can be
merged. -/
theorem committed_iff (h : Run (MergeStep cfg) (init cfg) ops s) (hf : BothResident s f) :
    ∃ t, commitAugmentedAllocation f s = .ok ⟨⟩ t ∧ (Committed cfg s f t ↔ Mergeable s f) := by
  have hs := (regular_init cfg).run h
  obtain ⟨p, hp⟩ := hs.exists_parts hf
  exact ⟨_, commit_eq hp, hs.mergeable hf hp, hs.committed hf hp⟩

/-- Runs of arrivals and departures can be evaluated. -/
theorem run_of_execute {ops : List Op} (h : execute cfg ops s = some t) :
    Run (MergeStep cfg) s (ops.map .op) t := by
  have hrun := run_iff_execute.2 h
  clear h
  induction hrun with
  | nil => exact Run.nil _
  | snoc _ hop ih =>
      rw [List.map_append]
      exact Run.snoc ih ⟨hop, fun _ h => nomatch h⟩

/-- A function with demand `d` at the first stage, and its addition with demand `d'` at stage `i`. -/
def functionAndAddition (d : ℕ) (i : Stage) (d' : ℕ) : List Op :=
  [.arrive (.singleAccess 1 0 d), .arrive (.singleAccess fidAugmentation i d')]

/-- An elastic function takes over an elastic addition at the next stage. -/
theorem committed_iff_elastic :
    ∃ s t, Run (MergeStep ⟨8, .cost, true, true⟩) (init ⟨8, .cost, true, true⟩)
        ((functionAndAddition 1 1 1).map .op) s ∧
      commitAugmentedAllocation 1 s = .ok ⟨⟩ t ∧ Committed ⟨8, .cost, true, true⟩ s 1 t := by
  have hex : (execute ⟨8, .cost, true, true⟩ (functionAndAddition 1 1 1)
      (init ⟨8, .cost, true, true⟩)).any (fun s => BothResident s 1 ∧ Mergeable s 1) = true := by
    decide +kernel
  obtain ⟨s, hs, hex⟩ := (Option.any_eq_true _ _).1 hex
  obtain ⟨hboth, hmerge⟩ := of_decide_eq_true hex
  obtain ⟨t, ht, hiff⟩ := committed_iff (run_of_execute hs) hboth
  exact ⟨s, t, run_of_execute hs, ht, hiff.2 hmerge⟩

/-- The state after a commit, if it succeeds. -/
def committedState (f : Fid) (s : Allocator) : Option Allocator :=
  match commitAugmentedAllocation f s with
  | .ok _ t => some t
  | .error _ _ => none

theorem commit_of_committedState (h : committedState f s = some t) :
    commitAugmentedAllocation f s = .ok ⟨⟩ t := by
  unfold committedState at h
  cases hc : commitAugmentedAllocation f s with
  | ok u t' =>
      rw [hc] at h
      exact congrArg _ (Option.some.inj h)
  | error failure t' =>
      rw [hc] at h
      cases h

/-- A departure that cannot be evaluated raises an exception. -/
theorem deallocate_of_execute (h : execute cfg [.depart f] s = none) :
    ∃ ex t, deallocate f s = .error ex t := by
  cases hd : deallocate f s with
  | ok b t =>
      have hstep : Step cfg s (.depart f) t := ⟨trivial, b, hd⟩
      rw [execute_singleton.2 hstep] at h
      cases h
  | error ex t => exact ⟨ex, t, rfl⟩

/-- **A demand that is lost, and a stage that is listed twice.**  The addition demands two blocks of the
second stage, and the function has a demand of three there afterwards; and a function whose addition is at
the same stage cannot depart. -/
theorem committed_wrong :
    (∃ s t, Run (AugmentStep ⟨8, .cost, true, true⟩) (init ⟨8, .cost, true, true⟩)
        ((functionAndAddition 3 1 2).map .op) s ∧ BothResident s 1 ∧
      commitAugmentedAllocation 1 s = .ok ⟨⟩ t ∧ s.getMinDemand fidAugmentation 1 = .ok 2 ∧
      t.getMinDemand 1 1 = .ok 3 ∧ ¬ Committed ⟨8, .cost, true, true⟩ s 1 t) ∧
    ∃ s t ex u, Run (AugmentStep ⟨8, .cost, true, true⟩) (init ⟨8, .cost, true, true⟩)
        ((functionAndAddition 1 0 1).map .op) s ∧ BothResident s 1 ∧
      commitAugmentedAllocation 1 s = .ok ⟨⟩ t ∧ t.revAllocationMap.get? 1 = some [0, 0] ∧
      deallocate 1 t = .error ex u ∧ ¬ Committed ⟨8, .cost, true, true⟩ s 1 t := by
  constructor
  · have hex : (execute ⟨8, .cost, true, true⟩ (functionAndAddition 3 1 2)
        (init ⟨8, .cost, true, true⟩)).any (fun s => (committedState 1 s).any fun t =>
          BothResident s 1 ∧ fidAugmentation ∈ s.allocationMap 1 ∧
            s.getMinDemand fidAugmentation 1 = .ok 2 ∧ t.getMinDemand 1 1 = .ok 3) = true := by
      decide +kernel
    obtain ⟨s, hs, hex⟩ := (Option.any_eq_true _ _).1 hex
    obtain ⟨t, ht, hex⟩ := (Option.any_eq_true _ _).1 hex
    obtain ⟨hboth, hmem, htwo, hthree⟩ := of_decide_eq_true hex
    refine ⟨s, t, (run_of_execute hs).mono fun _ _ _ h => h.1, hboth, commit_of_committedState ht, htwo,
      hthree, fun h => ?_⟩
    have heq := ((h.demands 1).2 hmem).symm.trans hthree
    rw [htwo] at heq
    exact absurd (Except.ok.inj heq) (by decide)
  · have hex : (execute ⟨8, .cost, true, true⟩ (functionAndAddition 1 0 1)
        (init ⟨8, .cost, true, true⟩)).any (fun s => (committedState 1 s).any fun t =>
          BothResident s 1 ∧ t.revAllocationMap.get? 1 = some [0, 0] ∧
            (execute ⟨8, .cost, true, true⟩ [.depart 1] t).isNone = true) = true := by
      decide +kernel
    obtain ⟨s, hs, hex⟩ := (Option.any_eq_true _ _).1 hex
    obtain ⟨t, ht, hex⟩ := (Option.any_eq_true _ _).1 hex
    obtain ⟨hboth, htwice, hnone⟩ := of_decide_eq_true hex
    obtain ⟨ex, u, hd⟩ := deallocate_of_execute (Option.isNone_iff_eq_none.1 hnone)
    refine ⟨s, t, ex, u, (run_of_execute hs).mono fun _ _ _ h => h.1, hboth, commit_of_committedState ht,
      htwice, hd, fun h => ?_⟩
    obtain ⟨u', hu', -⟩ := h.departs [] t (Run.nil t) List.not_mem_nil
    cases hd.symm.trans hu'

end Runs

end Allocator

end ActiveRmt
