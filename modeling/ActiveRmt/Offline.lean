/-
**Offline placement: all functions are placed anew.**

Each of a thousand iterations draws a variant for every active function, and once more for the function
that arrives.  The first draw of the least occupancy cost is kept.  But the function that arrives is
among the active ones already: two variants of it are drawn, both are counted, and both are put into the
map.

Main definitions:

* `Draws` — the random numbers;
* `getOccupancyCost`, `offlineSearch`, `computeAllocationOffline` — the offline branch of
  `computeAllocation`;
* `FirstLeast` — the iteration whose draw is kept;
* `PlacedAsCounted` — every function is on the stages of the variant that was counted for it.

Main results:

* `offlineSearch_some` — **the first draw of the least cost is kept**;
* `Listed.place` — what a variant adds to the map and to the function;
* `offline_iff` — **the placement is coherent exactly if the two variants of the arrival have the same
  stages**;
* `offline_two_variants` — a placement on the stages of two variants.
-/

import ActiveRmt.Arrivals
import ActiveRmt.Sharing

set_option relaxedAutoImplicit false
set_option autoImplicit false

namespace Dict

variable {κ α β : Type}

/-- The values of a dictionary, changed. -/
def mapValues (f : α → β) (d : Dict κ α) : Dict κ β :=
  ⟨d.items.map fun p => (p.1, f p.2), by rw [List.map_map]; exact d.nodup⟩

theorem get?_mapValues [DecidableEq κ] (f : α → β) (d : Dict κ α) (k : κ) :
    (d.mapValues f).get? k = (d.get? k).map f := by
  have key : ∀ l : List (κ × α), lookup k (l.map fun p => (p.1, f p.2)) = (lookup k l).map f := by
    intro l
    induction l with
    | nil => rfl
    | cons p l ih =>
        rw [List.map_cons, lookup, lookup]
        split_ifs
        · rfl
        · exact ih
  exact key d.items

end Dict

namespace ActiveRmt

/-! ### The first of the least -/

/-- The first of the indices below `n` with the least cost, of those that have a cost. -/
structure FirstLeast {ε : Type} (cost : ℕ → Except ε ℕ) (n i c : ℕ) : Prop where
  /-- It is one of them. -/
  lt : i < n
  /-- Its cost. -/
  cost_eq : cost i = .ok c
  /-- No cost is less. -/
  least : ∀ j < n, ∀ b, cost j = .ok b → c ≤ b
  /-- It is the first. -/
  first : ∀ j < i, ∀ b, cost j = .ok b → c < b

theorem FirstLeast.unique {ε : Type} {cost : ℕ → Except ε ℕ} {n i j c b : ℕ}
    (h : FirstLeast cost n i c) (h' : FirstLeast cost n j b) : i = j ∧ c = b := by
  have hle := h.least j h'.lt b h'.cost_eq
  have hge := h'.least i h.lt c h.cost_eq
  have hcb : c = b := le_antisymm hle hge
  rcases lt_trichotomy i j with hlt | heq | hgt
  · exact absurd (h'.first i hlt c h.cost_eq) (by omega)
  · exact ⟨heq, hcb⟩
  · exact absurd (h.first j hgt b h'.cost_eq) (by omega)

/-- One more index: it is the first if its cost is less than the least before. -/
theorem FirstLeast.succ {ε : Type} {cost : ℕ → Except ε ℕ} {n i c b : ℕ} (h : FirstLeast cost n i c)
    (hb : cost n = .ok b) :
    FirstLeast cost (n + 1) (if b < c then n else i) (if b < c then b else c) := by
  split_ifs with hlt
  · refine ⟨n.lt_succ_self, hb, fun j hj a ha => ?_, fun j hj a ha => ?_⟩
    · rcases Nat.lt_succ_iff_lt_or_eq.1 hj with hj | rfl
      · exact hlt.le.trans (h.least j hj a ha)
      · exact (Except.ok.inj (hb.symm.trans ha)).le
    · exact lt_of_lt_of_le hlt (h.least j hj a ha)
  · refine ⟨Nat.lt_succ_of_lt h.lt, h.cost_eq, fun j hj a ha => ?_, h.first⟩
    rcases Nat.lt_succ_iff_lt_or_eq.1 hj with hj | rfl
    · exact h.least j hj a ha
    · rw [← Except.ok.inj (hb.symm.trans ha)]
      exact not_lt.1 hlt

/-! ### The search -/

/-- The random numbers: `int(rng.random() * size)` of an iteration, at a position of the draw. -/
structure Draws where
  /-- The index. -/
  index : ℕ → ℕ → ℕ → ℕ
  /-- It is below the size. -/
  index_lt : ∀ iter i size, 0 < size → index iter i size < size

/-- `max_iter`. -/
def maxIter : ℕ := 1000

/-- `getVariant(idx, transformed=True)`; `None` behind the enumeration. -/
def ActiveFunction.getVariant (af : ActiveFunction) (idx : ℕ) : Option (List Stage) :=
  (af.enumeration[idx]?).map fun x => ascending (x.map stageOf).toFinset

namespace Allocator

/-- The functions that variants are drawn for: `fids`, and behind them the function that arrives. -/
def drawn (funcs : Dict Fid ActiveFunction) (af : ActiveFunction) : List (Fid × ActiveFunction) :=
  funcs.items ++ [(af.fid, af)]

/-- `X`: the indices drawn in an iteration. -/
def drawAt (rng : Draws) (funcs : Dict Fid ActiveFunction) (af : ActiveFunction) (iter : ℕ) : List ℕ :=
  (drawn funcs af).mapIdx fun i p => rng.index iter i p.2.enumeration.length

/-- The variants with the indices `X`; the loop over `None` fails. -/
def variantsOf : List (Fid × ActiveFunction) → List ℕ → Except Exn (List (Fid × List Stage))
  | p :: ps, x :: xs =>
      match p.2.getVariant x with
      | none => .error .typeError
      | some variant => (variantsOf ps xs).map ((p.1, variant) :: ·)
  | _, _ => .ok []

/-- `for stage in variant: occupancy[stage] += 1`, in 32-bit words. -/
def occupy (occupancy : Stage → ℕ) (variant : List Stage) : Stage → ℕ :=
  variant.foldl (fun o stage => Function.update o stage ((o stage + 1) % 2 ^ 32)) occupancy

/-- `np.sum(np.square(occupancy))`: the squares are 32-bit words and the sum is not. -/
def occupancyCost (variants : List (List Stage)) : ℕ :=
  (stages.map fun i => variants.foldl occupy (fun _ => 0) i ^ 2 % 2 ^ 32).sum

/-- **`getOccupancyCost`.** -/
def getOccupancyCost (funcs : Dict Fid ActiveFunction) (af : ActiveFunction) (X : List ℕ) :
    Except Exn ℕ :=
  (variantsOf (drawn funcs af) X).map fun vs => occupancyCost (vs.map Prod.snd)

/-- **The search**: the first draw of the least cost, with its cost, after `n` iterations. -/
def offlineSearch (rng : Draws) (funcs : Dict Fid ActiveFunction) (af : ActiveFunction) :
    ℕ → Except Exn (Option (List ℕ × ℕ))
  | 0 => .ok none
  | n + 1 => do
      let best ← offlineSearch rng funcs af n
      let X := drawAt rng funcs af n
      let value ← getOccupancyCost funcs af X
      match best with
      | none => .ok (some (X, value))
      | some (optimal, optimalValue) =>
          if value < optimalValue then .ok (some (X, value)) else .ok (some (optimal, optimalValue))

/-! ### The map -/

/-- What is built: the occupied stages, the map and the functions with their accesses. -/
structure Layout where
  /-- `allocation`. -/
  allocation : Finset Stage
  /-- `allocationMap`. -/
  allocationMap : Stage → Finset Fid
  /-- `activeFuncs`. -/
  activeFuncs : Dict Fid ActiveFunction

/-- One stage of a variant, with its position `k`. -/
def Layout.put (l : Layout) (fid : Fid) (idx : Stage) (k : ℕ) : Layout :=
  { allocation := insert idx l.allocation
    allocationMap := Function.update l.allocationMap idx (insert fid (l.allocationMap idx))
    activeFuncs :=
      match l.activeFuncs.get? fid with
      | none => l.activeFuncs
      | some f => l.activeFuncs.set fid
          { f with allocation := some ((f.allocation.getD Dict.empty).set idx k) } }

/-- The stages of a variant. -/
def Layout.place (l : Layout) (p : Fid × List Stage) : Layout :=
  p.2.zipIdx.foldl (fun l q => l.put p.1 q.1 q.2) l

/-- Before the first variant: every `allocation` is an empty dictionary. -/
def Layout.cleared (funcs : Dict Fid ActiveFunction) : Layout :=
  { allocation := ∅
    allocationMap := fun _ => ∅
    activeFuncs := funcs.mapValues fun f => { f with allocation := some Dict.empty } }

/-- **`computeAllocation` with `online=False`.** -/
def computeAllocationOffline (cfg : AllocatorConfig) (rng : Draws) (af : ActiveFunction) :
    EStateM Exn Allocator (Option Choice) := fun s₀ =>
  let s := s₀.entered af
  match offlineSearch rng s.activeFuncs af maxIter with
  | .error ex => .error ex s
  | .ok none => .ok none s
  | .ok (some (X, value)) =>
      match variantsOf (drawn s.activeFuncs af) X with
      | .error ex => .error ex s
      | .ok vs =>
          let l := vs.foldl Layout.place (Layout.cleared s.activeFuncs)
          .ok (some
            { optimal := (vs.getLast?.map Prod.snd).getD []
              optCost := value
              utilization := s.getUtilization cfg
              allocation := l.allocation
              allocationMap := l.allocationMap })
            { s with activeFuncs := l.activeFuncs }

/-- **Every function is placed as it was counted**: there is one variant of each for which the cost was
computed, its stages are those of the function in the map, and they are the keys of its `allocation`. -/
def PlacedAsCounted (funcs : Dict Fid ActiveFunction) (af : ActiveFunction) (ch : Choice)
    (t : Allocator) : Prop :=
  ∃ V : Fid → List Stage,
    ch.optCost = occupancyCost (funcs.keys.map V ++ [V af.fid]) ∧
    ∀ f g, funcs.get? f = some g →
      V f ∈ g.getEnumeration ∧ (∀ i, f ∈ ch.allocationMap i ↔ i ∈ V f) ∧
        ∃ h d, t.activeFuncs.get? f = some h ∧ h.allocation = some d ∧ ∀ i, i ∈ d.keys ↔ i ∈ V f

/-! ### The draws -/

section Search

variable {rng : Draws} {funcs : Dict Fid ActiveFunction} {af : ActiveFunction}

/-- The cost of the draw of an iteration. -/
def drawCost (rng : Draws) (funcs : Dict Fid ActiveFunction) (af : ActiveFunction) (iter : ℕ) :
    Except Exn ℕ :=
  getOccupancyCost funcs af (drawAt rng funcs af iter)

/-- The draw: the indices of the active functions, and a second one of the function that arrives. -/
theorem drawAt_eq (iter : ℕ) : drawAt rng funcs af iter =
    (funcs.items.mapIdx fun i p => rng.index iter i p.2.enumeration.length) ++
      [rng.index iter funcs.items.length af.enumeration.length] := by
  rw [drawAt, drawn, List.mapIdx_append]
  simp

/-- **The first draw of the least cost is kept.** -/
theorem offlineSearch_some {n : ℕ} {best : Option (List ℕ × ℕ)}
    (h : offlineSearch rng funcs af n = .ok best) :
    (n = 0 ∧ best = none) ∨ ∃ it c, best = some (drawAt rng funcs af it, c) ∧
      FirstLeast (drawCost rng funcs af) n it c := by
  induction n generalizing best with
  | zero => exact .inl ⟨rfl, (Except.ok.inj h).symm⟩
  | succ n ih =>
      right
      cases hprev : offlineSearch rng funcs af n with
      | error ex => simp [offlineSearch, hprev, bind, Except.bind] at h
      | ok prev =>
          cases hval : drawCost rng funcs af n with
          | error ex =>
              rw [drawCost] at hval
              simp [offlineSearch, hprev, hval, bind, Except.bind] at h
          | ok value =>
              have hval' := hval
              rw [drawCost] at hval'
              simp only [offlineSearch, hprev, hval', bind, Except.bind] at h
              rcases ih hprev with ⟨rfl, rfl⟩ | ⟨it, c, rfl, hfirst⟩
              · refine ⟨0, value, (Except.ok.inj h).symm, Nat.one_pos, hval, ?_, ?_⟩
                · intro j hj b hb
                  rw [Nat.lt_one_iff.1 hj, hval] at hb
                  exact (Except.ok.inj hb).le
                · exact fun j hj => absurd hj (Nat.not_lt_zero j)
              · have hnext := hfirst.succ hval
                dsimp only at h
                split_ifs at h hnext with hlt
                · exact ⟨n, value, (Except.ok.inj h).symm, hnext⟩
                · exact ⟨it, c, (Except.ok.inj h).symm, hnext⟩

/-- The search succeeds if every draw has a cost. -/
theorem exists_offlineSearch (n : ℕ) (h : ∀ j < n, ∃ c, drawCost rng funcs af j = .ok c) :
    ∃ best, offlineSearch rng funcs af n = .ok best := by
  induction n with
  | zero => exact ⟨none, rfl⟩
  | succ n ih =>
      obtain ⟨best, hbest⟩ := ih fun j hj => h j (Nat.lt_succ_of_lt hj)
      obtain ⟨c, hc⟩ := h n n.lt_succ_self
      rw [drawCost] at hc
      simp only [offlineSearch, hbest, hc, bind, Except.bind]
      cases best with
      | none => exact ⟨_, rfl⟩
      | some b =>
          dsimp only
          split_ifs
          · exact ⟨_, rfl⟩
          · exact ⟨_, rfl⟩

end Search

/-! ### The variants of a draw -/

section Variants

variable {ps : List (Fid × ActiveFunction)} {xs : List ℕ} {vs : List (Fid × List Stage)}

/-- **What the variants of a draw are.** -/
theorem variantsOf_ok (h : variantsOf ps xs = .ok vs) (hlen : xs.length = ps.length) :
    vs.map Prod.fst = ps.map Prod.fst ∧ ∀ (i : ℕ) (p : Fid × ActiveFunction) (x : ℕ), ps[i]? = some p →
      xs[i]? = some x → ∃ v, p.2.getVariant x = some v ∧ vs[i]? = some (p.1, v) := by
  induction ps generalizing xs vs with
  | nil =>
      cases xs with
      | nil =>
          obtain rfl : [] = vs := Except.ok.inj h
          simp
      | cons x xs => simp at hlen
  | cons p ps ih =>
      cases xs with
      | nil => simp at hlen
      | cons x xs =>
          rw [variantsOf] at h
          cases hv : p.2.getVariant x with
          | none => simp [hv] at h
          | some v =>
              rw [hv] at h
              cases hrest : variantsOf ps xs with
              | error ex => simp [hrest, Except.map] at h
              | ok ws =>
                  obtain rfl : (p.1, v) :: ws = vs := by simpa [hrest, Except.map] using h
                  obtain ⟨hfst, hget⟩ := ih hrest (by simpa using hlen)
                  refine ⟨by simp [hfst], fun i q y hq hy => ?_⟩
                  cases i with
                  | zero =>
                      obtain rfl : p = q := by simpa using hq
                      obtain rfl : x = y := by simpa using hy
                      exact ⟨v, hv, rfl⟩
                  | succ i => exact hget i q y (by simpa using hq) (by simpa using hy)

/-- The variants of a draw whose indices are below the sizes. -/
theorem exists_variantsOf (h : ∀ (i : ℕ) (p : Fid × ActiveFunction) (x : ℕ), ps[i]? = some p →
    xs[i]? = some x → x < p.2.enumeration.length) : ∃ vs, variantsOf ps xs = .ok vs := by
  induction ps generalizing xs with
  | nil => exact ⟨[], by cases xs <;> rfl⟩
  | cons p ps ih =>
      cases xs with
      | nil => exact ⟨[], rfl⟩
      | cons x xs =>
          have hx : x < p.2.enumeration.length := h 0 p x rfl rfl
          obtain ⟨ws, hws⟩ := ih fun i q y hq hy => h (i + 1) q y hq hy
          refine ⟨(p.1, ascending (p.2.enumeration[x].map stageOf).toFinset) :: ws, ?_⟩
          simp [variantsOf, ActiveFunction.getVariant, List.getElem?_eq_getElem hx, hws, Except.map]

end Variants

/-- A variant is one of the enumeration, and has as many stages as its program. -/
theorem mem_of_getVariant {af : ActiveFunction} {x : ℕ} {v : List Stage} (h : af.getVariant x = some v) :
    v ∈ af.getEnumeration := by
  obtain ⟨y, hy, rfl⟩ := Option.map_eq_some_iff.1 h
  exact List.mem_map.2 ⟨y, List.mem_of_getElem? hy, rfl⟩

/-- Variants are lists in order: they are the same if their stages are. -/
theorem eq_of_toFinset {af : ActiveFunction} {v w : List Stage} (hv : v ∈ af.getEnumeration)
    (hw : w ∈ af.getEnumeration) (h : v.toFinset = w.toFinset) : v = w := by
  obtain ⟨x, -, rfl⟩ := List.mem_map.1 hv
  obtain ⟨y, -, rfl⟩ := List.mem_map.1 hw
  have hset : ∀ z : Finset Stage, (ascending z).toFinset = z := fun z => by
    ext i
    simp
  rw [hset, hset] at h
  rw [h]

/-- **All variants that are kept have as many stages as the program.** -/
theorem length_of_mem_getEnumeration {af : ActiveFunction}
    (h : af.enumeration = ActiveFunction.enumerate af.accessIdx af.igLim af.progLen af.allowRecirculations)
    {v : List Stage} (hv : v ∈ af.getEnumeration) :
    v.toFinset.card = ((ActiveFunction.constrLB af.accessIdx).map stageOf).toFinset.card := by
  obtain ⟨y, hy, rfl⟩ := List.mem_map.1 hv
  rw [h, ActiveFunction.enumerate, ActiveFunction.prune, List.mem_filter] at hy
  have hcard := (Bool.and_eq_true _ _ ▸ hy.2).1
  rw [decide_eq_true_eq, ActiveFunction.length_keys_reuses] at hcard
  rw [← hcard]
  congr 1
  ext i
  simp

/-! ### What is listed -/

section Listed

variable {l : Layout} {f : Fid} {P : Stage → Prop}

/-- A function is in the map at certain stages, and these are the keys of its `allocation`. -/
def Listed (l : Layout) (f : Fid) (P : Stage → Prop) : Prop :=
  (∀ i, f ∈ l.allocationMap i ↔ P i) ∧
    ∃ h d, l.activeFuncs.get? f = some h ∧ h.allocation = some d ∧ ∀ i, i ∈ d.keys ↔ P i

theorem Listed.congr {Q : Stage → Prop} (h : Listed l f P) (hPQ : ∀ i, P i ↔ Q i) : Listed l f Q := by
  obtain rfl : P = Q := funext fun i => propext (hPQ i)
  exact h

/-- One stage more. -/
theorem Listed.put (h : Listed l f P) (fid : Fid) (idx : Stage) (k : ℕ) :
    Listed (l.put fid idx k) f fun i => P i ∨ (f = fid ∧ i = idx) := by
  obtain ⟨hmap, g, d, hg, hd, hkeys⟩ := h
  constructor
  · intro i
    rw [Layout.put]
    by_cases hi : i = idx
    · subst hi
      simp [hmap, or_comm]
    · simp [hmap, hi]
  · by_cases hf : f = fid
    · subst hf
      refine ⟨{ g with allocation := some ((g.allocation.getD Dict.empty).set idx k) }, _,
        by simp only [Layout.put, hg, Dict.get?_set, if_true], rfl, fun i => ?_⟩
      rw [hd, Option.getD_some, Dict.mem_keys_set, hkeys]
      tauto
    · refine ⟨g, d, ?_, hd, fun i => by simp [hkeys, hf]⟩
      rw [Layout.put]
      dsimp only
      split
      · exact hg
      · rw [Dict.get?_set, if_neg hf]
        exact hg

/-- **One variant more.** -/
theorem Listed.place (h : Listed l f P) (p : Fid × List Stage) :
    Listed (l.place p) f fun i => P i ∨ (f = p.1 ∧ i ∈ p.2) := by
  have hloop : ∀ (qs : List (Stage × ℕ)) (l : Layout) (P : Stage → Prop), Listed l f P →
      Listed (qs.foldl (fun l q => l.put p.1 q.1 q.2) l) f
        fun i => P i ∨ (f = p.1 ∧ i ∈ qs.map Prod.fst) := by
    intro qs
    induction qs with
    | nil => exact fun l P h => h.congr fun i => by simp
    | cons q qs ih =>
        intro l P h
        refine (ih _ _ (h.put p.1 q.1 q.2)).congr fun i => ?_
        rw [List.map_cons, List.mem_cons]
        tauto
  refine (hloop p.2.zipIdx l P h).congr fun i => ?_
  rw [List.zipIdx_map_fst]

/-- All variants. -/
theorem Listed.foldl_place (h : Listed l f P) (vs : List (Fid × List Stage)) :
    Listed (vs.foldl Layout.place l) f fun i => P i ∨ ∃ v, (f, v) ∈ vs ∧ i ∈ v := by
  induction vs generalizing l P with
  | nil => exact h.congr fun i => by simp
  | cons p vs ih =>
      refine (ih (h.place p)).congr fun i => ?_
      constructor
      · rintro ((hP | ⟨rfl, hi⟩) | ⟨v, hv, hi⟩)
        · exact .inl hP
        · exact .inr ⟨p.2, List.mem_cons_self, hi⟩
        · exact .inr ⟨v, List.mem_cons_of_mem p hv, hi⟩
      · rintro (hP | ⟨v, hv, hi⟩)
        · exact .inl (.inl hP)
        · rcases List.mem_cons.1 hv with heq | hv
          · rw [← heq]
            exact .inl (.inr ⟨rfl, hi⟩)
          · exact .inr ⟨v, hv, hi⟩

/-- Nothing is listed at first. -/
theorem listed_cleared {funcs : Dict Fid ActiveFunction} {g : ActiveFunction}
    (h : funcs.get? f = some g) : Listed (Layout.cleared funcs) f fun _ => False := by
  refine ⟨fun i => by simp [Layout.cleared], { g with allocation := some Dict.empty }, _, ?_, rfl,
    fun i => by simp [Dict.keys, Dict.empty]⟩
  rw [Layout.cleared, Dict.get?_mapValues, h]
  rfl

end Listed

/-! ### The outcome -/

section Outcome

variable {cfg : AllocatorConfig} {rng : Draws} {s t : Allocator} {af : ActiveFunction} {ch : Choice}

/-- **What the offline branch returns.** -/
theorem computeAllocationOffline_some (h : computeAllocationOffline cfg rng af s = .ok (some ch) t) :
    ∃ it c vs, FirstLeast (drawCost rng (s.entered af).activeFuncs af) maxIter it c ∧
      variantsOf (drawn (s.entered af).activeFuncs af) (drawAt rng (s.entered af).activeFuncs af it) =
        .ok vs ∧ ch.optCost = c ∧
      ch.allocationMap = (vs.foldl Layout.place (Layout.cleared (s.entered af).activeFuncs)).allocationMap ∧
      t.activeFuncs = (vs.foldl Layout.place (Layout.cleared (s.entered af).activeFuncs)).activeFuncs := by
  unfold computeAllocationOffline at h
  dsimp only at h
  split at h
  · simp at h
  · simp at h
  · rename_i X value hsearch
    rcases offlineSearch_some hsearch with ⟨hzero, -⟩ | ⟨it, c, heq, hfirst⟩
    · exact absurd hzero (by decide)
    · obtain ⟨rfl, rfl⟩ := Prod.mk.inj (Option.some.inj heq)
      split at h
      · simp at h
      · rename_i vs hvs
        simp only [EStateM.Result.ok.injEq, Option.some.injEq] at h
        obtain ⟨rfl, rfl⟩ := h
        exact ⟨it, value, vs, hfirst, hvs, rfl, rfl, rfl⟩

/-- The draw of an iteration has as many indices as there are variants to draw. -/
theorem length_drawAt (funcs : Dict Fid ActiveFunction) (it : ℕ) :
    (drawAt rng funcs af it).length = (drawn funcs af).length := List.length_mapIdx

/-- The indices of a draw. -/
theorem getElem?_drawAt {funcs : Dict Fid ActiveFunction} {it i : ℕ} {p : Fid × ActiveFunction}
    (h : (drawn funcs af)[i]? = some p) :
    (drawAt rng funcs af it)[i]? = some (rng.index it i p.2.enumeration.length) := by
  rw [drawAt, List.getElem?_mapIdx, h]
  rfl

/-- **Every draw has a cost if no enumeration is empty.** -/
theorem exists_drawCost {funcs : Dict Fid ActiveFunction}
    (h : ∀ p ∈ drawn funcs af, p.2.enumeration ≠ []) (it : ℕ) :
    ∃ c, drawCost rng funcs af it = .ok c := by
  have hall : ∃ vs, variantsOf (drawn funcs af) (drawAt rng funcs af it) = .ok vs := by
    refine exists_variantsOf fun i p x hp hx => ?_
    rw [getElem?_drawAt hp] at hx
    obtain rfl := Option.some.inj hx
    exact rng.index_lt it i _ (List.length_pos_iff.2 (h p (List.mem_of_getElem? hp)))
  obtain ⟨vs, hvs⟩ := hall
  exact ⟨_, by rw [drawCost, getOccupancyCost, hvs]; rfl⟩

/-- A draw that has a cost has variants. -/
theorem variantsOf_of_drawCost {funcs : Dict Fid ActiveFunction} {it c : ℕ}
    (h : drawCost rng funcs af it = .ok c) :
    ∃ vs, variantsOf (drawn funcs af) (drawAt rng funcs af it) = .ok vs ∧
      c = occupancyCost (vs.map Prod.snd) := by
  rw [drawCost, getOccupancyCost] at h
  cases hvs : variantsOf (drawn funcs af) (drawAt rng funcs af it) with
  | error ex => simp [hvs, Except.map] at h
  | ok vs =>
      rw [hvs] at h
      exact ⟨vs, rfl, (Except.ok.inj h).symm⟩

/-- **No enumeration is empty if a draw has a cost.** -/
theorem enumeration_ne_nil {funcs : Dict Fid ActiveFunction} {it c : ℕ}
    (h : drawCost rng funcs af it = .ok c) {p : Fid × ActiveFunction} (hp : p ∈ drawn funcs af) :
    p.2.enumeration ≠ [] := by
  obtain ⟨vs, hvs, -⟩ := variantsOf_of_drawCost h
  obtain ⟨i, hi⟩ := List.mem_iff_getElem?.1 hp
  obtain ⟨v, hv, -⟩ := (variantsOf_ok hvs (length_drawAt funcs it)).2 i p _ hi (getElem?_drawAt hi)
  intro hnil
  simp [ActiveFunction.getVariant, hnil] at hv

/-- **The offline branch returns** if no enumeration is empty. -/
theorem exists_computeAllocationOffline
    (h : ∀ p ∈ drawn (s.entered af).activeFuncs af, p.2.enumeration ≠ []) :
    ∃ ch t, computeAllocationOffline cfg rng af s = .ok (some ch) t := by
  obtain ⟨best, hbest⟩ : ∃ best, offlineSearch rng (s.entered af).activeFuncs af maxIter = .ok best :=
    exists_offlineSearch maxIter fun j _ => exists_drawCost h j
  rcases offlineSearch_some hbest with ⟨hzero, -⟩ | ⟨it, c, rfl, hfirst⟩
  · exact absurd hzero (by decide)
  · obtain ⟨vs, hvs, -⟩ := variantsOf_of_drawCost hfirst.cost_eq
    unfold computeAllocationOffline
    simp only [hbest, hvs]
    exact ⟨_, _, rfl⟩

/-- The two indices that are drawn for the function that arrives give the same variant. -/
def SameVariant (rng : Draws) (funcs : Dict Fid ActiveFunction) (af : ActiveFunction) (it : ℕ) : Prop :=
  af.getVariant (rng.index it (funcs.keys.idxOf af.fid) af.enumeration.length) =
    af.getVariant (rng.index it funcs.keys.length af.enumeration.length)

/-- The variants that are drawn: one for each function, and a second one of the arrival. -/
theorem exists_variants {funcs : Dict Fid ActiveFunction} {it : ℕ} {vs : List (Fid × List Stage)}
    (haf : funcs.get? af.fid = some af)
    (hvs : variantsOf (drawn funcs af) (drawAt rng funcs af it) = .ok vs) :
    ∃ (K : Dict Fid (List Stage)) (w : List Stage), vs = K.items ++ [(af.fid, w)] ∧ K.keys = funcs.keys ∧
      af.getVariant (rng.index it funcs.keys.length af.enumeration.length) = some w ∧
      K.get? af.fid = af.getVariant (rng.index it (funcs.keys.idxOf af.fid) af.enumeration.length) ∧
      ∀ f g, funcs.get? f = some g → ∃ v ∈ g.getEnumeration, K.get? f = some v := by
  obtain ⟨hfst, hget⟩ := variantsOf_ok hvs (length_drawAt funcs it)
  have hlen : funcs.keys.length = funcs.items.length := List.length_map _
  have hat : (drawn funcs af)[funcs.items.length]? = some (af.fid, af) := by simp [drawn]
  obtain ⟨w, hw, hlast⟩ := hget _ _ _ hat (getElem?_drawAt hat)
  -- the last variant is the second one of the arrival
  rcases List.eq_nil_or_concat' vs with rfl | ⟨us, q, rfl⟩
  · simp at hlast
  rw [drawn, List.map_append, List.map_append] at hfst
  obtain ⟨hus, -⟩ := List.append_inj' hfst (by simp)
  have huslen : us.length = funcs.items.length := by
    rw [← List.length_map Prod.fst, hus, List.length_map]
  obtain rfl : q = (af.fid, w) := by
    rw [← huslen, List.getElem?_concat_length] at hlast
    exact Option.some.inj hlast
  have hmem : ∀ (i : ℕ) (f : Fid) (g : ActiveFunction), funcs.items[i]? = some (f, g) →
      ∃ v, g.getVariant (rng.index it i g.enumeration.length) = some v ∧ (f, v) ∈ us := by
    intro i f g hi
    have hlt : i < funcs.items.length := (List.getElem?_eq_some_iff.1 hi).1
    have hi' : (drawn funcs af)[i]? = some (f, g) := by
      rw [drawn, List.getElem?_append_left hlt, hi]
    obtain ⟨v, hv, hvi⟩ := hget i _ _ hi' (getElem?_drawAt hi')
    rw [List.getElem?_append_left (huslen ▸ hlt)] at hvi
    exact ⟨v, hv, List.mem_of_getElem? hvi⟩
  have hnodup : (us.map Prod.fst).Nodup := hus ▸ funcs.nodup
  refine ⟨⟨us, hnodup⟩, w, rfl, hus, by rw [hlen]; exact hw, ?_, fun f g hf => ?_⟩
  · obtain ⟨i, hi⟩ := List.mem_iff_getElem?.1 ((Dict.mem_items_iff _ _ _).2 haf)
    have hkey : funcs.keys[i]? = some af.fid := by
      rw [Dict.keys, List.getElem?_map, hi]
      rfl
    obtain ⟨hlt, hkey'⟩ := List.getElem?_eq_some_iff.1 hkey
    have hidx : funcs.keys.idxOf af.fid = i := by
      rw [← hkey']
      exact funcs.nodup.idxOf_getElem i hlt
    obtain ⟨v, hv, hvmem⟩ := hmem i _ _ hi
    rw [hidx, hv]
    exact (Dict.mem_items_iff _ _ _).1 hvmem
  · obtain ⟨i, hi⟩ := List.mem_iff_getElem?.1 ((Dict.mem_items_iff _ _ _).2 hf)
    obtain ⟨v, hv, hvmem⟩ := hmem i f g hi
    exact ⟨v, mem_of_getVariant hv, (Dict.mem_items_iff _ _ _).1 hvmem⟩

/-- **The placement of a draw is coherent exactly if the two variants of the arrival are the same.** -/
theorem placedAsCounted_iff (haf : (s.entered af).activeFuncs.get? af.fid = some af)
    (hcard : ∀ v ∈ af.getEnumeration, ∀ w ∈ af.getEnumeration, v.toFinset.card = w.toFinset.card)
    {it c : ℕ} {vs : List (Fid × List Stage)}
    (hvs : variantsOf (drawn (s.entered af).activeFuncs af) (drawAt rng (s.entered af).activeFuncs af it) =
      .ok vs) (hc : c = occupancyCost (vs.map Prod.snd)) (hcost : ch.optCost = c)
    (hmap : ch.allocationMap =
      (vs.foldl Layout.place (Layout.cleared (s.entered af).activeFuncs)).allocationMap)
    (hfuncs : t.activeFuncs =
      (vs.foldl Layout.place (Layout.cleared (s.entered af).activeFuncs)).activeFuncs) :
    PlacedAsCounted (s.entered af).activeFuncs af ch t ↔
      SameVariant rng (s.entered af).activeFuncs af it := by
  obtain ⟨K, w, rfl, hkeys, hw, hK, hall⟩ := exists_variants haf hvs
  unfold SameVariant
  rw [← hK, hw]
  -- where each function is listed
  have hlisted : ∀ f g, (s.entered af).activeFuncs.get? f = some g →
      (∀ i, f ∈ ch.allocationMap i ↔ (∃ v, K.get? f = some v ∧ i ∈ v) ∨ (f = af.fid ∧ i ∈ w)) ∧
      ∃ h d, t.activeFuncs.get? f = some h ∧ h.allocation = some d ∧
        ∀ i, i ∈ d.keys ↔ (∃ v, K.get? f = some v ∧ i ∈ v) ∨ (f = af.fid ∧ i ∈ w) := by
    intro f g hf
    rw [hmap, hfuncs]
    refine ((listed_cleared hf).foldl_place _).congr fun i => ?_
    simp only [List.mem_append, List.mem_singleton, Dict.mem_items_iff, Prod.mk.injEq]
    constructor
    · rintro (hfalse | ⟨v, hv | ⟨rfl, rfl⟩, hi⟩)
      · exact hfalse.elim
      · exact .inl ⟨v, hv, hi⟩
      · exact .inr ⟨rfl, hi⟩
    · rintro (⟨v, hv, hi⟩ | ⟨rfl, hi⟩)
      · exact .inr ⟨v, .inl hv, hi⟩
      · exact .inr ⟨w, .inr ⟨rfl, rfl⟩, hi⟩
  have hwmem : w ∈ af.getEnumeration := mem_of_getVariant hw
  obtain ⟨v₀, hv₀mem, hv₀⟩ := hall _ _ haf
  constructor
  · rintro ⟨V, -, hV⟩
    obtain ⟨hVmem, hVmap, -⟩ := hV _ _ haf
    have hunion : ∀ i, i ∈ V af.fid ↔ i ∈ v₀ ∨ i ∈ w := by
      intro i
      rw [← hVmap i, (hlisted _ _ haf).1 i]
      simp [hv₀]
    -- neither of the two has fewer stages than both together
    have heq : ∀ u ∈ af.getEnumeration, (∀ i ∈ u, i ∈ V af.fid) → u.toFinset = (V af.fid).toFinset := by
      intro u hu hsub
      refine Finset.eq_of_subset_of_card_le (fun i hi => ?_) (hcard _ hVmem _ hu).le
      exact List.mem_toFinset.2 (hsub i (List.mem_toFinset.1 hi))
    have hsame : v₀.toFinset = w.toFinset :=
      (heq v₀ hv₀mem fun i hi => (hunion i).2 (.inl hi)).trans
        (heq w hwmem fun i hi => (hunion i).2 (.inr hi)).symm
    rw [hv₀, eq_of_toFinset hv₀mem hwmem hsame]
  · intro hsame
    obtain rfl : v₀ = w := Option.some.inj (hv₀.symm.trans hsame)
    refine ⟨fun f => (K.get? f).getD [], ?_, fun f g hf => ?_⟩
    · have hsnd : K.items.map Prod.snd = K.keys.map fun f => (K.get? f).getD [] := by
        rw [Dict.keys, List.map_map]
        refine List.map_congr_left fun p hp => ?_
        rw [Function.comp_apply, (Dict.mem_items_iff K p.1 p.2).1 hp]
        rfl
      rw [hcost, hc, List.map_append, hsnd, hkeys]
      dsimp only
      rw [hv₀]
      rfl
    · obtain ⟨v, hvmem, hv⟩ := hall f g hf
      have hiff : ∀ i, ((∃ u, K.get? f = some u ∧ i ∈ u) ∨ (f = af.fid ∧ i ∈ v₀)) ↔
          i ∈ (K.get? f).getD [] := by
        intro i
        rw [hv, Option.getD_some]
        constructor
        · rintro (⟨u, hu, hi⟩ | ⟨rfl, hi⟩)
          · rwa [Option.some.inj hu]
          · rwa [← Option.some.inj (hv₀.symm.trans hv)]
        · exact fun hi => .inl ⟨v, rfl, hi⟩
      obtain ⟨hm, h, d, hh, hd, hk⟩ := hlisted f g hf
      have hown : (K.get? f).getD [] ∈ g.getEnumeration := by
        rw [hv]
        exact hvmem
      refine ⟨hown, fun i => (hm i).trans (hiff i), h, d, hh, hd, fun i => ?_⟩
      exact (hk i).trans (hiff i)

/-- The arrival is registered when the draws begin. -/
theorem get?_entered : (s.entered af).activeFuncs.get? af.fid = some af := by
  rw [entered, Dict.get?_set, if_pos rfl]

/-- **Exactly when the offline placement is coherent**, for all active functions, every arrival and all
random numbers: the first draw of the least cost has the same variant twice for the arrival.  The branch
returns if every function was enumerated. -/
theorem offline_iff (cfg : AllocatorConfig) (rng : Draws) (s : Allocator) (af : ActiveFunction)
    (h : af.enumeration = [] ∨ af.enumeration =
      ActiveFunction.enumerate af.accessIdx af.igLim af.progLen af.allowRecirculations) :
    ((∀ p ∈ drawn (s.entered af).activeFuncs af, p.2.enumeration ≠ []) →
      ∃ ch t, computeAllocationOffline cfg rng af s = .ok (some ch) t) ∧
    ((∀ ch t, computeAllocationOffline cfg rng af s = .ok (some ch) t →
        PlacedAsCounted (s.entered af).activeFuncs af ch t) ↔
      ∀ it c, FirstLeast (drawCost rng (s.entered af).activeFuncs af) maxIter it c →
        SameVariant rng (s.entered af).activeFuncs af it) := by
  have hcard : ∀ v ∈ af.getEnumeration, ∀ w ∈ af.getEnumeration, v.toFinset.card = w.toFinset.card := by
    intro v hv w hw
    rcases h with hnil | henum
    · simp [ActiveFunction.getEnumeration, hnil] at hv
    · rw [length_of_mem_getEnumeration henum hv, length_of_mem_getEnumeration henum hw]
  -- what is returned belongs to the first draw of the least cost
  have hof : ∀ {ch t it c}, computeAllocationOffline cfg rng af s = .ok (some ch) t →
      FirstLeast (drawCost rng (s.entered af).activeFuncs af) maxIter it c →
        (PlacedAsCounted (s.entered af).activeFuncs af ch t ↔
          SameVariant rng (s.entered af).activeFuncs af it) := by
    intro ch t it c hret hfirst
    obtain ⟨it', c', vs, hfirst', hvs, hcost, hmap, hfuncs⟩ := computeAllocationOffline_some hret
    obtain ⟨rfl, rfl⟩ := hfirst.unique hfirst'
    obtain ⟨vs', hvs', hc⟩ := variantsOf_of_drawCost hfirst.cost_eq
    obtain rfl : vs = vs' := Except.ok.inj (hvs.symm.trans hvs')
    exact placedAsCounted_iff get?_entered hcard hvs hc hcost hmap hfuncs
  refine ⟨exists_computeAllocationOffline, fun hall it c hfirst => ?_, fun hall ch t hret => ?_⟩
  · obtain ⟨ch, t, hret⟩ : ∃ ch t, computeAllocationOffline cfg rng af s = .ok (some ch) t :=
      exists_computeAllocationOffline fun p hp => enumeration_ne_nil hfirst.cost_eq hp
    exact (hof hret hfirst).1 (hall ch t hret)
  · obtain ⟨it, c, vs, hfirst, -⟩ := computeAllocationOffline_some hret
    exact (hof hret hfirst).2 (hall it c hfirst)

/-- The first variant for every function. -/
def Draws.first : Draws := ⟨fun _ _ _ => 0, fun _ _ _ h => h⟩

/-- A single function is placed as it was counted if its first variant is drawn twice. -/
theorem offline_iff_first :
    ∃ ch t, computeAllocationOffline ⟨8, .cost, true, true⟩ Draws.first (.singleAccess 1 0 1)
        (init ⟨8, .cost, true, true⟩) = .ok (some ch) t ∧
      PlacedAsCounted ((init ⟨8, .cost, true, true⟩).entered (.singleAccess 1 0 1)).activeFuncs
        (.singleAccess 1 0 1) ch t := by
  obtain ⟨hret, hiff⟩ := offline_iff ⟨8, .cost, true, true⟩ Draws.first (init ⟨8, .cost, true, true⟩)
    (.singleAccess 1 0 1) (.inr rfl)
  obtain ⟨ch, t, h⟩ := hret (by decide +kernel)
  exact ⟨ch, t, h, hiff.2 (fun _ _ _ => rfl) ch t h⟩

/-- The first variant, and for the second function drawn the last. -/
def Draws.firstAndLast : Draws where
  index := fun _ i size => if i = 1 then size - 1 else 0
  index_lt := fun _ i size h => by
    split_ifs
    · exact Nat.sub_lt h Nat.one_pos
    · exact h

/-- A function whose access can be at stage zero or at stage one. -/
def twoVariants : ActiveFunction :=
  { ActiveFunction.singleAccess 1 0 1 with
    progLen := 18
    enumeration := ActiveFunction.enumerate [0] (-1) 18 false }

/-- **A placement on the stages of two variants.**  The only function is drawn twice; its access is placed
at both stages. -/
theorem offline_two_variants :
    ∃ ch t, computeAllocationOffline ⟨8, .cost, true, true⟩ Draws.firstAndLast twoVariants
        (init ⟨8, .cost, true, true⟩) = .ok (some ch) t ∧ 1 ∈ ch.allocationMap 0 ∧ 1 ∈ ch.allocationMap 1 ∧
      ¬ PlacedAsCounted ((init ⟨8, .cost, true, true⟩).entered twoVariants).activeFuncs twoVariants ch t := by
  have hret : ∃ ch t, computeAllocationOffline ⟨8, .cost, true, true⟩ Draws.firstAndLast twoVariants
      (init ⟨8, .cost, true, true⟩) = .ok (some ch) t :=
    exists_computeAllocationOffline (by decide +kernel)
  obtain ⟨ch, t, h⟩ := hret
  obtain ⟨it, c, vs, -, hvs, -, hmap, -⟩ := computeAllocationOffline_some h
  -- all draws are the same
  have hdraw : variantsOf (drawn ((init ⟨8, .cost, true, true⟩).entered twoVariants).activeFuncs
      twoVariants) (drawAt Draws.firstAndLast ((init ⟨8, .cost, true, true⟩).entered
        twoVariants).activeFuncs twoVariants it) = .ok [(1, [0]), (1, [1])] := by
    have hsame : drawAt Draws.firstAndLast ((init ⟨8, .cost, true, true⟩).entered
        twoVariants).activeFuncs twoVariants it = [0, 1] := by
      have hlen : twoVariants.enumeration.length = 2 := by decide +kernel
      rw [drawAt_eq, hlen]
      rfl
    rw [hsame]
    decide +kernel
  obtain rfl := Except.ok.inj (hdraw.symm.trans hvs)
  have hzero : 1 ∈ ch.allocationMap 0 := by
    rw [hmap]
    decide +kernel
  have hone : 1 ∈ ch.allocationMap 1 := by
    rw [hmap]
    decide +kernel
  refine ⟨ch, t, h, hzero, hone, ?_⟩
  rintro ⟨V, -, hV⟩
  obtain ⟨hmem, hiff, -⟩ := hV 1 twoVariants (by decide +kernel)
  have hnone : ∀ v ∈ twoVariants.getEnumeration, ¬ (0 ∈ v ∧ 1 ∈ v) := by decide +kernel
  exact hnone _ hmem ⟨(hiff 0).1 hzero, (hiff 1).1 hone⟩

end Outcome

end Allocator

end ActiveRmt
