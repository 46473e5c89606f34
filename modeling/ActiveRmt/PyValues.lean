/-
**Python values: dictionaries, sets and floats.**

The control plane keeps its state in Python dictionaries and sets, iterates over both, and compares
costs that are floating-point numbers.  A dictionary iterates in insertion order, and overwriting
the value of a key leaves the key where it was; a set iterates in an order that the language leaves
open; a float operation is the exact one followed by a rounding.  This module supplies the three:
`Dict` is an association list whose keys are pairwise distinct, which is part of the type,
`ascending` lists a finite set in increasing order, and `roundDouble` is the rounding, so that a
float is carried as the rational it denotes.

Main definitions:

* `Dict`, `Dict.get?`, `Dict.set`, `Dict.erase`, `Dict.keys` — insertion-ordered dictionaries;
* `ascending` — the elements of a finite set, smallest first;
* `roundDouble` — rounding to 53 significant bits, ties to even.

Main results:

* `Dict.get?_set`, `Dict.get?_erase` — reading back what was written;
* `Dict.mem_keys_iff` — a key is listed exactly when it can be read;
* `Dict.get?_foldl_set` — reading after a loop of writes;
* `mem_ascending`, `nodup_ascending`, `pairwise_ascending` — the listing of a set has each of its
  elements once, in order;
* `roundDouble_nonneg` — rounding does not change the sign.
-/

import Mathlib

set_option relaxedAutoImplicit false
set_option autoImplicit false

/-! ### Dictionaries -/

/-- A dictionary: its items in insertion order, no key twice. -/
structure Dict (κ α : Type) where
  /-- The items, oldest key first. -/
  items : List (κ × α)
  /-- No key occurs twice. -/
  nodup : (items.map Prod.fst).Nodup

namespace Dict

variable {κ α : Type}

/-- The empty dictionary. -/
def empty : Dict κ α := ⟨[], List.nodup_nil⟩

/-- The keys, in iteration order. -/
def keys (d : Dict κ α) : List κ := d.items.map Prod.fst

@[ext] theorem ext {d e : Dict κ α} (h : d.items = e.items) : d = e := by
  cases d; cases e; simpa using h

variable [DecidableEq κ]

instance [DecidableEq α] : DecidableEq (Dict κ α) := fun d e =>
  decidable_of_iff (d.items = e.items) ⟨Dict.ext, fun h => h ▸ rfl⟩

/-- Looking a key up in a list of items. -/
def lookup (k : κ) : List (κ × α) → Option α
  | [] => none
  | p :: l => if p.1 = k then some p.2 else lookup k l

/-- `d[k]`, or nothing when the key is absent. -/
def get? (d : Dict κ α) (k : κ) : Option α := lookup k d.items

/-- Overwriting a key of a list of items in place, or adding it at the end. -/
def put (k : κ) (v : α) : List (κ × α) → List (κ × α)
  | [] => [(k, v)]
  | p :: l => if p.1 = k then (k, v) :: l else p :: put k v l

theorem mem_map_fst_put (k : κ) (v : α) (l : List (κ × α)) (x : κ) :
    x ∈ (put k v l).map Prod.fst ↔ x = k ∨ x ∈ l.map Prod.fst := by
  induction l with
  | nil => simp [put]
  | cons p l ih =>
      by_cases h : p.1 = k
      · simp [put, h]
      · simp only [put, if_neg h, List.map_cons, List.mem_cons, ih]
        tauto

theorem nodup_put (k : κ) (v : α) (l : List (κ × α)) (h : (l.map Prod.fst).Nodup) :
    ((put k v l).map Prod.fst).Nodup := by
  induction l with
  | nil => simp [put]
  | cons p l ih =>
      rw [List.map_cons, List.nodup_cons] at h
      by_cases hp : p.1 = k
      · subst hp
        simpa [put] using h
      · rw [put, if_neg hp, List.map_cons, List.nodup_cons, mem_map_fst_put]
        refine ⟨?_, ih h.2⟩
        rintro (rfl | hmem)
        · exact hp rfl
        · exact h.1 hmem

/-- `d[k] = v`. -/
def set (d : Dict κ α) (k : κ) (v : α) : Dict κ α := ⟨put k v d.items, nodup_put k v _ d.nodup⟩

/-- `d.pop(k)`, or the same dictionary when the key is absent. -/
def erase (d : Dict κ α) (k : κ) : Dict κ α :=
  ⟨d.items.filter fun p => p.1 ≠ k,
    d.nodup.sublist (List.filter_sublist.map Prod.fst)⟩

/-- `k in d`. -/
def contains (d : Dict κ α) (k : κ) : Bool := (d.get? k).isSome

@[simp] theorem get?_empty (k : κ) : (empty : Dict κ α).get? k = none := rfl

theorem lookup_put (k : κ) (v : α) (l : List (κ × α)) (x : κ) :
    lookup x (put k v l) = if x = k then some v else lookup x l := by
  induction l with
  | nil => by_cases h : k = x <;> simp [put, lookup, h, eq_comm]
  | cons p l ih =>
      by_cases hp : p.1 = k
      · by_cases hx : x = k
        · simp [put, lookup, hp, hx]
        · simp [put, lookup, hp, Ne.symm hx, hx]
      · by_cases hx : p.1 = x
        · have hxk : x ≠ k := fun h => hp (hx.trans h)
          simp [put, lookup, hx, hxk]
        · simp [put, lookup, hp, hx, ih]

/-- **Reading after a write.** -/
theorem get?_set (d : Dict κ α) (k : κ) (v : α) (x : κ) :
    (d.set k v).get? x = if x = k then some v else d.get? x := lookup_put k v d.items x

@[simp] theorem get?_set_self (d : Dict κ α) (k : κ) (v : α) : (d.set k v).get? k = some v := by
  rw [get?_set, if_pos rfl]

theorem lookup_filter_ne (k : κ) (l : List (κ × α)) (x : κ) :
    lookup x (l.filter fun p => p.1 ≠ k) = if x = k then none else lookup x l := by
  induction l with
  | nil => simp [lookup]
  | cons p l ih =>
      by_cases hp : p.1 = k
      · rw [List.filter_cons_of_neg (by simp [hp]), ih]
        by_cases hx : x = k
        · simp [hx]
        · simp [lookup, hp, hx, Ne.symm hx]
      · rw [List.filter_cons_of_pos (by simp [hp])]
        by_cases hx : p.1 = x
        · have hxk : x ≠ k := fun h => hp (hx.trans h)
          simp [lookup, hx, hxk]
        · simp only [lookup, if_neg hx, ih]

/-- **Reading after a removal.** -/
theorem get?_erase (d : Dict κ α) (k x : κ) :
    (d.erase k).get? x = if x = k then none else d.get? x := lookup_filter_ne k d.items x

theorem mem_items_of_lookup {k : κ} {v : α} {l : List (κ × α)} (h : lookup k l = some v) :
    (k, v) ∈ l := by
  induction l with
  | nil => simp [lookup] at h
  | cons p l ih =>
      by_cases hp : p.1 = k
      · rw [lookup, if_pos hp] at h
        have hv : p.2 = v := Option.some_inj.1 h
        rw [← hp, ← hv]
        exact List.mem_cons_self ..
      · rw [lookup, if_neg hp] at h
        exact List.mem_cons_of_mem _ (ih h)

theorem lookup_of_mem_items {k : κ} {v : α} {l : List (κ × α)} (hn : (l.map Prod.fst).Nodup)
    (h : (k, v) ∈ l) : lookup k l = some v := by
  induction l with
  | nil => simp at h
  | cons p l ih =>
      rw [List.map_cons, List.nodup_cons] at hn
      rcases List.mem_cons.1 h with rfl | h
      · simp [lookup]
      · have hp : p.1 ≠ k := fun hp => hn.1 (hp ▸ List.mem_map_of_mem h)
        rw [lookup, if_neg hp]
        exact ih hn.2 h

/-- An item is listed exactly when its key reads as its value. -/
theorem mem_items_iff (d : Dict κ α) (k : κ) (v : α) : (k, v) ∈ d.items ↔ d.get? k = some v :=
  ⟨lookup_of_mem_items d.nodup, mem_items_of_lookup⟩

/-- A key is listed exactly when it can be read. -/
theorem mem_keys_iff (d : Dict κ α) (k : κ) : k ∈ d.keys ↔ ∃ v, d.get? k = some v := by
  simp [keys, ← mem_items_iff]

theorem contains_iff (d : Dict κ α) (k : κ) : d.contains k = true ↔ k ∈ d.keys := by
  rw [mem_keys_iff, contains, Option.isSome_iff_exists]

theorem mem_keys_set (d : Dict κ α) (k : κ) (v : α) (x : κ) :
    x ∈ (d.set k v).keys ↔ x = k ∨ x ∈ d.keys := mem_map_fst_put k v d.items x

theorem mem_keys_erase (d : Dict κ α) (k x : κ) : x ∈ (d.erase k).keys ↔ x ≠ k ∧ x ∈ d.keys := by
  simp only [mem_keys_iff, get?_erase]
  by_cases h : x = k <;> simp [h]

/-- A new key that is set and removed again leaves no trace. -/
theorem erase_set_of_notMem {d : Dict κ α} {k : κ} (hk : k ∉ d.keys) (v : α) :
    (d.set k v).erase k = d := by
  have key : ∀ l : List (κ × α), k ∉ l.map Prod.fst →
      (put k v l).filter (fun p => p.1 ≠ k) = l := by
    intro l hl
    induction l with
    | nil => simp [put]
    | cons p l ih =>
        rw [List.map_cons, List.mem_cons, not_or] at hl
        rw [put, if_neg (Ne.symm hl.1), List.filter_cons_of_pos (by simpa using Ne.symm hl.1),
          ih hl.2]
  exact Dict.ext (key d.items hk)

theorem erase_of_notMem {d : Dict κ α} {k : κ} (hk : k ∉ d.keys) :
    d.erase k = d := by
  refine Dict.ext (List.filter_eq_self.2 fun p hp => ?_)
  rw [decide_eq_true_eq]
  rintro rfl
  exact hk (List.mem_map_of_mem hp)

theorem eq_empty_of_get? {d : Dict κ α} (h : ∀ k, d.get? k = none) : d = Dict.empty := by
  refine Dict.ext (List.eq_nil_iff_forall_not_mem.2 ?_)
  rintro ⟨k, v⟩ hmem
  rw [mem_items_iff, h k] at hmem
  simp at hmem

/-- The second of two writes to a key counts. -/
theorem set_set (d : Dict κ α) (k : κ) (v w : α) : (d.set k v).set k w = d.set k w := by
  have key : ∀ l : List (κ × α), put k w (put k v l) = put k w l := by
    intro l
    induction l with
    | nil => simp [put]
    | cons p l ih =>
        by_cases hp : p.1 = k
        · simp [put, hp]
        · simp [put, hp, ih]
  exact Dict.ext (key d.items)

/-- **Reading after a loop of writes** to distinct keys. -/
theorem get?_foldl_set {β : Type} (key : β → κ) (val : β → α) {l : List β}
    (hn : (l.map key).Nodup) {d : Dict κ α} {x : κ} {y : α} :
    (l.foldl (fun d b => d.set (key b) (val b)) d).get? x = some y ↔
      (∃ b ∈ l, key b = x ∧ val b = y) ∨ ((∀ b ∈ l, key b ≠ x) ∧ d.get? x = some y) := by
  induction l generalizing d with
  | nil => simp
  | cons b l ih =>
      rw [List.map_cons, List.nodup_cons] at hn
      rw [List.foldl_cons, ih hn.2, get?_set]
      constructor
      · rintro (⟨c, hc, h⟩ | ⟨hl, h⟩)
        · exact Or.inl ⟨c, List.mem_cons_of_mem _ hc, h⟩
        · split_ifs at h with hx
          · exact Or.inl ⟨b, List.mem_cons_self .., hx.symm, Option.some.inj h⟩
          · refine Or.inr ⟨?_, h⟩
            intro c hc
            rcases List.mem_cons.1 hc with rfl | hc
            · exact Ne.symm hx
            · exact hl c hc
      · rintro (⟨c, hc, rfl, rfl⟩ | ⟨hl, h⟩)
        · rcases List.mem_cons.1 hc with rfl | hc
          · refine Or.inr ⟨fun c' hc' heq => hn.1 ?_, by rw [if_pos rfl]⟩
            rw [← heq]
            exact List.mem_map_of_mem hc'
          · exact Or.inl ⟨c, hc, rfl, rfl⟩
        · refine Or.inr ⟨fun c hc => hl c (List.mem_cons_of_mem _ hc), ?_⟩
          rw [if_neg (Ne.symm (hl b (List.mem_cons_self ..))), h]

end Dict

/-! ### Sets in increasing order -/

section Ascending

variable {α : Type} [LinearOrder α]

/-- The elements of a finite set in increasing order. -/
def ascending (s : Finset α) : List α :=
  Quot.liftOn s.val (List.insertionSort (· ≤ ·)) fun _ _ h =>
    List.Perm.eq_of_pairwise' (List.pairwise_insertionSort _ _) (List.pairwise_insertionSort _ _)
      ((List.perm_insertionSort _ _).trans (h.trans (List.perm_insertionSort _ _).symm))

theorem coe_ascending (s : Finset α) : (ascending s : Multiset α) = s.val := by
  obtain ⟨m, hm⟩ := s
  induction m using Quot.ind with
  | _ l => exact Quot.sound (List.perm_insertionSort _ l)

@[simp] theorem mem_ascending {s : Finset α} {a : α} : a ∈ ascending s ↔ a ∈ s := by
  rw [← Multiset.mem_coe, coe_ascending, Finset.mem_val]

theorem nodup_ascending (s : Finset α) : (ascending s).Nodup := by
  rw [← Multiset.coe_nodup, coe_ascending]
  exact s.nodup

theorem pairwise_ascending (s : Finset α) : (ascending s).Pairwise (· ≤ ·) := by
  obtain ⟨m, hm⟩ := s
  induction m using Quot.ind with
  | _ l => exact List.pairwise_insertionSort _ l

@[simp] theorem length_ascending (s : Finset α) : (ascending s).length = s.card := by
  rw [← Multiset.coe_card, coe_ascending, Finset.card_val]

end Ascending

/-! ### Floats -/

/-- The power `2 ^ e` of a possibly negative exponent. -/
def powTwo : ℤ → ℚ
  | .ofNat n => (2 ^ n : ℕ)
  | .negSucc n => mkRat 1 (2 ^ (n + 1))

theorem powTwo_nonneg (e : ℤ) : 0 ≤ powTwo e := by
  cases e with
  | ofNat n => exact Nat.cast_nonneg _
  | negSucc n =>
      rw [powTwo, Rat.mkRat_eq_div]
      positivity

/-- The binary exponent of a positive rational: the largest `e` with `2 ^ e ≤ q`. -/
def binaryExponent (q : ℚ) : ℤ :=
  let e : ℤ := (q.num.natAbs.log2 : ℤ) - (q.den.log2 : ℤ)
  if powTwo e ≤ q then e else e - 1

/-- The nearest integer, the even one of two equally near. -/
def roundHalfEven (q : ℚ) : ℤ :=
  let f := q.floor
  if q - f < 1 / 2 then f
  else if 1 / 2 < q - f then f + 1
  else if f % 2 = 0 then f else f + 1

/-- **Rounding to a double**: 53 significant bits, ties to even.  The exponent is unbounded. -/
def roundDouble (q : ℚ) : ℚ :=
  if q = 0 then 0 else
    let u := powTwo (binaryExponent |q| - 52)
    roundHalfEven (q / u) * u

theorem roundHalfEven_nonneg {q : ℚ} (h : 0 ≤ q) : 0 ≤ roundHalfEven q := by
  have hf : 0 ≤ q.floor := Rat.le_floor_iff.2 (by simpa using h)
  unfold roundHalfEven
  dsimp only
  split_ifs <;> omega

theorem roundDouble_nonneg {q : ℚ} (h : 0 ≤ q) : 0 ≤ roundDouble q := by
  unfold roundDouble
  split_ifs with hq
  · exact le_rfl
  · have hu := powTwo_nonneg (binaryExponent |q| - 52)
    have hr := roundHalfEven_nonneg (div_nonneg h hu)
    exact mul_nonneg (by exact_mod_cast hr) hu

example : roundDouble (1 / 3) = 6004799503160661 / 2 ^ 54 := by decide +kernel
