/-
**Tables of items, looked up by a part of the item.**

An intrusive hash table chains the items themselves, in the order in which they were added, and finds
an item by comparing a part of it.  Nothing makes that part the whole identity of an item: what the
comparison does not look at is whatever the first item had.

Main definitions:

* `upsert` — **the item with a key is changed**, after it is added where there is none;
* `Distinct` — no two items have one key;
* `Sorts` — what a sort of the items by a comparison promises.

Main results:

* `mem_upsert_iff` — what is in a table after a change;
* `Distinct.upsert`, `Distinct.perm` — the keys stay distinct;
* `sorts_mergeSort` — a merge sort keeps the promise.
-/

import Mathlib.Data.List.Nodup
import Mathlib.Data.List.Perm.Basic
import Mathlib.Data.List.Sort

set_option relaxedAutoImplicit false
set_option autoImplicit false

namespace KeyedTable

section Items

variable {α κ : Type} {key : α → κ} {t t' : List α} {x y : α}

/-- No two items have one key. -/
def Distinct (key : α → κ) (t : List α) : Prop := (t.map key).Nodup

theorem Distinct.nil : Distinct key [] := List.nodup_nil

theorem Distinct.perm (h : Distinct key t) (hp : t'.Perm t) : Distinct key t' :=
  (hp.map key).nodup_iff.2 h

/-- Items with one key are one item. -/
theorem Distinct.eq (h : Distinct key t) (hx : x ∈ t) (hy : y ∈ t) (hk : key x = key y) : x = y :=
  List.inj_on_of_nodup_map h hx hy hk

variable [DecidableEq κ]

/-- **The item with a key is changed.**  Where there is none, a fresh one is added first. -/
def upsert (key : α → κ) (k : κ) (fresh : α) (f : α → α) : List α → List α
  | [] => [f fresh]
  | x :: t => if key x = k then f x :: t else x :: upsert key k fresh f t

variable {k : κ} {fresh : α} {f : α → α}

/-- **What is in a table after a change**: the other items as they were, and the one that was
changed. -/
theorem mem_upsert_iff (h : Distinct key t) :
    y ∈ upsert key k fresh f t ↔ (y ∈ t ∧ key y ≠ k) ∨ (∃ x ∈ t, key x = k ∧ y = f x) ∨
      ((∀ x ∈ t, key x ≠ k) ∧ y = f fresh) := by
  induction t with
  | nil => simp [upsert]
  | cons a t ih =>
      obtain ⟨hnot, ht⟩ := List.nodup_cons.1 h
      have hne : ∀ x ∈ t, key x ≠ key a := fun x hx heq => hnot (heq ▸ List.mem_map_of_mem hx)
      rw [upsert]
      split_ifs with ha
      · -- the item that is changed is the first one
        subst ha
        rw [List.mem_cons]
        constructor
        · rintro (rfl | hy)
          · exact .inr (.inl ⟨a, List.mem_cons_self, rfl, rfl⟩)
          · exact .inl ⟨List.mem_cons_of_mem a hy, hne y hy⟩
        · rintro (⟨hy, hyk⟩ | ⟨x, hx, hxk, rfl⟩ | ⟨hno, -⟩)
          · rcases List.mem_cons.1 hy with rfl | hy
            · exact absurd rfl hyk
            · exact .inr hy
          · rcases List.mem_cons.1 hx with rfl | hx
            · exact .inl rfl
            · exact absurd hxk (hne x hx)
          · exact absurd rfl (hno a List.mem_cons_self)
      · rw [List.mem_cons, ih ht]
        constructor
        · rintro (rfl | ⟨hy, hyk⟩ | ⟨x, hx, hxk, rfl⟩ | ⟨hno, rfl⟩)
          · exact .inl ⟨List.mem_cons_self, ha⟩
          · exact .inl ⟨List.mem_cons_of_mem a hy, hyk⟩
          · exact .inr (.inl ⟨x, List.mem_cons_of_mem a hx, hxk, rfl⟩)
          · exact .inr (.inr ⟨List.forall_mem_cons.2 ⟨ha, hno⟩, rfl⟩)
        · rintro (⟨hy, hyk⟩ | ⟨x, hx, hxk, rfl⟩ | ⟨hno, rfl⟩)
          · rcases List.mem_cons.1 hy with rfl | hy
            · exact .inl rfl
            · exact .inr (.inl ⟨hy, hyk⟩)
          · rcases List.mem_cons.1 hx with rfl | hx
            · exact absurd hxk ha
            · exact .inr (.inr (.inl ⟨x, hx, hxk, rfl⟩))
          · exact .inr (.inr (.inr ⟨(List.forall_mem_cons.1 hno).2, rfl⟩))

/-- **The keys stay distinct**, if the change keeps the key. -/
theorem Distinct.upsert (h : Distinct key t) (hf : ∀ x, key (f x) = key x) (hfresh : key fresh = k) :
    Distinct key (upsert key k fresh f t) := by
  induction t with
  | nil => exact List.nodup_singleton _
  | cons a t ih =>
      obtain ⟨hnot, ht⟩ := List.nodup_cons.1 h
      rw [KeyedTable.upsert]
      split_ifs with ha
      · rw [Distinct, List.map_cons, hf]
        exact h
      · refine List.nodup_cons.2 ⟨fun hmem => ?_, ih ht⟩
        obtain ⟨y, hy, hya⟩ := List.mem_map.1 hmem
        rcases (mem_upsert_iff ht).1 hy with ⟨hy, -⟩ | ⟨x, hx, -, rfl⟩ | ⟨-, rfl⟩
        · exact hnot (hya ▸ List.mem_map_of_mem hy)
        · exact hnot (List.mem_map.2 ⟨x, hx, (hf x).symm.trans hya⟩)
        · exact ha (hya.symm.trans ((hf fresh).trans hfresh))

end Items

/-! ### Sorting -/

/-- **What a sort promises**: the items are those of the list, and they are in order where the
comparison orders them. -/
structure Sorts {α : Type} (sort : (α → α → ℤ) → List α → List α) : Prop where
  /-- No item is lost or added. -/
  perm : ∀ cmp t, (sort cmp t).Perm t
  /-- The order is that of the comparison, if that is total and transitive on the list. -/
  sorted : ∀ (cmp : α → α → ℤ) (t : List α), (∀ x ∈ t, ∀ y ∈ t, cmp x y ≤ 0 ∨ cmp y x ≤ 0) →
    (∀ x ∈ t, ∀ y ∈ t, ∀ z ∈ t, cmp x y ≤ 0 → cmp y z ≤ 0 → cmp x z ≤ 0) →
    (sort cmp t).Pairwise fun x y => cmp x y ≤ 0

/-- A merge sort. -/
def mergeSort {α : Type} (cmp : α → α → ℤ) (t : List α) : List α :=
  (t.attach.mergeSort fun x y => decide (cmp x.1 y.1 ≤ 0)).map Subtype.val

/-- **A merge sort keeps the promise.** -/
theorem sorts_mergeSort {α : Type} : Sorts (@mergeSort α) where
  perm cmp t := by
    have h := (List.mergeSort_perm t.attach fun x y => decide (cmp x.1 y.1 ≤ 0)).map Subtype.val
    rwa [List.attach_map_subtype_val] at h
  sorted cmp t htotal htrans := by
    rw [mergeSort, List.pairwise_map]
    refine (List.pairwise_mergeSort ?_ ?_ t.attach).imp fun h => of_decide_eq_true h
    · intro x y z hxy hyz
      exact decide_eq_true (htrans x.1 x.2 y.1 y.2 z.1 z.2 (of_decide_eq_true hxy)
        (of_decide_eq_true hyz))
    · intro x y
      simpa using htotal x.1 x.2 y.1 y.2

end KeyedTable
