/-
**One's-complement sums.**

Words are added with an end-around carry: what is carried out of the highest bit is added at the
lowest one.  A word then stands for its value modulo `2 ^ w - 1`, and zero has two representations,
all zeros and all ones.  A sum of words is all zeros only when every word is, so a total determines
the word that represents it.

Main definitions:

* `OnesComplement.add`, `OnesComplement.sum` — the sum of two words, and of a list of them;
* `OnesComplement.total` — the sum of the values, without carries;
* `OnesComplement.checksum` — the complement of the sum;
* `OnesComplement.Represents` — a word stands for a total;
* `OnesComplement.Same` — two words are the same up to the two representations of zero.

Main results:

* `OnesComplement.represents_sum` — the sum stands for the total;
* `OnesComplement.Represents.unique` — only one word does;
* `OnesComplement.same_iff`, `OnesComplement.same_checksum_iff` — **words are the same exactly when they
  are congruent**, and a word is the checksum exactly when it brings the total to zero.
-/

import Mathlib.Data.Nat.ModEq
import Mathlib.Data.BitVec
import Mathlib.Algebra.BigOperators.Group.List.Basic
import Mathlib.Tactic.Ring

set_option relaxedAutoImplicit false
set_option autoImplicit false

namespace OnesComplement

variable {w n k : ℕ} {x y : BitVec w}

/-! ### Sums -/

/-- **The sum of two words with end-around carry.** -/
def add (x y : BitVec w) : BitVec w := if x.toNat + y.toNat < 2 ^ w then x + y else x + y + 1#w

/-- The sum of a list of words. -/
def sum (ws : List (BitVec w)) : BitVec w := ws.foldl add 0#w

/-- The sum of the values of a list of words. -/
def total (ws : List (BitVec w)) : ℕ := (ws.map BitVec.toNat).sum

/-- **The checksum of a list of words.** -/
def checksum (ws : List (BitVec w)) : BitVec w := ~~~ sum ws

@[simp] theorem total_nil : total ([] : List (BitVec w)) = 0 := rfl

@[simp] theorem total_cons (x : BitVec w) (ws : List (BitVec w)) :
    total (x :: ws) = x.toNat + total ws := by
  simp [total]

@[simp] theorem total_append (us vs : List (BitVec w)) : total (us ++ vs) = total us + total vs := by
  simp [total]

theorem toNat_add_of_lt (h : x.toNat + y.toNat < 2 ^ w) : (add x y).toNat = x.toNat + y.toNat := by
  rw [add, if_pos h, BitVec.toNat_add, Nat.mod_eq_of_lt h]

theorem toNat_add_of_le (h : 2 ^ w ≤ x.toNat + y.toNat) :
    (add x y).toNat + (2 ^ w - 1) = x.toNat + y.toNat := by
  have hx := x.isLt
  have hy := y.isLt
  have hone : 1 < 2 ^ w := by omega
  have hw : 0 < w := Nat.pos_of_ne_zero fun h0 => by simp [h0] at hone
  have hsum : (x.toNat + y.toNat) % 2 ^ w = x.toNat + y.toNat - 2 ^ w := by
    rw [Nat.mod_eq_sub_mod h, Nat.mod_eq_of_lt (by omega)]
  rw [add, if_neg (not_lt.2 h), BitVec.toNat_add, BitVec.toNat_add, hsum,
    BitVec.toNat_one hw, Nat.mod_eq_of_lt (by omega)]
  omega

/-! ### What a word stands for -/

/-- **A word stands for a total.** -/
structure Represents (n : ℕ) (x : BitVec w) : Prop where
  /-- Its value is congruent to the total. -/
  modEq : x.toNat ≡ n [MOD 2 ^ w - 1]
  /-- It is zero only when the total is. -/
  eq_zero_iff : x.toNat = 0 ↔ n = 0

theorem represents_toNat (x : BitVec w) : Represents x.toNat x := ⟨Nat.ModEq.refl _, Iff.rfl⟩

/-- **A total is represented by one word only.** -/
theorem Represents.unique (hx : Represents n x) (hy : Represents n y) : x = y := by
  refine BitVec.eq_of_toNat_eq ?_
  by_cases hn : n = 0
  · rw [hx.eq_zero_iff.2 hn, hy.eq_zero_iff.2 hn]
  · have hx0 : x.toNat ≠ 0 := fun h => hn (hx.eq_zero_iff.1 h)
    have hy0 : y.toNat ≠ 0 := fun h => hn (hy.eq_zero_iff.1 h)
    have hxlt := x.isLt
    have hylt := y.isLt
    have hmod : x.toNat - 1 + 1 ≡ y.toNat - 1 + 1 [MOD 2 ^ w - 1] := by
      rw [Nat.sub_add_cancel (by omega), Nat.sub_add_cancel (by omega)]
      exact hx.modEq.trans hy.modEq.symm
    have := Nat.ModEq.eq_of_lt_of_lt (Nat.ModEq.add_right_cancel' 1 hmod) (by omega) (by omega)
    omega

/-- **The sum of two words stands for the sum of their totals.** -/
theorem Represents.add (hx : Represents n x) (hy : Represents k y) :
    Represents (n + k) (OnesComplement.add x y) := by
  have hsum : x.toNat + y.toNat ≡ n + k [MOD 2 ^ w - 1] := hx.modEq.add hy.modEq
  have hzero : x.toNat + y.toNat = 0 ↔ n + k = 0 := by
    rw [Nat.add_eq_zero_iff, Nat.add_eq_zero_iff, hx.eq_zero_iff, hy.eq_zero_iff]
  rcases Nat.lt_or_ge (x.toNat + y.toNat) (2 ^ w) with hlt | hle
  · have h := toNat_add_of_lt hlt
    exact ⟨h ▸ hsum, h ▸ hzero⟩
  · have h := toNat_add_of_le hle
    have hx := x.isLt
    refine ⟨?_, ?_⟩
    · refine Nat.ModEq.trans ?_ hsum
      rw [← h]
      exact (Nat.add_modEq_right).symm
    · rw [← hzero]
      omega

theorem represents_foldl (ws : List (BitVec w)) (hx : Represents n x) :
    Represents (n + total ws) (ws.foldl OnesComplement.add x) := by
  induction ws generalizing n x with
  | nil => exact hx
  | cons y ws ih =>
      rw [List.foldl_cons, total_cons, ← Nat.add_assoc]
      exact ih (hx.add (represents_toNat y))

/-- **The sum of the words stands for the total.** -/
theorem represents_sum (ws : List (BitVec w)) : Represents (total ws) (sum ws) := by
  have h := represents_foldl ws (n := 0) (x := 0#w) ⟨by rw [BitVec.toNat_zero], by rw [BitVec.toNat_zero]⟩
  rwa [Nat.zero_add] at h

/-! ### The two representations of zero -/

/-- **The same word, up to the two representations of zero.** -/
def Same (x y : BitVec w) : Prop :=
  x = y ∨ x = 0#w ∧ y = BitVec.allOnes w ∨ x = BitVec.allOnes w ∧ y = 0#w

instance (x y : BitVec w) : Decidable (Same x y) := inferInstanceAs (Decidable (_ ∨ _))

theorem Same.refl (x : BitVec w) : Same x x := Or.inl rfl

theorem Same.symm (h : Same x y) : Same y x := by
  rcases h with rfl | ⟨rfl, rfl⟩ | ⟨rfl, rfl⟩
  · exact Same.refl x
  · exact Or.inr (Or.inr ⟨rfl, rfl⟩)
  · exact Or.inr (Or.inl ⟨rfl, rfl⟩)

theorem allOnes_modEq_zero : (BitVec.allOnes w).toNat ≡ (0#w).toNat [MOD 2 ^ w - 1] := by
  rw [BitVec.toNat_allOnes, BitVec.toNat_zero]
  exact Nat.modEq_zero_iff_dvd.2 dvd_rfl

/-- Congruent words of which the first is not larger are the same. -/
theorem same_of_le (hle : x.toNat ≤ y.toNat) (h : x.toNat ≡ y.toNat [MOD 2 ^ w - 1]) : Same x y := by
  have hy := y.isLt
  obtain ⟨c, hc⟩ := (Nat.modEq_iff_dvd' hle).1 h
  rcases Nat.lt_or_ge (y.toNat - x.toNat) (2 ^ w - 1) with hlt | hge
  · have hc0 : c = 0 := by
      by_contra hne
      have := Nat.le_mul_of_pos_right (2 ^ w - 1) (Nat.pos_of_ne_zero hne)
      omega
    rw [hc0, Nat.mul_zero] at hc
    exact Or.inl (BitVec.eq_of_toNat_eq (by omega))
  · refine Or.inr (Or.inl ⟨BitVec.eq_of_toNat_eq ?_, BitVec.eq_of_toNat_eq ?_⟩)
    · rw [BitVec.toNat_zero]
      omega
    · rw [BitVec.toNat_allOnes]
      omega

/-- **Words are the same exactly when they are congruent.** -/
theorem same_iff : Same x y ↔ x.toNat ≡ y.toNat [MOD 2 ^ w - 1] := by
  constructor
  · rintro (rfl | ⟨rfl, rfl⟩ | ⟨rfl, rfl⟩)
    · exact Nat.ModEq.refl _
    · exact allOnes_modEq_zero.symm
    · exact allOnes_modEq_zero
  · intro h
    rcases Nat.le_total x.toNat y.toNat with hle | hle
    · exact same_of_le hle h
    · exact (same_of_le hle h.symm).symm

theorem toNat_not_add (x : BitVec w) : (~~~ x).toNat + x.toNat = 2 ^ w - 1 := by
  have := x.isLt
  rw [BitVec.toNat_not]
  omega

/-- The complement of what stands for a total brings it to zero. -/
theorem Represents.not_add (h : Represents n x) : (~~~ x).toNat + n ≡ 0 [MOD 2 ^ w - 1] := by
  refine (Nat.ModEq.add_left _ h.modEq.symm).trans ?_
  rw [toNat_not_add]
  exact Nat.modEq_zero_iff_dvd.2 dvd_rfl

/-- **A word is the checksum**, up to the two representations of zero, exactly when it brings the total
to zero. -/
theorem same_checksum_iff (x : BitVec w) (ws : List (BitVec w)) :
    Same x (checksum ws) ↔ x.toNat + total ws ≡ 0 [MOD 2 ^ w - 1] := by
  have hsum := (represents_sum ws).not_add
  rw [same_iff, checksum]
  constructor
  · intro h
    exact (Nat.ModEq.add_right _ h).trans hsum
  · intro h
    exact Nat.ModEq.add_right_cancel' (total ws) (h.trans hsum.symm)

end OnesComplement
