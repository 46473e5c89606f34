/-
**Checksums of packets.**

The checksum of a header is computed over the words of a buffer in an accumulator of 32 bits, which is
then folded into 16 bits twice.  A final byte without a partner is loaded together with the byte behind
the buffer, and the mask that is applied keeps the latter.

A checksum is also updated for a word of 32 bits that is replaced.  The checksum is complemented after
it has been promoted to an `int`, so the bits above the 16 of a checksum are set, and they stand for a
carry that is taken back only when the sum of the differences is negative.

Main definitions:

* `foldChecksum` — the end of both functions;
* `computeChecksum`, `updateChecksum` — **the two functions**;
* `rfcChecksum` — the checksum of the words of a list of bytes;
* `words32` — a word of 32 bits as two of 16.

Main results:

* `computeChecksum_eq` — what is computed is the checksum of the words that are loaded;
* `compute_checksum_iff` — **exactly when that is the checksum of the buffer**;
* `update_checksum_iff` — **exactly when an update is a recomputation**.
-/

import ActiveRmt.Buffers
import ActiveRmt.OnesComplement

set_option relaxedAutoImplicit false
set_option autoImplicit false

namespace ActiveRmt

open OnesComplement

/-! ### The two functions -/

/-- **The end of both functions**: the carries are added to the lower half twice, and the lower half is
complemented. -/
def foldChecksum (chksum : BitVec 32) : BitVec 16 :=
  let chksum := (chksum >>> 16) + (chksum &&& 0xFFFF)
  let chksum := (chksum >>> 16) + chksum
  (~~~ chksum).setWidth 16

/-- The loop of `compute_checksum`, with the bytes that are left, the address of the next word and the
accumulator.  A byte that is left over is loaded as a word, and masked. -/
def checksumLoop (b : Buffer) : ℕ → ℕ → BitVec 32 → BitVec 32
  | 0, _, chksum => chksum
  | 1, start, chksum => chksum + (b.readHost16 start &&& 0xFF00).setWidth 32
  | n + 2, start, chksum => checksumLoop b n (start + 2) (chksum + (b.readHost16 start).setWidth 32)

/-- **`compute_checksum`.** -/
def computeChecksum (b : Buffer) (numBytes : ℕ) : BitVec 16 :=
  foldChecksum (checksumLoop b numBytes 0 0)

/-- **`update_checksum`.**  An operand of 16 bits is promoted to an `int` before it is complemented or
negated. -/
def updateChecksum (chksum : BitVec 16) (oldValue newValue : BitVec 32) : BitVec 16 :=
  let diffsum : BitVec 32 := 0
  let diffsum := diffsum + ~~~ (chksum.setWidth 32)
  let diffsum := diffsum + -(((oldValue &&& 0xFFFF).setWidth 16).setWidth 32)
  let diffsum := diffsum + -(((oldValue >>> 16).setWidth 16).setWidth 32)
  let diffsum := diffsum + ((newValue &&& 0xFFFF).setWidth 16).setWidth 32
  let diffsum := diffsum + ((newValue >>> 16).setWidth 16).setWidth 32
  foldChecksum diffsum

/-! ### What they should compute -/

/-- The words of a list of bytes, in the order of the host.  A byte that is left over is padded with a
zero behind it. -/
def words16 : List Byte → List (BitVec 16)
  | [] => []
  | [b] => [(0 : Byte) ++ b]
  | b :: c :: bytes => (c ++ b) :: words16 bytes

/-- **The checksum of a list of bytes.** -/
def rfcChecksum (bytes : List Byte) : BitVec 16 := checksum (words16 bytes)

/-- A word of 32 bits as two of 16, in the order of the host. -/
def words32 (v : BitVec 32) : List (BitVec 16) := [v.setWidth 16, (v >>> 16).setWidth 16]

/-! ### Folding -/

/-- What is folded, with the lower half of the accumulator and the upper one. -/
theorem toNat_not_foldChecksum (c : BitVec 32) :
    (~~~ foldChecksum c).toNat =
      ((c.toNat / 65536 + c.toNat % 65536) / 65536 + (c.toNat / 65536 + c.toNat % 65536)) % 65536 := by
  have hc := c.isLt
  have hmask : (c &&& 0xFFFF).toNat = c.toNat % 65536 := by
    rw [BitVec.toNat_and]
    exact Nat.and_two_pow_sub_one_eq_mod c.toNat 16
  have hshift : ∀ v : BitVec 32, (v >>> 16).toNat = v.toNat / 65536 := fun v => by
    rw [BitVec.toNat_ushiftRight, Nat.shiftRight_eq_div_pow]
  have hfirst : ((c >>> 16) + (c &&& 0xFFFF)).toNat = c.toNat / 65536 + c.toNat % 65536 := by
    rw [BitVec.toNat_add, hmask, hshift]
    omega
  have hnot : ∀ v : BitVec 32, ~~~ ((~~~ v).setWidth 16) = v.setWidth 16 := fun v => by
    ext i hi
    simp
  rw [foldChecksum, hnot, BitVec.toNat_setWidth, BitVec.toNat_add, hshift, hfirst]
  omega

/-- **Folding keeps what the accumulator stands for.** -/
theorem represents_foldChecksum (c : BitVec 32) : Represents c.toNat (~~~ foldChecksum c) := by
  have hc := c.isLt
  have hsplit : c.toNat = c.toNat / 65536 + c.toNat % 65536 + 65535 * (c.toNat / 65536) := by omega
  have hfirst : c.toNat / 65536 + c.toNat % 65536 ≡ c.toNat [MOD 65535] := by
    conv_rhs => rw [hsplit]
    exact Nat.modEq_add_modulus_mul_iff.2 (Nat.ModEq.refl _)
  have hfold := toNat_not_foldChecksum c
  rcases Nat.lt_or_ge (c.toNat / 65536 + c.toNat % 65536) 65536 with hlt | hge
  · rw [Nat.div_eq_of_lt hlt, Nat.zero_add, Nat.mod_eq_of_lt hlt] at hfold
    exact ⟨hfold ▸ hfirst, by omega⟩
  · -- the second carry
    have hcarry : (c.toNat / 65536 + c.toNat % 65536) / 65536 = 1 := by omega
    have hsub : (~~~ foldChecksum c).toNat + 65535 = c.toNat / 65536 + c.toNat % 65536 := by omega
    refine ⟨?_, by omega⟩
    refine Nat.ModEq.trans ?_ hfirst
    rw [← hsub]
    exact Nat.add_modEq_right.symm

/-! ### Recomputing -/

section Recompute

variable {b b' : Buffer} {n start : ℕ}

/-- The words that the loop adds. -/
def loaded (b : Buffer) : ℕ → ℕ → List (BitVec 16)
  | 0, _ => []
  | 1, start => [b.readHost16 start &&& 0xFF00]
  | n + 2, start => b.readHost16 start :: loaded b n (start + 2)

theorem total_loaded_le (b : Buffer) (n start : ℕ) : total (loaded b n start) ≤ (n + 1) / 2 * 65535 := by
  induction n, start using loaded.induct with
  | case1 start => simp [loaded]
  | case2 start =>
      have := (b.readHost16 start &&& 0xFF00).isLt
      rw [loaded, total_cons, total_nil]
      omega
  | case3 n start ih =>
      have := (b.readHost16 start).isLt
      rw [loaded, total_cons]
      omega

/-- While nothing overflows the accumulator holds the total. -/
theorem toNat_checksumLoop (b : Buffer) (n start : ℕ) (c : BitVec 32)
    (h : c.toNat + total (loaded b n start) < 2 ^ 32) :
    (checksumLoop b n start c).toNat = c.toNat + total (loaded b n start) := by
  have hstep : ∀ (c : BitVec 32) (x : BitVec 16), c.toNat + x.toNat < 2 ^ 32 →
      (c + x.setWidth 32).toNat = c.toNat + x.toNat := by
    intro c x hlt
    have := x.isLt
    rw [BitVec.toNat_add, BitVec.toNat_setWidth, Nat.mod_eq_of_lt (a := x.toNat) (by omega),
      Nat.mod_eq_of_lt hlt]
  induction n, start using loaded.induct generalizing c with
  | case1 start => rfl
  | case2 start =>
      rw [loaded, total_cons, total_nil] at h ⊢
      exact hstep c _ h
  | case3 n start ih =>
      rw [loaded, total_cons] at h ⊢
      have hc := hstep c (b.readHost16 start) (by omega)
      rw [checksumLoop, ih _ (by omega), hc, Nat.add_assoc]

/-- **What is computed is the checksum of the words that are loaded.** -/
theorem computeChecksum_eq (b : Buffer) (h : n < 2 ^ 17) : computeChecksum b n = checksum (loaded b n 0) := by
  have hle := total_loaded_le b n 0
  have htotal := toNat_checksumLoop b n 0 0 (by rw [show (0 : BitVec 32).toNat = 0 from rfl]; omega)
  rw [show (0 : BitVec 32).toNat = 0 from rfl, Nat.zero_add] at htotal
  have hfold := represents_foldChecksum (checksumLoop b n 0 0)
  rw [htotal] at hfold
  rw [checksum, ← hfold.unique (represents_sum _), BitVec.not_not, computeChecksum]

theorem slice_succ_succ (b : Buffer) (start n : ℕ) :
    b.slice start (n + 2) = b start :: b (start + 1) :: b.slice (start + 2) n := by
  rw [Nat.add_comm n 2, Buffer.slice_add]
  rfl

/-- Of an even number of bytes the words of the buffer are loaded. -/
theorem loaded_of_even (b : Buffer) (n start : ℕ) (h : n % 2 = 0) :
    loaded b n start = words16 (b.slice start n) := by
  induction n, start using loaded.induct with
  | case1 start => rfl
  | case2 start => omega
  | case3 n start ih => rw [loaded, slice_succ_succ, words16, ih (by omega)]; rfl

/-- Of an odd number of bytes the byte behind the buffer is loaded and the last one is not. -/
theorem total_loaded_of_odd (b : Buffer) (n start : ℕ) (h : n % 2 = 1) :
    total (loaded b n start) = total (words16 (b.slice start (n - 1))) + 256 * (b (start + n)).toNat := by
  induction n, start using loaded.induct with
  | case1 start => omega
  | case2 start =>
      have hlow : (b.readHost16 start &&& 0xFF00) = b (start + 1) ++ (0 : Byte) := by
        rw [Buffer.readHost16, show (0xFF00 : BitVec 16) = BitVec.allOnes 8 ++ (0 : Byte) by rfl,
          BitVec.and_append, BitVec.and_allOnes, show (0 : Byte) = 0#8 from rfl, BitVec.and_zero]
      rw [loaded, hlow, total_cons, total_nil, BitVec.toNat_append, Nat.add_zero]
      show (b (start + 1)).toNat <<< 8 ||| 0 = _
      rw [Nat.or_zero, Nat.shiftLeft_eq]
      show _ = 0 + _
      omega
  | case3 n start ih =>
      rw [loaded, total_cons, ih (by omega), show n.succ.succ - 1 = n - 1 + 2 by omega, slice_succ_succ,
        words16, total_cons, show start + 2 + n = start + n.succ.succ by omega, Nat.add_assoc]
      rfl

end Recompute

/-- **Exactly when what is computed is the checksum of the buffer**, whatever lies behind it: the number
of its bytes is even. -/
theorem compute_checksum_iff (bytes : List Byte) (h : bytes.length < 2 ^ 17) :
    (∀ b : Buffer, b.slice 0 bytes.length = bytes → computeChecksum b bytes.length = rfcChecksum bytes) ↔
      bytes.length % 2 = 0 := by
  constructor
  · intro hall
    by_contra hodd
    have hodd : bytes.length % 2 = 1 := by omega
    -- two buffers that differ in the byte behind these ones
    let b : Byte → Buffer := fun x => Buffer.write (fun _ => x) 0 bytes
    have hbytes : ∀ x, (b x).slice 0 bytes.length = bytes := fun x => Buffer.slice_write _ 0 rfl
    have hbehind : ∀ x, (b x) (0 + bytes.length) = x := fun x => Buffer.write_of_le (by omega)
    have hsame : checksum (loaded (b 0) bytes.length 0) = checksum (loaded (b 1) bytes.length 0) := by
      rw [← computeChecksum_eq _ h, ← computeChecksum_eq _ h, hall _ (hbytes 0), hall _ (hbytes 1)]
    have hzero := (same_checksum_iff _ _).1 (Same.refl (checksum (loaded (b 0) bytes.length 0)))
    have hone := (same_checksum_iff _ _).1 (Same.refl (checksum (loaded (b 1) bytes.length 0)))
    have hprefix : (b 0).slice 0 (bytes.length - 1) = (b 1).slice 0 (bytes.length - 1) := by
      refine Buffer.slice_congr fun i hi => ?_
      have hi : i < bytes.length := by omega
      rw [show (b 0) (0 + i) = bytes[i] from Buffer.write_add (List.getElem?_eq_getElem hi),
        show (b 1) (0 + i) = bytes[i] from Buffer.write_add (List.getElem?_eq_getElem hi)]
    rw [← hsame, total_loaded_of_odd _ _ _ hodd, hbehind, ← hprefix] at hone
    rw [total_loaded_of_odd _ _ _ hodd, hbehind] at hzero
    unfold Nat.ModEq at hzero hone
    simp at hzero hone
    omega
  · intro heven b hb
    rw [computeChecksum_eq b h, loaded_of_even b _ 0 heven, hb, rfcChecksum]

theorem compute_checksum_iff_four :
    (∀ b : Buffer, b.slice 0 4 = [1, 2, 3, 4] → computeChecksum b 4 = rfcChecksum [1, 2, 3, 4]) ↔
      [(1 : Byte), 2, 3, 4].length % 2 = 0 :=
  compute_checksum_iff [1, 2, 3, 4] (by decide)

/-- Of one byte nothing is added: the checksum is the one of no bytes, and not that of the byte. -/
theorem last_byte_lost :
    (Buffer.write (fun _ => 0) 0 [1]).slice 0 1 = [1] ∧
      computeChecksum (Buffer.write (fun _ => 0) 0 [1]) 1 = 0xFFFF ∧ rfcChecksum [1] = 0xFFFE := by
  decide

/-! ### Updating -/

section Update

variable (c : BitVec 16) (oldValue newValue : BitVec 32)

theorem total_words32 (v : BitVec 32) : total (words32 v) = v.toNat % 65536 + v.toNat / 65536 := by
  have hv := v.isLt
  rw [words32, total_cons, total_cons, total_nil, BitVec.toNat_setWidth, BitVec.toNat_setWidth,
    BitVec.toNat_ushiftRight, Nat.shiftRight_eq_div_pow]
  omega

/-- The lower half of a word of 32 bits, in an operand of 32. -/
theorem toNat_lowHalf (v : BitVec 32) :
    (((v &&& 0xFFFF).setWidth 16).setWidth 32).toNat = v.toNat % 65536 := by
  have hmask : (v &&& 0xFFFF).toNat = v.toNat % 65536 := by
    rw [BitVec.toNat_and]
    exact Nat.and_two_pow_sub_one_eq_mod v.toNat 16
  rw [BitVec.toNat_setWidth, BitVec.toNat_setWidth, hmask]
  omega

/-- The upper half of a word of 32 bits, in an operand of 32. -/
theorem toNat_highHalf (v : BitVec 32) :
    (((v >>> 16).setWidth 16).setWidth 32).toNat = v.toNat / 65536 := by
  have := v.isLt
  rw [BitVec.toNat_setWidth, BitVec.toNat_setWidth, BitVec.toNat_ushiftRight, Nat.shiftRight_eq_div_pow]
  omega

/-- Taking the differences back, in words of 32 bits. -/
theorem differences_add (c o₁ o₂ n₁ n₂ : BitVec 32) :
    (0 + ~~~ c + -o₁ + -o₂ + n₁ + n₂) + (1 + c + o₁ + o₂) = n₁ + n₂ := by
  have hnot : ~~~ c = -c - 1 := eq_sub_of_add_eq (BitVec.neg_eq_not_add c).symm
  rw [hnot]
  ring

/-- **The sum of the differences**, before it is folded.  It is negative as an integer unless the new
words are larger than what they are compared with. -/
theorem updateChecksum_eq :
    ∃ d : BitVec 32, updateChecksum c oldValue newValue = foldChecksum d ∧
      (d.toNat + (1 + c.toNat + total (words32 oldValue)) = total (words32 newValue) + 2 ^ 32 ∨
        d.toNat + (1 + c.toNat + total (words32 oldValue)) = total (words32 newValue)) := by
  refine ⟨_, rfl, ?_⟩
  have hback := congrArg BitVec.toNat (differences_add (c.setWidth 32)
    (((oldValue &&& 0xFFFF).setWidth 16).setWidth 32) (((oldValue >>> 16).setWidth 16).setWidth 32)
    (((newValue &&& 0xFFFF).setWidth 16).setWidth 32) (((newValue >>> 16).setWidth 16).setWidth 32))
  generalize hd : (0 + ~~~ (c.setWidth 32) + -(((oldValue &&& 0xFFFF).setWidth 16).setWidth 32) +
    -(((oldValue >>> 16).setWidth 16).setWidth 32) + ((newValue &&& 0xFFFF).setWidth 16).setWidth 32 +
      ((newValue >>> 16).setWidth 16).setWidth 32 : BitVec 32) = d at hback ⊢
  have hdlt := d.isLt
  have hc := c.isLt
  have ho := oldValue.isLt
  have hn := newValue.isLt
  have hpromoted : (c.setWidth 32).toNat = c.toNat := by
    rw [BitVec.toNat_setWidth]
    omega
  simp only [BitVec.toNat_add, toNat_lowHalf, toNat_highHalf, hpromoted,
    show (1 : BitVec 32).toNat = 1 from rfl] at hback
  rw [total_words32, total_words32]
  omega

/-- **Exactly when an update is a recomputation**, up to the two representations of zero: the two words
that are new are together not larger than the checksum and the two old words. -/
theorem update_checksum_iff (before after : List (BitVec 16)) (oldValue newValue : BitVec 32) :
    Same
        (updateChecksum (checksum (before ++ words32 oldValue ++ after)) oldValue newValue)
        (checksum (before ++ words32 newValue ++ after)) ↔
      newValue.toNat % 65536 + newValue.toNat / 65536 ≤
        (checksum (before ++ words32 oldValue ++ after)).toNat +
          (oldValue.toNat % 65536 + oldValue.toNat / 65536) := by
  have hold := (same_checksum_iff _ _).1 (Same.refl (checksum (before ++ words32 oldValue ++ after)))
  generalize checksum (before ++ words32 oldValue ++ after) = c at hold ⊢
  obtain ⟨d, hd, hsum⟩ := updateChecksum_eq c oldValue newValue
  have hfold := (represents_foldChecksum d).not_add
  have hdlt := d.isLt
  rw [BitVec.not_not] at hfold
  rw [hd, same_checksum_iff]
  simp only [total_append, total_words32] at hold hsum ⊢
  unfold Nat.ModEq at hold hfold ⊢
  omega

/-- A carry is missing. -/
theorem update_loses_carry :
    checksum ([0xFFFE] ++ words32 0) = 1 ∧ updateChecksum 1 0 2 = 0xFFFF ∧
      checksum ([0xFFFE] ++ words32 2) = 0xFFFE ∧ ¬ Same (0xFFFF : BitVec 16) 0xFFFE := by
  decide

end Update

end ActiveRmt
