/-
**Byte buffers: writing, and moving bytes in place.**

A buffer is memory seen from the address of its first byte.  Code that inserts a header into a packet
moves the rest of the packet up, last byte first; code that removes a header moves the rest down, first
byte first.  In both directions the source and the target overlap, and the order of the loop is what
keeps the bytes that have not been moved yet.

Main definitions:

* `Buffer`, `Buffer.slice` — memory, and what lies between two addresses;
* `Buffer.write` — consecutive bytes are written;
* `Buffer.moveUp`, `Buffer.moveDown` — the two loops;
* `Buffer.read16`, `Buffer.read32`, `bytes16`, `bytes32` — words in network byte order;
* `Buffer.readHost16`, `Buffer.readHost32`, `Buffer.readHost64` — words in the byte order of the host.

Main results:

* `Buffer.slice_moveUp`, `Buffer.slice_moveDown` — **a move keeps what it moves**;
* `Buffer.moveUp_of_lt`, `Buffer.moveDown_of_lt` — what lies before the moved bytes stays;
* `Buffer.slice_write`, `Buffer.slice_write_of_le` — a write, and what lies outside of it;
* `Buffer.read16_eq`, `Buffer.read32_eq` — reading a word that was written.
-/

import Mathlib.Data.List.Basic
import Mathlib.Logic.Function.Basic
import Mathlib.Tactic.Linarith

set_option relaxedAutoImplicit false
set_option autoImplicit false

namespace ActiveRmt

/-- A byte. -/
abbrev Byte := BitVec 8

/-- **Memory**, from the address of a buffer on. -/
abbrev Buffer := ℕ → Byte

namespace Buffer

variable {b : Buffer} {start n k : ℕ}

/-- The `n` bytes from `start` on. -/
def slice (b : Buffer) (start n : ℕ) : List Byte := (List.range n).map fun i => b (start + i)

@[simp] theorem length_slice : (b.slice start n).length = n := by simp [slice]

theorem getElem?_slice : (b.slice start n)[k]? = if k < n then some (b (start + k)) else none := by
  unfold slice
  split_ifs with h
  · simp [h]
  · simp [Nat.le_of_not_lt h]

/-- Slices are equal when their bytes are. -/
theorem slice_eq_iff {l : List Byte} :
    b.slice start n = l ↔ l.length = n ∧ ∀ i < n, l[i]? = some (b (start + i)) := by
  constructor
  · rintro rfl
    refine ⟨length_slice, fun i hi => ?_⟩
    rw [getElem?_slice, if_pos hi]
  · rintro ⟨hlen, h⟩
    refine List.ext_getElem? fun i => ?_
    rw [getElem?_slice]
    split_ifs with hi
    · exact (h i hi).symm
    · rw [List.getElem?_eq_none (hlen.le.trans (Nat.le_of_not_lt hi))]

theorem slice_congr {b' : Buffer} {start' : ℕ} (h : ∀ i < n, b (start + i) = b' (start' + i)) :
    b.slice start n = b'.slice start' n := by
  refine slice_eq_iff.2 ⟨length_slice, fun i hi => ?_⟩
  rw [getElem?_slice, if_pos hi, h i hi]

theorem slice_add (m : ℕ) : b.slice start (m + n) = b.slice start m ++ b.slice (start + m) n := by
  unfold slice
  rw [List.range_add, List.map_append, List.map_map]
  congr 1
  refine List.map_congr_left fun i _ => ?_
  rw [Function.comp_apply, Nat.add_assoc]

/-! ### Writing -/

/-- **Consecutive bytes are written**, from `start` on. -/
def write (b : Buffer) : ℕ → List Byte → Buffer
  | _, [] => b
  | start, x :: xs => write (Function.update b start x) (start + 1) xs

theorem write_of_lt {l : List Byte} (h : k < start) : b.write start l k = b k := by
  induction l generalizing b start with
  | nil => rfl
  | cons x xs ih =>
      rw [write, ih (Nat.lt_succ_of_lt h), Function.update_of_ne h.ne]

theorem write_of_le {l : List Byte} (h : start + l.length ≤ k) : b.write start l k = b k := by
  induction l generalizing b start with
  | nil => rfl
  | cons x xs ih =>
      rw [List.length_cons] at h
      rw [write, ih (by omega), Function.update_of_ne (by omega)]

theorem write_add {l : List Byte} {i : ℕ} {x : Byte} (h : l[i]? = some x) :
    b.write start l (start + i) = x := by
  induction l generalizing b start i with
  | nil => exact absurd h (by simp)
  | cons y ys ih =>
      cases i with
      | zero =>
          rw [write, write_of_lt (by omega), Nat.add_zero, Function.update_self]
          exact Option.some.inj h
      | succ i =>
          rw [write, show start + (i + 1) = start + 1 + i by omega]
          exact ih h

/-- What was written is there. -/
theorem slice_write (b : Buffer) (start : ℕ) {l : List Byte} (hn : l.length = n) : (b.write start l).slice start n = l := by
  refine slice_eq_iff.2 ⟨hn, fun i hi => ?_⟩
  have hi : i < l.length := hn.symm ▸ hi
  rw [write_add (List.getElem?_eq_getElem hi), List.getElem?_eq_getElem hi]

/-- What lies behind a write stays. -/
theorem slice_write_of_le {l : List Byte} {start' : ℕ} (h : start + l.length ≤ start') :
    (b.write start l).slice start' n = b.slice start' n :=
  slice_congr fun i _ => write_of_le (by omega)

/-- What lies before a write stays. -/
theorem slice_write_of_ge {l : List Byte} {start' : ℕ} (h : start' + n ≤ start) :
    (b.write start l).slice start' n = b.slice start' n :=
  slice_congr fun i hi => write_of_lt (by omega)

/-! ### Moving -/

/-- **The loop that makes room**: the `n` bytes from `start` on move up by `h`, last one first. -/
def moveUp (h start : ℕ) : ℕ → Buffer → Buffer
  | 0, b => b
  | n + 1, b => moveUp h start n (Function.update b (start + n + h) (b (start + n)))

/-- **The loop that closes a gap**: `n` bytes move down by `h` to `start`, first one first. -/
def moveDown (h start : ℕ) : ℕ → Buffer → Buffer
  | 0, b => b
  | n + 1, b =>
      let b' := moveDown h start n b
      Function.update b' (start + n) (b' (start + h + n))

variable {h : ℕ}

theorem moveUp_of_le (hk : start + h + n ≤ k) : moveUp h start n b k = b k := by
  induction n generalizing b with
  | zero => rfl
  | succ n ih => rw [moveUp, ih (by omega), Function.update_of_ne (by omega)]

theorem moveUp_of_lt (hk : k < start + h) : moveUp h start n b k = b k := by
  induction n generalizing b with
  | zero => rfl
  | succ n ih => rw [moveUp, ih, Function.update_of_ne (by omega)]

theorem moveUp_add {i : ℕ} (hi : i < n) : moveUp h start n b (start + h + i) = b (start + i) := by
  induction n generalizing b with
  | zero => exact absurd hi (Nat.not_lt_zero i)
  | succ n ih =>
      rw [moveUp]
      rcases Nat.lt_succ_iff_lt_or_eq.1 hi with hi | rfl
      · -- the byte that was moved first lies above all that are still to be read
        rw [ih hi]
        by_cases hh : h = 0
        · subst hh
          rcases eq_or_ne i n with rfl | hne
          · exact absurd hi (lt_irrefl i)
          · rw [Function.update_of_ne (by omega)]
        · rw [Function.update_of_ne (by omega)]
      · rw [moveUp_of_le (by omega), show start + h + i = start + i + h by omega,
          Function.update_self]

/-- **A move up keeps what it moves.** -/
theorem slice_moveUp : (moveUp h start n b).slice (start + h) n = b.slice start n :=
  slice_congr fun _ hi => moveUp_add hi

theorem moveDown_of_lt (hk : k < start) : moveDown h start n b k = b k := by
  induction n with
  | zero => rfl
  | succ n ih => rw [moveDown, Function.update_of_ne (by omega), ih]

theorem moveDown_of_le (hk : start + n ≤ k) : moveDown h start n b k = b k := by
  induction n with
  | zero => rfl
  | succ n ih => rw [moveDown, Function.update_of_ne (by omega), ih (by omega)]

theorem moveDown_add {i : ℕ} (hi : i < n) :
    moveDown h start n b (start + i) = b (start + h + i) := by
  induction n with
  | zero => exact absurd hi (Nat.not_lt_zero i)
  | succ n ih =>
      rw [moveDown]
      rcases Nat.lt_succ_iff_lt_or_eq.1 hi with hi | rfl
      · rw [Function.update_of_ne (by omega), ih hi]
      · -- the byte that is read has not been overwritten
        rw [Function.update_self, moveDown_of_le (by omega)]

/-- **A move down keeps what it moves.** -/
theorem slice_moveDown : (moveDown h start n b).slice start n = b.slice (start + h) n :=
  slice_congr fun _ hi => moveDown_add hi

/-! ### Words -/

/-- Two bytes, in network byte order. -/
def read16 (b : Buffer) (start : ℕ) : BitVec 16 := b start ++ b (start + 1)

/-- Four bytes, in network byte order. -/
def read32 (b : Buffer) (start : ℕ) : BitVec 32 := b.read16 start ++ b.read16 (start + 2)

/-- Two bytes, in the order of the host. -/
def readHost16 (b : Buffer) (start : ℕ) : BitVec 16 := b (start + 1) ++ b start

/-- Four bytes, in the order of the host. -/
def readHost32 (b : Buffer) (start : ℕ) : BitVec 32 :=
  (b (start + 3) ++ b (start + 2)) ++ (b (start + 1) ++ b start)

/-- Eight bytes, in the order of the host. -/
def readHost64 (b : Buffer) (start : ℕ) : BitVec 64 := b.readHost32 (start + 4) ++ b.readHost32 start

theorem read16_congr {b' : Buffer} {low : ℕ} (h : ∀ k, low ≤ k → b k = b' k) (hs : low ≤ start) :
    b.read16 start = b'.read16 start := by
  rw [read16, read16, h start hs, h (start + 1) (Nat.le_succ_of_le hs)]

theorem read32_congr {b' : Buffer} {low : ℕ} (h : ∀ k, low ≤ k → b k = b' k) (hs : low ≤ start) :
    b.read32 start = b'.read32 start := by
  rw [read32, read32, read16_congr h hs, read16_congr h (Nat.le_add_right_of_le hs)]

end Buffer

/-- The bytes of a word, in network byte order. -/
def bytes16 (x : BitVec 16) : List Byte := [x.extractLsb' 8 8, x.extractLsb' 0 8]

/-- The bytes of a word, in network byte order. -/
def bytes32 (x : BitVec 32) : List Byte := bytes16 (x.extractLsb' 16 16) ++ bytes16 (x.extractLsb' 0 16)

@[simp] theorem length_bytes16 (x : BitVec 16) : (bytes16 x).length = 2 := rfl

@[simp] theorem length_bytes32 (x : BitVec 32) : (bytes32 x).length = 4 := rfl

theorem Buffer.read16_eq {b : Buffer} {start : ℕ} {x : BitVec 16}
    (h : b.slice start 2 = bytes16 x) : b.read16 start = x := by
  have h0 : x.extractLsb' 8 8 = b start := Option.some.inj ((slice_eq_iff.1 h).2 0 (by decide))
  have h1 : x.extractLsb' 0 8 = b (start + 1) := Option.some.inj ((slice_eq_iff.1 h).2 1 (by decide))
  rw [read16, ← h0, ← h1, BitVec.extractLsb'_append_extractLsb'_eq_extractLsb' (by decide)]
  exact BitVec.extractLsb'_eq_self

/-- The bytes of a word that can be read. -/
theorem Buffer.slice_read16 (b : Buffer) (start : ℕ) : b.slice start 2 = bytes16 (b.read16 start) := by
  refine slice_eq_iff.2 ⟨rfl, fun i hi => ?_⟩
  have hpair : i = 0 ∨ i = 1 := by omega
  rcases hpair with rfl | rfl
  · show some ((b.read16 start).extractLsb' 8 8) = some (b start)
    rw [read16, BitVec.extractLsb'_append_eq_left]
  · show some ((b.read16 start).extractLsb' 0 8) = some (b (start + 1))
    rw [read16, BitVec.extractLsb'_append_eq_right]

theorem Buffer.read32_eq {b : Buffer} {start : ℕ} {x : BitVec 32}
    (h : b.slice start 4 = bytes32 x) : b.read32 start = x := by
  rw [show (4 : ℕ) = 2 + 2 from rfl, slice_add] at h
  obtain ⟨h0, h1⟩ := List.append_inj h (by simp)
  rw [read32, read16_eq h0, read16_eq h1,
    BitVec.extractLsb'_append_extractLsb'_eq_extractLsb' (by decide)]
  exact BitVec.extractLsb'_eq_self

end ActiveRmt
