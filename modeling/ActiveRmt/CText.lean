/-
**Lines of text with numbers: how C reads them.**

`fgets` reads a line into a buffer, or as much of it as fits.  `strtok` cuts a buffer into pieces, and the
set of delimiters may change from call to call.  `atoi` reads the number that a piece starts with.  On
the other side stands a writer that joins the decimals of numbers with commas.

The reader gets all numbers back if the buffer holds the line.  If it does not, it gets other numbers:
what it has read, written again, would not be longer than the buffer.

Main definitions:

* `fgets`, `strtok`, `atoi` — the functions of the library;
* `csv`, `decimal` — numbers in a line, and a single one;
* `readNumbers` — **the loop over the pieces of a buffer**.

Main results:

* `fgets_line`, `fgets_long` — a line that fits, and one that does not;
* `atoi_decimal` — reading a decimal;
* `readNumbers_csv` — **the numbers of a line are read**;
* `length_csv_le` — **a buffer does not hold more numbers than it has room for**.
-/

import Mathlib.Data.List.Basic
import Mathlib.Data.List.TakeWhile
import Mathlib.Data.Nat.Digits.Defs
import Mathlib.Tactic.Linarith

set_option relaxedAutoImplicit false
set_option autoImplicit false

namespace CText

/-! ### Writing -/

/-- A natural number in decimal. -/
def digits (n : ℕ) : List Char := Nat.toDigits 10 n

/-- A number in decimal. -/
def decimal (z : ℤ) : List Char := if z < 0 then '-' :: digits (-z).toNat else digits z.toNat

/-- **Numbers joined by commas.** -/
def csv : List ℕ → List Char
  | [] => []
  | n :: ns => digits n ++ ns.flatMap fun m => ',' :: digits m

theorem digits_ne_nil (n : ℕ) : digits n ≠ [] := Nat.toDigits_ne_nil

theorem isDigit_of_mem_digits {n : ℕ} {c : Char} (h : c ∈ digits n) : c.isDigit = true :=
  Nat.isDigit_of_mem_toDigits (by decide) le_rfl h

theorem csv_cons_cons (n m : ℕ) (ns : List ℕ) : csv (n :: m :: ns) = digits n ++ ',' :: csv (m :: ns) := rfl

/-- A line of numbers has digits and commas. -/
theorem mem_csv {ns : List ℕ} {c : Char} (h : c ∈ csv ns) : c.isDigit = true ∨ c = ',' := by
  cases ns with
  | nil => simp [csv] at h
  | cons n ns =>
      simp only [csv, List.mem_append, List.mem_flatMap, List.mem_cons] at h
      rcases h with h | ⟨m, -, rfl | h⟩
      · exact Or.inl (isDigit_of_mem_digits h)
      · exact Or.inr rfl
      · exact Or.inl (isDigit_of_mem_digits h)

/-! ### Reading -/

/-- At most `n` characters of a line, its end included, and what is left. -/
def readLine : ℕ → List Char → List Char × List Char
  | 0, s => ([], s)
  | _ + 1, [] => ([], [])
  | n + 1, c :: s =>
      if c = '\n' then (['\n'], s) else ((c :: (readLine n s).1), (readLine n s).2)

/-- **`fgets`** into a buffer of `n` characters, the last one for the end of the string. -/
def fgets (n : ℕ) (s : List Char) : Option (List Char × List Char) :=
  if s = [] then none else some (readLine (n - 1) s)

/-- **`strtok`**: the next piece, and what is left behind the delimiter that ends it. -/
def strtok (delims s : List Char) : Option (List Char × List Char) :=
  let s := s.dropWhile (· ∈ delims)
  if s = [] then none
  else some (s.takeWhile (· ∉ delims), (s.dropWhile (· ∉ delims)).drop 1)

/-- `isspace`. -/
def isSpace (c : Char) : Bool := c ∈ [' ', '\t', '\n', '\r'] || c.toNat = 11 || c.toNat = 12

/-- The number that a string starts with. -/
def leadingNat (s : List Char) : ℕ := Nat.ofDigitChars 10 (s.takeWhile Char.isDigit) 0

/-- **`atoi`**, for numbers that fit an `int`. -/
def atoi (s : List Char) : ℤ :=
  match s.dropWhile isSpace with
  | '-' :: s => -(leadingNat s : ℤ)
  | '+' :: s => leadingNat s
  | s => leadingNat s

/-- The pieces of what is left of a buffer, by repeated calls. -/
def strtokAll (delims : List Char) : ℕ → List Char → List (List Char)
  | 0, _ => []
  | n + 1, s =>
      match strtok delims s with
      | none => []
      | some (tok, rest) => tok :: strtokAll delims n rest

/-- **The numbers of a buffer**: the first piece ends at a comma, the others at a comma or at the end of
the line. -/
def readNumbers (s : List Char) : List ℤ :=
  match strtok [','] s with
  | none => []
  | some (tok, rest) => (tok :: strtokAll [',', '\n'] rest.length rest).map atoi

/-! ### Lines -/

theorem readLine_line {n : ℕ} {s r : List Char} (hs : '\n' ∉ s) (hn : s.length < n) :
    readLine n (s ++ '\n' :: r) = (s ++ ['\n'], r) := by
  induction s generalizing n with
  | nil =>
      cases n with
      | zero => exact absurd hn (Nat.not_lt_zero _)
      | succ n => simp [readLine]
  | cons c s ih =>
      cases n with
      | zero => exact absurd hn (Nat.not_lt_zero _)
      | succ n =>
          have hc : c ≠ '\n' := fun h => hs (h ▸ List.mem_cons_self)
          have ih := ih (fun h => hs (List.mem_cons_of_mem c h)) (Nat.lt_of_succ_lt_succ hn)
          rw [List.cons_append, readLine, if_neg hc, ih]
          rfl

theorem readLine_long {n : ℕ} {s r : List Char} (hs : '\n' ∉ s) (hn : n ≤ s.length) :
    readLine n (s ++ r) = (s.take n, s.drop n ++ r) := by
  induction n generalizing s with
  | zero => rfl
  | succ n ih =>
      cases s with
      | nil => exact absurd hn (Nat.not_succ_le_zero n)
      | cons c s =>
          have hc : c ≠ '\n' := fun h => hs (h ▸ List.mem_cons_self)
          have ih := ih (fun h => hs (List.mem_cons_of_mem c h)) (Nat.le_of_succ_le_succ hn)
          rw [List.cons_append, readLine, if_neg hc, ih]
          rfl

/-- **A line that fits the buffer.** -/
theorem fgets_line {n : ℕ} {s r : List Char} (hs : '\n' ∉ s) (hn : s.length + 1 < n) :
    fgets n (s ++ '\n' :: r) = some (s ++ ['\n'], r) := by
  rw [fgets, if_neg (by simp), readLine_line hs (by omega)]

/-- **A line that does not**: the buffer is full, and the next call goes on in the line. -/
theorem fgets_long {n : ℕ} {s r : List Char} (hs : '\n' ∉ s) (hn : n ≤ s.length + 1) (hr : r ≠ []) :
    fgets n (s ++ r) = some (s.take (n - 1), s.drop (n - 1) ++ r) := by
  rw [fgets, if_neg (by simp [hr]), readLine_long hs (by omega)]

/-! ### Numbers -/

/-- The string does not go on with a digit. -/
def EndsNumber (s : List Char) : Prop := ∀ c ∈ s.head?, c.isDigit = false

theorem leadingNat_digits {n : ℕ} {s : List Char} (hs : EndsNumber s) :
    leadingNat (digits n ++ s) = n := by
  have hstop : s.takeWhile Char.isDigit = [] := by
    cases s with
    | nil => rfl
    | cons c s => simp [hs c (by simp)]
  rw [leadingNat, List.takeWhile_append_of_pos fun c hc => isDigit_of_mem_digits hc, hstop,
    List.append_nil]
  exact Nat.ofDigitChars_ten_toDigits

/-- A digit is no space and no sign. -/
theorem not_special_of_isDigit {c : Char} (h : c.isDigit = true) :
    isSpace c = false ∧ c ≠ '-' ∧ c ≠ '+' ∧ c ≠ ',' ∧ c ≠ '\n' := by
  have hval : 48 ≤ c.toNat := by
    have h := (Bool.and_eq_true_iff.1 h).1
    exact UInt32.le_iff_toNat_le.1 (of_decide_eq_true h)
  have hne : ∀ d : Char, d.toNat < 48 → c ≠ d := fun d hd hcd => by
    subst hcd
    omega
  have hspace : isSpace c = false := by
    simp only [isSpace, List.mem_cons, List.not_mem_nil, or_false, Bool.or_eq_false_iff,
      decide_eq_false_iff_not, not_or]
    exact ⟨⟨⟨hne _ (by decide), hne _ (by decide), hne _ (by decide), hne _ (by decide)⟩, by omega⟩,
      by omega⟩
  exact ⟨hspace, hne _ (by decide), hne _ (by decide), hne _ (by decide), hne _ (by decide)⟩

theorem atoi_of_digit {c : Char} {s : List Char} (h : c.isDigit = true) :
    atoi (c :: s) = leadingNat (c :: s) := by
  obtain ⟨hspace, hminus, hplus, -⟩ := not_special_of_isDigit h
  rw [atoi, List.dropWhile_cons_of_neg (by simp [hspace])]
  split
  · rename_i heq
    exact absurd (List.cons.inj heq).1 hminus
  · rename_i heq
    exact absurd (List.cons.inj heq).1 hplus
  · rfl

theorem atoi_digits {n : ℕ} {s : List Char} (hs : EndsNumber s) : atoi (digits n ++ s) = n := by
  obtain ⟨c, cs, hc⟩ := List.exists_cons_of_ne_nil (digits_ne_nil n)
  have hdigit : c.isDigit = true := isDigit_of_mem_digits (hc ▸ List.mem_cons_self)
  rw [hc, List.cons_append, atoi_of_digit hdigit, ← List.cons_append, ← hc, leadingNat_digits hs]

/-- **Reading a decimal.** -/
theorem atoi_decimal {z : ℤ} {s : List Char} (hs : EndsNumber s) : atoi (decimal z ++ s) = z := by
  unfold decimal
  split_ifs with hz
  · rw [atoi, List.cons_append, List.dropWhile_cons_of_neg (by decide)]
    show -(leadingNat (digits (-z).toNat ++ s) : ℤ) = z
    rw [leadingNat_digits hs]
    omega
  · rw [atoi_digits hs]
    omega

/-! ### Pieces -/

section Pieces

variable {delims s tok rest : List Char}

/-- A piece that is ended by a delimiter. -/
theorem strtok_append {c : Char} (hne : tok ≠ []) (h : ∀ d ∈ tok, d ∉ delims) (hc : c ∈ delims) :
    strtok delims (tok ++ c :: rest) = some (tok, rest) := by
  obtain ⟨d, ds, rfl⟩ := List.exists_cons_of_ne_nil hne
  have hd := h d List.mem_cons_self
  have hall : ∀ x ∈ d :: ds, decide (x ∉ delims) = true := fun x hx => by simp [h x hx]
  rw [strtok, List.cons_append, List.dropWhile_cons_of_neg (by simp [hd]), if_neg (by simp),
    ← List.cons_append, List.takeWhile_append_of_pos hall, List.dropWhile_append_of_pos hall,
    List.takeWhile_cons_of_neg (by simp [hc]), List.dropWhile_cons_of_neg (by simp [hc]),
    List.append_nil]
  rfl

/-- The last piece. -/
theorem strtok_last (hne : tok ≠ []) (h : ∀ d ∈ tok, d ∉ delims) :
    strtok delims tok = some (tok, []) := by
  obtain ⟨d, ds, rfl⟩ := List.exists_cons_of_ne_nil hne
  have hd := h d List.mem_cons_self
  have hall : ∀ x ∈ d :: ds, decide (x ∉ delims) = true := fun x hx => by simp [h x hx]
  rw [strtok, List.dropWhile_cons_of_neg (by simp [hd]), if_neg (by simp),
    List.takeWhile_eq_self_iff.2 hall, List.dropWhile_eq_nil_iff.2 hall]
  rfl

/-- **What a piece is made of, and how much of the buffer it takes.** -/
theorem strtok_some (h : strtok delims s = some (tok, rest)) :
    tok ≠ [] ∧ (∀ c ∈ tok, c ∈ s ∧ c ∉ delims) ∧ (∀ c ∈ rest, c ∈ s) ∧
      tok.length ≤ s.length ∧ (rest ≠ [] → tok.length + 1 + rest.length ≤ s.length) := by
  unfold strtok at h
  set t := s.dropWhile (· ∈ delims) with ht
  dsimp only at h
  split_ifs at h with hnil
  obtain ⟨rfl, rfl⟩ := Prod.ext_iff.1 (Option.some.inj h)
  dsimp only
  have hsub : ∀ c ∈ t, c ∈ s := fun c hc => List.dropWhile_subset _ hc
  have hlen : t.length ≤ s.length := (List.dropWhile_sublist _).length_le
  have hsplit : (t.takeWhile (· ∉ delims)).length + (t.dropWhile (· ∉ delims)).length = t.length := by
    rw [← List.length_append, List.takeWhile_append_dropWhile]
  refine ⟨?_, fun c hc => ⟨hsub c (List.takeWhile_subset _ hc), ?_⟩, fun c hc => ?_, by omega, ?_⟩
  · -- what is left after the delimiters starts with another character
    obtain ⟨d, ds, hd⟩ := List.exists_cons_of_ne_nil hnil
    have hhead : d ∉ delims := by
      have := List.head_dropWhile_not (fun c => decide (c ∈ delims)) hnil
      simpa [← ht, hd] using this
    rw [hd, List.takeWhile_cons_of_pos (by simp [hhead])]
    exact List.cons_ne_nil _ _
  · simpa using List.mem_takeWhile_imp hc
  · exact hsub c (List.dropWhile_subset _ (List.drop_subset _ _ hc))
  · intro hrest
    rw [List.length_drop]
    have : 0 < (t.dropWhile (· ∉ delims)).length - 1 := by
      rw [← List.length_drop]
      exact List.length_pos_iff.2 hrest
    omega

theorem strtokAll_nil (n : ℕ) : strtokAll delims n [] = [] := by
  cases n <;> rfl

/-- The end of a line, or nothing. -/
def IsLineEnd (t : List Char) : Prop := t = [] ∨ t = ['\n']

theorem digits_not_mem {n : ℕ} {c : Char} (hc : c ∈ digits n) : c ∉ [',', '\n'] := by
  obtain ⟨-, -, -, hcomma, hline⟩ := not_special_of_isDigit (isDigit_of_mem_digits hc)
  simp [hcomma, hline]

/-- The pieces of a line, all but the first. -/
theorem strtokAll_csv {ns : List ℕ} {t : List Char} (ht : IsLineEnd t) (hne : ns ≠ []) {k : ℕ}
    (hk : (csv ns ++ t).length ≤ k) : strtokAll [',', '\n'] k (csv ns ++ t) = ns.map digits := by
  induction ns generalizing k with
  | nil => exact absurd rfl hne
  | cons n ns ih =>
      have hpos := List.length_pos_iff.2 (digits_ne_nil n)
      obtain ⟨k, rfl⟩ : ∃ k', k = k' + 1 := ⟨k - 1, by
        simp only [csv, List.length_append] at hk
        omega⟩
      cases ns with
      | nil =>
          have hlast : strtok [',', '\n'] (digits n ++ t) = some (digits n, []) := by
            rcases ht with rfl | rfl
            · rw [List.append_nil]
              exact strtok_last (digits_ne_nil n) fun _ => digits_not_mem
            · exact strtok_append (digits_ne_nil n) (fun _ => digits_not_mem) (by simp)
          rw [csv, List.flatMap_nil, List.append_nil, strtokAll, hlast]
          simp [strtokAll_nil]
      | cons m ns =>
          have hnext : strtok [',', '\n'] (digits n ++ ',' :: (csv (m :: ns) ++ t)) =
              some (digits n, csv (m :: ns) ++ t) :=
            strtok_append (digits_ne_nil n) (fun _ => digits_not_mem) (by simp)
          rw [csv_cons_cons] at hk ⊢
          rw [List.append_assoc, List.cons_append, strtokAll, hnext]
          dsimp only
          rw [ih (List.cons_ne_nil m ns) (by simp at hk ⊢; omega)]
          rfl

theorem endsNumber_lineEnd {t : List Char} (ht : IsLineEnd t) : EndsNumber t := by
  rcases ht with rfl | rfl <;> simp [EndsNumber]

/-- **The numbers of a line are read.** -/
theorem readNumbers_csv {ns : List ℕ} {t : List Char} (ht : IsLineEnd t) (hne : ns ≠ []) :
    readNumbers (csv ns ++ t) = ns.map Int.ofNat := by
  have hatoi : ∀ n, atoi (digits n) = Int.ofNat n := fun n => by
    have h := atoi_digits (n := n) (endsNumber_lineEnd (Or.inl rfl))
    rwa [List.append_nil] at h
  cases ns with
  | nil => exact absurd rfl hne
  | cons n ns =>
      cases ns with
      | nil =>
          have hfirst : strtok [','] (digits n ++ t) = some (digits n ++ t, []) := by
            refine strtok_last (by simp [digits_ne_nil]) fun d hd => ?_
            rcases List.mem_append.1 hd with hd | hd
            · exact fun h => digits_not_mem hd (by rw [List.mem_singleton.1 h]; simp)
            · rcases ht with rfl | rfl
              · simp at hd
              · rw [List.mem_singleton.1 hd]
                decide
          rw [csv, List.flatMap_nil, List.append_nil, readNumbers, hfirst]
          simp [strtokAll, atoi_digits (endsNumber_lineEnd ht)]
      | cons m ns =>
          have hfirst : strtok [','] (digits n ++ ',' :: (csv (m :: ns) ++ t)) =
              some (digits n, csv (m :: ns) ++ t) :=
            strtok_append (digits_ne_nil n)
              (fun d hd h => digits_not_mem hd (by rw [List.mem_singleton.1 h]; simp)) (by simp)
          rw [csv_cons_cons, List.append_assoc, List.cons_append, readNumbers, hfirst]
          dsimp only
          rw [strtokAll_csv ht (List.cons_ne_nil m ns) le_rfl, List.map_cons, List.map_map, hatoi]
          show _ = Int.ofNat n :: List.map Int.ofNat (m :: ns)
          congr 1
          exact List.map_congr_left fun k _ => hatoi k

/-! ### Buffers that are too small -/

/-- The decimal of a number is no longer than the digits it was read from. -/
theorem length_digits_le {n : ℕ} (hne : tok ≠ []) (hdigits : ∀ c ∈ tok, c.isDigit = true)
    (h : atoi tok = n) : (digits n).length ≤ tok.length := by
  obtain ⟨c, cs, hc⟩ := List.exists_cons_of_ne_nil hne
  have hvalue : Nat.ofDigitChars 10 tok 0 = n := by
    rw [hc, atoi_of_digit (hdigits c (by simp [hc])), ← hc, leadingNat,
      List.takeWhile_eq_self_iff.2 hdigits] at h
    exact_mod_cast h
  have hlt : ∀ l : List Char, (∀ c ∈ l, c.isDigit = true) →
      Nat.ofDigitChars 10 l 0 < 10 ^ l.length := by
    intro l
    induction l with
    | nil => simp
    | cons d ds ih =>
        intro hl
        have hd := hl d List.mem_cons_self
        have hval : d.toNat - '0'.toNat < 10 := by
          have h := (Bool.and_eq_true_iff.1 hd).2
          have h : d.toNat ≤ 57 := UInt32.le_iff_toNat_le.1 (of_decide_eq_true h)
          have h0 : '0'.toNat = 48 := rfl
          omega
        have ih := ih fun c hc => hl c (List.mem_cons_of_mem d hc)
        rw [Nat.ofDigitChars_cons, Nat.ofDigitChars_eq_ofDigitChars_zero, List.length_cons, pow_succ]
        nlinarith [Nat.pow_pos (n := ds.length) (show 0 < 10 by decide)]
  rw [digits, Nat.length_toDigits_le_iff (by decide) (List.length_pos_iff.2 hne), ← hvalue]
  exact hlt tok hdigits

/-- The room that numbers take when a comma is put behind each of them. -/
def room (ns : List ℕ) : ℕ := (ns.map fun n => (digits n).length + 1).sum

theorem length_csv {ns : List ℕ} (hne : ns ≠ []) : (csv ns).length + 1 = room ns := by
  induction ns with
  | nil => exact absurd rfl hne
  | cons n ns ih =>
      cases ns with
      | nil => simp [csv, room]
      | cons m ns =>
          have ih := ih (List.cons_ne_nil m ns)
          rw [csv_cons_cons, List.length_append, List.length_cons, ih]
          simp only [room, List.map_cons, List.sum_cons]
          omega

/-- The buffer has only digits and commas. -/
def IsCsv (s : List Char) : Prop := ∀ c ∈ s, c.isDigit = true ∨ c = ','

theorem isDigit_of_strtok (hs : IsCsv s) (hcomma : ',' ∈ delims) (h : strtok delims s = some (tok, rest)) :
    ∀ c ∈ tok, c.isDigit = true := by
  intro c hc
  obtain ⟨hmem, hnot⟩ := (strtok_some h).2.1 c hc
  exact (hs c hmem).resolve_right fun heq => hnot (heq ▸ hcomma)

/-- A number that was read fits the buffer, with those of the rest. -/
theorem room_cons_le {n : ℕ} {ns : List ℕ} (hs : IsCsv s) (hcomma : ',' ∈ delims)
    (hpiece : strtok delims s = some (tok, rest)) (hfirst : atoi tok = Int.ofNat n)
    (hroom : room ns ≤ rest.length + 1) (hnil : rest = [] → ns = []) :
    room (n :: ns) ≤ s.length + 1 := by
  obtain ⟨hne, -, -, hlen, hrest⟩ := strtok_some hpiece
  have hdigits := length_digits_le hne (isDigit_of_strtok hs hcomma hpiece) hfirst
  have hcons : room (n :: ns) = (digits n).length + 1 + room ns := by simp [room]
  by_cases hr : rest = []
  · rw [hcons, hnil hr, show room [] = 0 from rfl]
    omega
  · have := hrest hr
    omega

/-- Behind the end of a buffer there are no numbers. -/
theorem eq_nil_of_strtokAll {ns : List ℕ} {k : ℕ}
    (h : (strtokAll [',', '\n'] k []).map atoi = ns.map Int.ofNat) : ns = [] := by
  rw [strtokAll_nil] at h
  simpa using h.symm

/-- Numbers that were read from the pieces of a buffer fit the buffer. -/
theorem room_le {ns : List ℕ} {k : ℕ} (hs : IsCsv s)
    (h : (strtokAll [',', '\n'] k s).map atoi = ns.map Int.ofNat) : room ns ≤ s.length + 1 := by
  induction k generalizing s ns with
  | zero =>
      obtain rfl : ns = [] := by simpa [strtokAll] using h.symm
      exact Nat.zero_le _
  | succ k ih =>
      rw [strtokAll] at h
      cases hpiece : strtok [',', '\n'] s with
      | none =>
          rw [hpiece] at h
          obtain rfl : ns = [] := by simpa using h.symm
          exact Nat.zero_le _
      | some p =>
          obtain ⟨tok, rest⟩ := p
          rw [hpiece] at h
          cases ns with
          | nil => exact Nat.zero_le _
          | cons n ns =>
              obtain ⟨hfirst, hothers⟩ := List.cons.inj h
              have hsub := (strtok_some hpiece).2.2.1
              refine room_cons_le hs (by simp) hpiece hfirst
                (ih (fun c hc => hs c (hsub c hc)) hothers) fun hnil => ?_
              rw [hnil] at hothers
              exact eq_nil_of_strtokAll hothers

/-- **A buffer does not hold more numbers than it has room for.** -/
theorem length_csv_le {ns : List ℕ} (hs : IsCsv s) (hne : ns ≠ [])
    (h : readNumbers s = ns.map Int.ofNat) : (csv ns).length ≤ s.length := by
  have hroom : room ns ≤ s.length + 1 := by
    unfold readNumbers at h
    cases hpiece : strtok [','] s with
    | none =>
        rw [hpiece] at h
        exact absurd (by simpa using h.symm) hne
    | some p =>
        obtain ⟨tok, rest⟩ := p
        rw [hpiece] at h
        cases ns with
        | nil => exact absurd rfl hne
        | cons n ns =>
            obtain ⟨hfirst, hothers⟩ := List.cons.inj h
            have hsub := (strtok_some hpiece).2.2.1
            refine room_cons_le hs (by simp) hpiece hfirst
              (room_le (fun c hc => hs c (hsub c hc)) hothers) fun hnil => ?_
            rw [hnil] at hothers
            exact eq_nil_of_strtokAll hothers
  rw [← length_csv hne] at hroom
  omega

end Pieces

end CText
