/-
**Buffers that the Redis reader can be given.**

The reader goes by the bytes alone: it reads digits until there is none, a line until its end, and as many
bytes as a number says, without looking at where the buffer ends; and it copies what it reads into arrays of
a fixed size without looking at their ends.  So whether it stays inside of the buffer and of its arrays is
decided by the shape of the buffer, which is a sequence of items.

Main definitions:

* `EndOfLine` — what is passed over behind a number or a string;
* `NumberRead`, `StringRead` — a number and a string, as they stand in a buffer;
* `Item` — one item, and what is behind it;
* `Framed` — **a buffer that is a sequence of items**.

Main results:

* `extractDecimal_eq_ok_iff`, `extractString_eq_ok_iff` — what the two functions read;
* `deserializeStep_ok_iff` — a round of the loop reads an item;
* `deserializeLoop_ne_unfinished` — the loop ends;
* `redis_safe_iff` — **the reader is safe exactly on the buffers that are framed**.
-/

import ActiveRmt.Redis

set_option relaxedAutoImplicit false
set_option autoImplicit false

namespace ActiveRmt

namespace Parsed

variable {α β : Type} {x : Parsed α} {f : α → Parsed β}

theorem bind_eq_ok_iff {b : β} : (x >>= f) = .ok b ↔ ∃ a, x = .ok a ∧ f a = .ok b := by
  constructor
  · intro h
    cases x with
    | ok a => exact ⟨a, rfl, h⟩
    | overread => cases h
    | overflow => cases h
    | unfinished => cases h
  · rintro ⟨a, rfl, h⟩
    exact h

/-- Steps that do not run out of rounds do not run out of them together. -/
theorem bind_ne_unfinished (hx : x ≠ .unfinished) (hf : ∀ a, x = .ok a → f a ≠ .unfinished) :
    (x >>= f) ≠ .unfinished := by
  cases x with
  | ok a => exact hf a rfl
  | overread => exact fun h => by cases h
  | overflow => exact fun h => by cases h
  | unfinished => exact absurd rfl hx

end Parsed

/-! ### Ends of lines and numbers -/

/-- **What is passed over behind a number or a string**: an end of a line, or nothing.  In both cases the
bytes that are looked at are there. -/
inductive EndOfLine : List Byte → List Byte → Prop
  /-- The end of a line. -/
  | crlf (rest : List Byte) : EndOfLine (cr :: lf :: rest) rest
  /-- A carriage return with something else behind it. -/
  | other (b : Byte) (rest : List Byte) (h : b ≠ lf) : EndOfLine (cr :: b :: rest) (cr :: b :: rest)
  /-- Another byte. -/
  | none (b : Byte) (rest : List Byte) (h : b ≠ cr) : EndOfLine (b :: rest) (b :: rest)

/-- A digit. -/
def IsDigit (b : Byte) : Prop := 48 ≤ b ∧ b < 58

instance (b : Byte) : Decidable (IsDigit b) := inferInstanceAs (Decidable (_ ∧ _))

/-- The number that digits say, in 32 bits. -/
def decimalValue (digits : List Byte) : BitVec 32 :=
  digits.foldl (fun num b => num * 10 + b.setWidth 32 - 48) 0

/-- A buffer begins with the digits of a number, and what is behind them. -/
inductive NumberRead : List Byte → BitVec 32 → List Byte → Prop
  /-- The digits end before the end of the buffer. -/
  | mk (digits tail rest : List Byte) (hdigits : ∀ d ∈ digits, IsDigit d)
      (htail : ∀ b ∈ tail.head?, ¬IsDigit b) (hend : EndOfLine tail rest) : NumberRead (digits ++ tail) (decimalValue digits) rest

section Reading

variable {buf rest : List Byte}

/-- **The end of a line is passed over.** -/
theorem skipCrlf_eq_ok_iff : skipCrlf buf = .ok rest ↔ EndOfLine buf rest := by
  constructor
  · intro h
    match buf with
    | [] => cases h
    | [b] =>
        by_cases hb : b = cr
        · simp [skipCrlf, hb] at h
        · simp only [skipCrlf, if_neg hb, Parsed.ok.injEq] at h
          subst h
          exact .none b [] hb
    | b :: c :: rest' =>
        by_cases hb : b = cr
        · subst hb
          by_cases hc : c = lf
          · simp only [skipCrlf, if_pos, hc, Parsed.ok.injEq] at h
            subst h hc
            exact .crlf _
          · simp only [skipCrlf, if_true, if_neg hc, Parsed.ok.injEq] at h
            subst h
            exact .other c rest' hc
        · simp only [skipCrlf, if_neg hb, Parsed.ok.injEq] at h
          subst h
          exact .none b (c :: rest') hb
  · intro h
    cases h with
    | crlf => rfl
    | other b rest hb => simp [skipCrlf, hb]
    | none b rest hb => simp [skipCrlf, hb]

theorem skipCrlf_ne_unfinished (buf : List Byte) : skipCrlf buf ≠ .unfinished := by
  unfold skipCrlf
  split
  · exact fun h => by cases h
  · split_ifs
    · split
      · exact fun h => by cases h
      · split_ifs <;> exact fun h => by cases h
    · exact fun h => by cases h

/-- The value of a number with the digits so far. -/
theorem extractDecimal_eq_ok {num v : BitVec 32} (h : extractDecimal num buf = .ok (v, rest)) :
    ∃ digits tail, buf = digits ++ tail ∧ (∀ d ∈ digits, IsDigit d) ∧ (∀ b ∈ tail.head?, ¬IsDigit b) ∧
      v = digits.foldl (fun num b => num * 10 + b.setWidth 32 - 48) num ∧ EndOfLine tail rest := by
  induction buf generalizing num with
  | nil => cases h
  | cons b buf ih =>
      by_cases hb : 48 ≤ b ∧ b < 58
      · rw [extractDecimal, if_pos hb] at h
        obtain ⟨digits, tail, rfl, hdigits, htail, hv, hend⟩ := ih h
        exact ⟨b :: digits, tail, rfl, List.forall_mem_cons.2 ⟨hb, hdigits⟩, htail, hv, hend⟩
      · rw [extractDecimal, if_neg hb] at h
        obtain ⟨rest', hskip, h⟩ := Parsed.bind_eq_ok_iff.1 h
        obtain ⟨rfl, rfl⟩ := Prod.mk.inj (Parsed.ok.inj h)
        refine ⟨[], b :: buf, rfl, by simp, fun c hc => ?_, rfl, skipCrlf_eq_ok_iff.1 hskip⟩
        obtain rfl := Option.some.inj hc
        exact hb

theorem extractDecimal_of_digits {digits tail : List Byte} (num : BitVec 32)
    (hdigits : ∀ d ∈ digits, IsDigit d) (htail : ∀ b ∈ tail.head?, ¬IsDigit b) (hend : EndOfLine tail rest) :
    extractDecimal num (digits ++ tail) =
      .ok (digits.foldl (fun num b => num * 10 + b.setWidth 32 - 48) num, rest) := by
  induction digits generalizing num with
  | nil =>
      cases tail with
      | nil => cases hend
      | cons b tail =>
          have hb : ¬(48 ≤ b ∧ b < 58) := htail b rfl
          rw [List.nil_append, extractDecimal, if_neg hb, skipCrlf_eq_ok_iff.2 hend]
          rfl
  | cons d digits ih =>
      obtain ⟨hd, hdigits⟩ := List.forall_mem_cons.1 hdigits
      have hd' : 48 ≤ d ∧ d < 58 := hd
      rw [List.cons_append, extractDecimal, if_pos hd', ih _ hdigits]
      rfl

/-- **A number is read.** -/
theorem extractDecimal_eq_ok_iff {v : BitVec 32} :
    extractDecimal 0 buf = .ok (v, rest) ↔ NumberRead buf v rest := by
  constructor
  · intro h
    obtain ⟨digits, tail, rfl, hdigits, htail, rfl, hend⟩ := extractDecimal_eq_ok h
    exact .mk digits tail rest hdigits htail hend
  · rintro ⟨digits, tail, _, hdigits, htail, hend⟩
    exact extractDecimal_of_digits 0 hdigits htail hend

theorem extractDecimal_ne_unfinished (num : BitVec 32) (buf : List Byte) :
    extractDecimal num buf ≠ .unfinished := by
  induction buf generalizing num with
  | nil => exact fun h => by cases h
  | cons b buf ih =>
      rw [extractDecimal]
      split_ifs
      · exact ih _
      · exact Parsed.bind_ne_unfinished (skipCrlf_ne_unfinished _) fun _ _ h => by cases h

/-! ### Strings -/

/-- A buffer begins with a string, and what is behind it: as many bytes as its length says, or those before
the next carriage return when its length is not positive.  There is room for it in an array. -/
structure StringRead (strLen : BitVec 32) (buf bytes rest : List Byte) : Prop where
  /-- The array has room for the string and a zero. -/
  room : bytes.length < maxStrLen
  /-- The string is as long as its length says, or ends at a carriage return. -/
  extent : if 0 < strLen.toInt then bytes.length = strLen.toNat
    else cr ∉ bytes ∧ ∃ tail, buf = bytes ++ cr :: tail
  /-- What is behind it. -/
  behind : ∃ tail, buf = bytes ++ tail ∧ EndOfLine tail rest

theorem copyBytes_eq_ok {n j k : ℕ} {str str' : Buffer} (h : copyBytes n j str buf = .ok (k, str', rest)) :
    ∃ bytes, buf = bytes ++ rest ∧ bytes.length = n ∧ k = j + n ∧ str' = str.write j bytes := by
  induction n generalizing j str buf with
  | zero =>
      simp only [copyBytes, Parsed.ok.injEq, Prod.mk.injEq] at h
      obtain ⟨rfl, rfl, rfl⟩ := h
      exact ⟨[], rfl, rfl, rfl, rfl⟩
  | succ n ih =>
      cases buf with
      | nil => cases h
      | cons b buf =>
          rw [copyBytes] at h
          split_ifs at h with hj
          obtain ⟨bytes, rfl, rfl, rfl, rfl⟩ := ih h
          exact ⟨b :: bytes, rfl, rfl, by omega, rfl⟩

theorem copyLine_eq_ok {j k : ℕ} {str str' : Buffer} (h : copyLine j str buf = .ok (k, str', rest)) :
    ∃ bytes tail, buf = bytes ++ rest ∧ rest = cr :: tail ∧ cr ∉ bytes ∧ k = j + bytes.length ∧
      str' = str.write j bytes := by
  induction buf generalizing j str with
  | nil => cases h
  | cons b buf ih =>
      rw [copyLine] at h
      by_cases hb : b = cr
      · rw [if_pos hb] at h
        obtain ⟨rfl, hstr⟩ := Prod.mk.inj (Parsed.ok.inj h)
        obtain ⟨rfl, rfl⟩ := Prod.mk.inj hstr
        exact ⟨[], buf, rfl, by rw [hb], List.not_mem_nil, rfl, rfl⟩
      · rw [if_neg hb] at h
        split_ifs at h with hj
        obtain ⟨bytes, tail, rfl, rfl, hno, rfl, rfl⟩ := ih h
        refine ⟨b :: bytes, tail, rfl, rfl, ?_, by rw [List.length_cons]; omega, rfl⟩
        rw [List.mem_cons, not_or]
        exact ⟨Ne.symm hb, hno⟩

theorem copyLine_append {bytes tail : List Byte} {j : ℕ} {str : Buffer} (hno : cr ∉ bytes)
    (h : j + bytes.length ≤ maxStrLen) :
    copyLine j str (bytes ++ cr :: tail) = .ok (j + bytes.length, str.write j bytes, cr :: tail) := by
  induction bytes generalizing j str with
  | nil => rw [List.nil_append, copyLine, if_pos rfl]; rfl
  | cons b bytes ih =>
      rw [List.mem_cons, not_or] at hno
      rw [List.length_cons] at h
      rw [List.cons_append, copyLine, if_neg (Ne.symm hno.1), if_pos (by omega), ih hno.2 (by omega),
        List.length_cons, Nat.add_right_comm, Nat.add_assoc]
      rfl

theorem copyBytes_ne_unfinished (n j : ℕ) (str : Buffer) (buf : List Byte) :
    copyBytes n j str buf ≠ .unfinished := by
  induction n generalizing j str buf with
  | zero => exact fun h => by cases h
  | succ n ih =>
      cases buf with
      | nil => exact fun h => by cases h
      | cons b buf =>
          rw [copyBytes]
          split_ifs
          · exact ih _ _ _
          · exact fun h => by cases h

theorem copyLine_ne_unfinished (j : ℕ) (str : Buffer) (buf : List Byte) :
    copyLine j str buf ≠ .unfinished := by
  induction buf generalizing j str with
  | nil => exact fun h => by cases h
  | cons b buf ih =>
      rw [copyLine]
      split_ifs
      · exact fun h => by cases h
      · exact ih _ _
      · exact fun h => by cases h

/-- The bytes are copied, and then the zero is written. -/
theorem extractString_eq (strLen : BitVec 32) (str : Buffer) (buf : List Byte) :
    extractString strLen str buf =
      ((if 0 < strLen.toInt then copyBytes strLen.toNat 0 str buf else copyLine 0 str buf) >>= fun p =>
        if p.1 < maxStrLen then
          skipCrlf p.2.2 >>= fun rest => .ok (p.1, Function.update p.2.1 p.1 0, rest)
        else .overflow) := by
  unfold extractString
  split_ifs
  · rfl
  · rfl

/-- **A string is read**, and a zero is written behind it. -/
theorem extractString_eq_ok_iff {strLen : BitVec 32} {str str' : Buffer} {j : ℕ} :
    extractString strLen str buf = .ok (j, str', rest) ↔
      ∃ bytes, StringRead strLen buf bytes rest ∧ j = bytes.length ∧ str' = str.write 0 (bytes ++ [0]) := by
  rw [extractString_eq]
  constructor
  · intro h
    obtain ⟨⟨k, mid, buf'⟩, hcopy, h⟩ := Parsed.bind_eq_ok_iff.1 h
    dsimp only at h
    split_ifs at h with hk
    obtain ⟨rest', hskip, h⟩ := Parsed.bind_eq_ok_iff.1 h
    simp only [Parsed.ok.injEq, Prod.mk.injEq] at h
    obtain ⟨rfl, rfl, rfl⟩ := h
    have hend := skipCrlf_eq_ok_iff.1 hskip
    split_ifs at hcopy with hpos
    · obtain ⟨bytes, rfl, hlen, rfl, rfl⟩ := copyBytes_eq_ok hcopy
      rw [Nat.zero_add] at hk ⊢
      refine ⟨bytes, ⟨by omega, ?_, buf', rfl, hend⟩, hlen.symm, ?_⟩
      · rwa [if_pos hpos]
      · rw [write_concat, hlen, Nat.zero_add]
    · obtain ⟨bytes, tail, rfl, rfl, hno, rfl, rfl⟩ := copyLine_eq_ok hcopy
      rw [Nat.zero_add] at hk ⊢
      refine ⟨bytes, ⟨hk, ?_, _, rfl, hend⟩, rfl, ?_⟩
      · rw [if_neg hpos]
        exact ⟨hno, tail, rfl⟩
      · rw [write_concat, Nat.zero_add]
  · rintro ⟨bytes, ⟨hroom, hbytes, tail, rfl, hend⟩, rfl, rfl⟩
    have hcopy : (if 0 < strLen.toInt then copyBytes strLen.toNat 0 str (bytes ++ tail)
        else copyLine 0 str (bytes ++ tail)) = .ok (bytes.length, str.write 0 bytes, tail) := by
      split_ifs at hbytes ⊢ with hpos
      · rw [← hbytes, copyBytes_append (by omega), Nat.zero_add]
      · obtain ⟨hno, tail', htail⟩ := hbytes
        obtain rfl := List.append_cancel_left htail
        rw [copyLine_append hno (by omega), Nat.zero_add]
    rw [hcopy, Parsed.ok_bind, if_pos hroom, skipCrlf_eq_ok_iff.2 hend, write_concat, Nat.zero_add]
    rfl

theorem extractString_ne_unfinished (strLen : BitVec 32) (str : Buffer) (buf : List Byte) :
    extractString strLen str buf ≠ .unfinished := by
  rw [extractString_eq]
  refine Parsed.bind_ne_unfinished ?_ fun a _ => ?_
  · split_ifs
    · exact copyBytes_ne_unfinished _ _ _ _
    · exact copyLine_ne_unfinished _ _ _
  · split_ifs
    · exact Parsed.bind_ne_unfinished (skipCrlf_ne_unfinished _) fun _ _ h => by cases h
    · exact fun h => by cases h

theorem EndOfLine.length_le (h : EndOfLine buf rest) : rest.length ≤ buf.length := by
  cases h with
  | crlf => simp only [List.length_cons]; omega
  | other => exact le_rfl
  | none => exact le_rfl

theorem NumberRead.length_le {v : BitVec 32} (h : NumberRead buf v rest) : rest.length ≤ buf.length := by
  obtain ⟨digits, tail, _, -, -, hend⟩ := h
  have := hend.length_le
  rw [List.length_append]
  omega

theorem StringRead.length_le {strLen : BitVec 32} {bytes : List Byte} (h : StringRead strLen buf bytes rest) :
    rest.length ≤ buf.length := by
  obtain ⟨tail, rfl, hend⟩ := h.behind
  have := hend.length_le
  rw [List.length_append]
  omega

end Reading

/-! ### Items -/

/-- **One item of a buffer**, and what is behind it. -/
inductive Item : List Byte → List Byte → Prop
  /-- The header of an array. -/
  | array {rest rest' : List Byte} {v : BitVec 32} (hnum : NumberRead rest v rest') :
      Item (respArray :: rest) rest'
  /-- A string of an array.  One whose length is less than `-1` is not copied only when it is a command. -/
  | bulk {rest mid bytes rest' : List Byte} {v : BitVec 32} (hnum : NumberRead rest v mid)
      (hstr : StringRead v mid bytes rest')
      (hcopy : -1 ≤ v.toInt ∨ ReadsAs bytes redisCmdGet ∨ ReadsAs bytes redisCmdSet) :
      Item (respBulkstr :: rest) rest'
  /-- A simple string, and a byte more. -/
  | simple {rest bytes rest' : List Byte} (hstr : StringRead 0 rest bytes rest') :
      Item (respSimplestr :: rest) (rest'.drop 1)
  /-- An error: a line, a byte more, and what stands there as a simple string. -/
  | error {rest bytes mid bytes' rest' : List Byte} (hstr : StringRead 0 rest bytes mid)
      (hstr' : StringRead 0 (mid.drop 1) bytes' rest') : Item (respError :: rest) (rest'.drop 1)
  /-- Any other byte. -/
  | other {b : Byte} {rest : List Byte} (harr : b ≠ respArray) (hbulk : b ≠ respBulkstr)
      (herr : b ≠ respError) (hsimple : b ≠ respSimplestr) : Item (b :: rest) rest

/-- **A buffer that is a sequence of items.** -/
inductive Framed : List Byte → Prop
  /-- The end. -/
  | nil : Framed []
  /-- An item, and the others. -/
  | item {buf rest : List Byte} (hitem : Item buf rest) (hrest : Framed rest) : Framed buf

theorem Item.length_lt {buf rest : List Byte} (h : Item buf rest) : rest.length < buf.length := by
  cases h with
  | array hnum =>
      have := hnum.length_le
      rw [List.length_cons]
      omega
  | bulk hnum hstr _ =>
      have := hnum.length_le
      have := hstr.length_le
      rw [List.length_cons]
      omega
  | simple hstr =>
      have := hstr.length_le
      rw [List.length_cons, List.length_drop]
      omega
  | error hstr hstr' =>
      have := hstr.length_le
      have := hstr'.length_le
      rw [List.length_drop] at this
      rw [List.length_cons, List.length_drop]
      omega
  | other => exact Nat.lt_succ_self _

section Copying

/-- A number of at most 255 is one less than its successor. -/
theorem toInt_add_one {v : BitVec 32} (h : v.toInt < maxStrLen) : (v + 1).toInt = v.toInt + 1 := by
  have h1 : (1 : BitVec 32).toNat = 1 := rfl
  have hlt := v.isLt
  unfold maxStrLen at h
  rw [BitVec.toInt_eq_toNat_cond] at h ⊢
  rw [BitVec.toInt_eq_toNat_cond, BitVec.toNat_add, h1]
  split_ifs at h ⊢ <;> omega

theorem memcpyStr_ok_iff {v : BitVec 32} (h : v.toInt < maxStrLen) (dst str : Buffer) :
    (∃ a, memcpyStr dst str (v + 1) = .ok a) ↔ -1 ≤ v.toInt := by
  unfold memcpyStr
  rw [toInt_add_one h]
  split_ifs with hle
  · exact iff_of_true ⟨_, rfl⟩ (by omega)
  · refine iff_of_false ?_ (by omega)
    rintro ⟨a, ha⟩
    cases ha

theorem memcpyStr_ne_unfinished (dst str : Buffer) (n : BitVec 32) : memcpyStr dst str n ≠ .unfinished := by
  unfold memcpyStr
  split_ifs <;> exact fun h => by cases h

/-- A string that was read has a length of at most 255. -/
theorem StringRead.toInt_lt {strLen : BitVec 32} {buf bytes rest : List Byte}
    (h : StringRead strLen buf bytes rest) : strLen.toInt < maxStrLen := by
  have hroom := h.room
  have hextent := h.extent
  split_ifs at hextent with hpos
  · rw [BitVec.toInt_eq_toNat_cond] at hpos ⊢
    split_ifs at hpos ⊢ <;> omega
  · unfold maxStrLen
    omega

/-- A string of a line is always copied. -/
theorem memcpyStr_line {buf bytes rest : List Byte} {strLen : BitVec 32}
    (h : StringRead strLen buf bytes rest) (dst str : Buffer) : ∃ a, memcpyStr dst str (BitVec.ofNat 32 bytes.length + 1) = .ok a := by
  have hroom := h.room
  unfold maxStrLen at hroom
  have hint : (BitVec.ofNat 32 bytes.length).toInt = bytes.length := by
    rw [BitVec.toInt_eq_toNat_cond, BitVec.toNat_ofNat]
    split_ifs <;> omega
  refine (memcpyStr_ok_iff ?_ dst str).2 ?_
  · rw [hint]
    unfold maxStrLen
    omega
  · rw [hint]
    omega

/-- **What a string of an array needs**, to be copied or not. -/
theorem bulkString_ok_iff {v : BitVec 32} {bytes : List Byte} (h : v.toInt < maxStrLen) (redis : RedisCommand)
    (arrLen : BitVec 32) (str : Buffer) :
    (∃ r, bulkString redis arrLen v (str.write 0 (bytes ++ [0])) = .ok r) ↔
      -1 ≤ v.toInt ∨ ReadsAs bytes redisCmdGet ∨ ReadsAs bytes redisCmdSet := by
  have hget : strcmpEq (str.write 0 (bytes ++ [0])) 0 redisCmdGet = true ↔
      ReadsAs bytes redisCmdGet := strcmpEq_write (by decide) str
  have hset : strcmpEq (str.write 0 (bytes ++ [0])) 0 redisCmdSet = true ↔
      ReadsAs bytes redisCmdSet := strcmpEq_write (by decide) str
  have hcopy : ∀ (dst : Buffer) (f : Buffer → RedisCommand), ¬ReadsAs bytes redisCmdGet →
      ¬ReadsAs bytes redisCmdSet → ((∃ r, (memcpyStr dst (str.write 0 (bytes ++ [0])) (v + 1) >>= fun a =>
        .ok (f a)) = .ok r) ↔ -1 ≤ v.toInt ∨ ReadsAs bytes redisCmdGet ∨ ReadsAs bytes redisCmdSet) := by
    intro dst f hg hs
    rw [or_iff_left (not_or.2 ⟨hg, hs⟩), ← memcpyStr_ok_iff h dst (str.write 0 (bytes ++ [0]))]
    constructor
    · rintro ⟨r, hr⟩
      obtain ⟨a, ha, -⟩ := Parsed.bind_eq_ok_iff.1 hr
      exact ⟨a, ha⟩
    · rintro ⟨a, ha⟩
      exact ⟨f a, Parsed.bind_eq_ok_iff.2 ⟨a, ha, rfl⟩⟩
  rw [bulkString]
  split_ifs with h₁ h₂
  · exact iff_of_true ⟨_, rfl⟩ (Or.inr (Or.inl (hget.1 h₁)))
  · exact iff_of_true ⟨_, rfl⟩ (Or.inr (Or.inr (hset.1 h₂)))
  all_goals exact hcopy _ _ (mt hget.2 h₁) (mt hset.2 h₂)

theorem bulkString_ne_unfinished (redis : RedisCommand) (arrLen v : BitVec 32) (str : Buffer) :
    bulkString redis arrLen v str ≠ .unfinished := by
  unfold bulkString
  split_ifs
  · exact fun h => by cases h
  · exact fun h => by cases h
  all_goals exact Parsed.bind_ne_unfinished (memcpyStr_ne_unfinished _ _ _) fun _ _ h => by cases h

end Copying

/-! ### The loop -/

section Loop

variable {s s' : RespState} {buf rest rest' : List Byte} {b : Byte} {n : ℕ}

/-- **A simple string is read**, and a byte is passed over. -/
theorem simpleString_ok_iff (s : RespState) : (∃ s', simpleString s = .ok s' ∧ s'.rest = rest') ↔
    ∃ bytes mid, StringRead 0 (s.rest.drop 1) bytes mid ∧ rest' = mid.drop 1 := by
  unfold simpleString
  constructor
  · rintro ⟨s', h, rfl⟩
    obtain ⟨⟨j, str, mid⟩, hstr, h⟩ := Parsed.bind_eq_ok_iff.1 h
    obtain ⟨bytes, hread, -, -⟩ := extractString_eq_ok_iff.1 hstr
    obtain ⟨a, -, h⟩ := Parsed.bind_eq_ok_iff.1 h
    obtain rfl := Parsed.ok.inj h
    exact ⟨bytes, mid, hread, rfl⟩
  · rintro ⟨bytes, mid, hread, rfl⟩
    obtain ⟨a, ha⟩ := memcpyStr_line hread s.redis.response (s.str.write 0 (bytes ++ [0]))
    rw [extractString_eq_ok_iff.2 ⟨bytes, hread, rfl, rfl⟩, Parsed.ok_bind]
    dsimp only
    rw [ha]
    exact ⟨_, rfl, rfl⟩

theorem simpleString_ne_unfinished (s : RespState) : simpleString s ≠ .unfinished := by
  unfold simpleString
  refine Parsed.bind_ne_unfinished (extractString_ne_unfinished _ _ _) fun p _ => ?_
  exact Parsed.bind_ne_unfinished (memcpyStr_ne_unfinished _ _ _) fun _ _ h => by cases h

/-- **A round reads an item.** -/
theorem item_of_step (h : deserializeStep s b rest = .ok s') : Item (b :: rest) s'.rest := by
  unfold deserializeStep at h
  split_ifs at h with harr hbulk herr hsimple
  · subst harr
    obtain ⟨⟨v, rest'⟩, hnum, h⟩ := Parsed.bind_eq_ok_iff.1 h
    obtain rfl := Parsed.ok.inj h
    exact .array (extractDecimal_eq_ok_iff.1 hnum)
  · subst hbulk
    obtain ⟨⟨v, mid⟩, hnum, h⟩ := Parsed.bind_eq_ok_iff.1 h
    obtain ⟨⟨j, str, rest'⟩, hstr, h⟩ := Parsed.bind_eq_ok_iff.1 h
    obtain ⟨bytes, hread, -, rfl⟩ := extractString_eq_ok_iff.1 hstr
    obtain ⟨redis, hredis, h⟩ := Parsed.bind_eq_ok_iff.1 h
    obtain rfl := Parsed.ok.inj h
    exact .bulk (extractDecimal_eq_ok_iff.1 hnum) hread
      ((bulkString_ok_iff hread.toInt_lt _ _ _).1 ⟨redis, hredis⟩)
  · subst herr
    obtain ⟨⟨j, str, mid⟩, hstr, h⟩ := Parsed.bind_eq_ok_iff.1 h
    obtain ⟨bytes, hread, -, rfl⟩ := extractString_eq_ok_iff.1 hstr
    obtain ⟨a, -, h⟩ := Parsed.bind_eq_ok_iff.1 h
    obtain ⟨bytes', rest', hread', hrest⟩ := (simpleString_ok_iff _).1 ⟨s', h, rfl⟩
    rw [hrest]
    exact .error hread hread'
  · subst hsimple
    obtain ⟨bytes, rest', hread, hrest⟩ := (simpleString_ok_iff _).1 ⟨s', h, rfl⟩
    rw [hrest]
    exact .simple hread
  · obtain rfl := Parsed.ok.inj h
    exact .other harr hbulk herr hsimple

/-- **An item is read in a round.** -/
theorem step_of_item (h : Item (b :: rest) rest') (s : RespState) :
    ∃ s', deserializeStep s b rest = .ok s' ∧ s'.rest = rest' := by
  unfold deserializeStep
  cases h with
  | array hnum =>
      rw [if_pos rfl, extractDecimal_eq_ok_iff.2 hnum]
      exact ⟨_, rfl, rfl⟩
  | bulk hnum hstr hcopy =>
      obtain ⟨redis, hredis⟩ := (bulkString_ok_iff hstr.toInt_lt s.redis s.arrLen s.str).2 hcopy
      rw [if_neg (by decide), if_pos rfl, extractDecimal_eq_ok_iff.2 hnum, Parsed.ok_bind]
      dsimp only
      rw [extractString_eq_ok_iff.2 ⟨_, hstr, rfl, rfl⟩, Parsed.ok_bind]
      dsimp only
      rw [hredis]
      exact ⟨_, rfl, rfl⟩
  | simple hstr =>
      rw [if_neg (by decide), if_neg (by decide), if_neg (by decide), if_pos rfl]
      exact (simpleString_ok_iff _).2 ⟨_, _, hstr, rfl⟩
  | error hstr hstr' =>
      obtain ⟨a, ha⟩ := memcpyStr_line hstr s.redis.error (s.str.write 0 (_ ++ [0]))
      rw [if_neg (by decide), if_neg (by decide), if_pos rfl, extractString_eq_ok_iff.2 ⟨_, hstr, rfl, rfl⟩,
        Parsed.ok_bind]
      dsimp only
      rw [ha, Parsed.ok_bind]
      exact (simpleString_ok_iff _).2 ⟨_, _, hstr', rfl⟩
  | other harr hbulk herr hsimple =>
      rw [if_neg harr, if_neg hbulk, if_neg herr, if_neg hsimple]
      exact ⟨_, rfl, rfl⟩

theorem deserializeStep_ne_unfinished (s : RespState) (b : Byte) (rest : List Byte) :
    deserializeStep s b rest ≠ .unfinished := by
  unfold deserializeStep
  split_ifs
  · exact Parsed.bind_ne_unfinished (extractDecimal_ne_unfinished _ _) fun _ _ h => by cases h
  · refine Parsed.bind_ne_unfinished (extractDecimal_ne_unfinished _ _) fun p _ => ?_
    refine Parsed.bind_ne_unfinished (extractString_ne_unfinished _ _ _) fun q _ => ?_
    exact Parsed.bind_ne_unfinished (bulkString_ne_unfinished _ _ _ _) fun _ _ h => by cases h
  · refine Parsed.bind_ne_unfinished (extractString_ne_unfinished _ _ _) fun p _ => ?_
    exact Parsed.bind_ne_unfinished (memcpyStr_ne_unfinished _ _ _) fun _ _ => simpleString_ne_unfinished _
  · exact simpleString_ne_unfinished _
  · exact fun h => by cases h

/-- A round of the loop, and the others. -/
theorem deserializeLoop_cons (h : s.rest = b :: rest) :
    deserializeLoop (n + 1) s = deserializeStep s b rest >>= deserializeLoop n := by
  rw [deserializeLoop, h]

/-- **The loop ends**: every round passes over a byte. -/
theorem deserializeLoop_ne_unfinished (h : s.rest.length ≤ n) : deserializeLoop n s ≠ .unfinished := by
  induction n generalizing s with
  | zero =>
      rw [deserializeLoop_nil 0 (List.eq_nil_of_length_eq_zero (Nat.le_zero.1 h))]
      exact fun h => by cases h
  | succ n ih =>
      cases hs : s.rest with
      | nil =>
          rw [deserializeLoop_nil (n + 1) hs]
          exact fun h => by cases h
      | cons b rest =>
          rw [deserializeLoop_cons hs]
          refine Parsed.bind_ne_unfinished (deserializeStep_ne_unfinished s b rest) fun s' hstep => ih ?_
          have hlt := (item_of_step hstep).length_lt
          rw [hs] at h
          exact Nat.le_of_lt_succ (hlt.trans_le h)

/-- **The loop succeeds exactly when the buffer is a sequence of items.** -/
theorem deserializeLoop_ok_iff (h : s.rest.length ≤ n) :
    (∃ s', deserializeLoop n s = .ok s') ↔ Framed s.rest := by
  induction n generalizing s with
  | zero =>
      have hnil := List.eq_nil_of_length_eq_zero (Nat.le_zero.1 h)
      refine iff_of_true ⟨s, deserializeLoop_nil 0 hnil⟩ ?_
      rw [hnil]
      exact .nil
  | succ n ih =>
      cases hs : s.rest with
      | nil => exact iff_of_true ⟨s, deserializeLoop_nil (n + 1) hs⟩ .nil
      | cons b rest =>
          rw [hs] at h
          have hstep : ∀ t, deserializeStep s b rest = .ok t → t.rest.length ≤ n := fun t ht =>
            Nat.le_of_lt_succ ((item_of_step ht).length_lt.trans_le h)
          rw [deserializeLoop_cons hs]
          constructor
          · rintro ⟨s', hok⟩
            obtain ⟨t, ht, hrest⟩ := Parsed.bind_eq_ok_iff.1 hok
            exact .item (item_of_step ht) ((ih (hstep t ht)).1 ⟨s', hrest⟩)
          · rintro (_ | ⟨hitem, hrest⟩)
            obtain ⟨t, ht, rfl⟩ := step_of_item hitem s
            obtain ⟨s', hs'⟩ := (ih (hstep t ht)).2 hrest
            exact ⟨s', Parsed.bind_eq_ok_iff.2 ⟨t, ht, hs'⟩⟩

end Loop

/-- **The reader ends on every buffer, and it is safe exactly on those that are framed**: only then does it
read nothing behind the end of the buffer and write nothing behind the end of an array. -/
theorem redis_safe_iff (arrLen : BitVec 32) (str : Buffer) (redis : RedisCommand) (buf : List Byte) :
    deserializeRedisData arrLen str redis buf ≠ .unfinished ∧
      ((∃ r, deserializeRedisData arrLen str redis buf = .ok r) ↔ Framed buf) := by
  have hlen : buf.length ≤ buf.length := le_rfl
  unfold deserializeRedisData
  refine ⟨Parsed.bind_ne_unfinished (deserializeLoop_ne_unfinished hlen) (fun _ _ h => by cases h), ?_⟩
  have hloop := deserializeLoop_ok_iff
    (s := { rest := buf, arrLen := arrLen, str := str, redis := redis.start }) hlen
  rw [← hloop]
  constructor
  · rintro ⟨r, hr⟩
    obtain ⟨s', hs', -⟩ := Parsed.bind_eq_ok_iff.1 hr
    exact ⟨s', hs'⟩
  · rintro ⟨s', hs'⟩
    exact ⟨s'.redis, Parsed.bind_eq_ok_iff.2 ⟨s', hs', rfl⟩⟩

set_option maxRecDepth 20000 in
/-- **A number that ends the buffer, and a string that is longer than an array.**  The digit of `$5` is the last
byte of the buffer, and the byte behind it is read; and the length 300 of a string is taken as it is. -/
theorem reader_leaves_buffer :
    deserializeRedisData 0 (fun _ => 0) RedisCommand.zero [respBulkstr, 0x35] = .overread ∧
    deserializeRedisData 0 (fun _ => 0) RedisCommand.zero
      ([respBulkstr, 0x33, 0x30, 0x30, cr, lf] ++ List.replicate 300 0x41 ++ [cr, lf]) = .overflow := by
  exact ⟨rfl, rfl⟩

end ActiveRmt
