/-
**Commands for Redis, and how they are read.**

A command is an array of strings with their lengths.  The reader goes through the bytes once; the first
byte of an item decides how the item is read, and a counter says how many strings of the array are
still to come.  Which string is the key is decided by that counter, but which one is the command is
decided by what it says, wherever it stands.

The bytes that may be read are a list, and what is left of it is the place of the reader.

Main definitions:

* `Parsed` — how reading ends;
* `extractDecimal`, `extractString` — a number, and a string;
* `deserializeStep`, `deserializeRedisData` — **an item, and a command**;
* `RedisRequest.encode` — the bytes of a command;
* `Recovered` — what is read is what was written;
* `ReadsAs`, `RedisRequest.Plain` — a string that is read as a word, and a command that has none.

Main results:

* `extractDecimal_decimalBytes`, `extractString_bytes` — a number and a string that were written;
* `deserializeStep_bulk` — an item of the array;
* `redis_roundtrip_iff` — **exactly when a command is read as it was written**.
-/

import ActiveRmt.Buffers
import ActiveRmt.CText

set_option relaxedAutoImplicit false
set_option autoImplicit false

namespace ActiveRmt

/-! ### How reading ends -/

/-- **How reading ends.** -/
inductive Parsed (α : Type)
  /-- A value is read. -/
  | ok (a : α)
  /-- A byte behind the end of the buffer is read. -/
  | overread
  /-- A byte behind the end of an array is written. -/
  | overflow
  /-- There is more to read than steps. -/
  | unfinished
  deriving DecidableEq

namespace Parsed

variable {α β : Type}

/-- One step after the other. -/
def bind (x : Parsed α) (f : α → Parsed β) : Parsed β :=
  match x with
  | .ok a => f a
  | .overread => .overread
  | .overflow => .overflow
  | .unfinished => .unfinished

instance : Monad Parsed where
  pure := .ok
  bind := bind

@[simp] theorem pure_eq (a : α) : (pure a : Parsed α) = .ok a := rfl

@[simp] theorem ok_bind (a : α) (f : α → Parsed β) : (Parsed.ok a >>= f) = f a := rfl

end Parsed

/-! ### Bytes -/

/-- `MAXSTRLEN`. -/
def maxStrLen : ℕ := 256

/-- `CR`. -/
def cr : Byte := 0x0d

/-- `LF`. -/
def lf : Byte := 0x0a

/-- `RESP_ARRAY`. -/
def respArray : Byte := 0x2a

/-- `RESP_SIMPLESTR`. -/
def respSimplestr : Byte := 0x2b

/-- `RESP_BULKSTR`. -/
def respBulkstr : Byte := 0x24

/-- `RESP_ERROR`. -/
def respError : Byte := 0x2d

/-- `REDIS_CMD_GET`. -/
def redisCmdGet : List Byte := [0x47, 0x45, 0x54]

/-- `REDIS_CMD_SET`. -/
def redisCmdSet : List Byte := [0x53, 0x45, 0x54]

/-! ### Numbers and strings -/

/-- The end of a line is passed over, if there is one. -/
def skipCrlf : List Byte → Parsed (List Byte)
  | [] => .overread
  | b :: rest =>
      if b = cr then
        match rest with
        | [] => .overread
        | c :: rest' => if c = lf then .ok rest' else .ok (b :: rest)
      else .ok (b :: rest)

/-- **`extract_decimal`**, with the digits so far. -/
def extractDecimal (num : BitVec 32) : List Byte → Parsed (BitVec 32 × List Byte)
  | [] => .overread
  | b :: rest =>
      if 48 ≤ b ∧ b < 58 then extractDecimal (num * 10 + b.setWidth 32 - 48) rest
      else do
        let rest ← skipCrlf (b :: rest)
        pure (num, rest)

/-- The loop of `extract_string` over a number of bytes. -/
def copyBytes : ℕ → ℕ → Buffer → List Byte → Parsed (ℕ × Buffer × List Byte)
  | 0, j, str, rest => .ok (j, str, rest)
  | _ + 1, _, _, [] => .overread
  | n + 1, j, str, b :: rest =>
      if j < maxStrLen then copyBytes n (j + 1) (Function.update str j b) rest else .overflow

/-- The loop of `extract_string` over the bytes before the end of the line. -/
def copyLine : ℕ → Buffer → List Byte → Parsed (ℕ × Buffer × List Byte)
  | _, _, [] => .overread
  | j, str, b :: rest =>
      if b = cr then .ok (j, str, b :: rest)
      else if j < maxStrLen then copyLine (j + 1) (Function.update str j b) rest
      else .overflow

/-- **`extract_string`**: the length, the array and what is left. -/
def extractString (strLen : BitVec 32) (str : Buffer) (rest : List Byte) :
    Parsed (ℕ × Buffer × List Byte) := do
  let (j, str, rest) ←
    if 0 < strLen.toInt then copyBytes strLen.toNat 0 str rest else copyLine 0 str rest
  if j < maxStrLen then
    let rest ← skipCrlf rest
    pure (j, Function.update str j 0, rest)
  else .overflow

/-- `strcmp` of an array from an index on, and a word: whether they are equal. -/
def strcmpEq (str : Buffer) (j : ℕ) : List Byte → Bool
  | [] => str j = 0
  | w :: word => str j = w && strcmpEq str (j + 1) word

/-- `memcpy` of `n` bytes between two arrays of `MAXSTRLEN`. -/
def memcpyStr (dst str : Buffer) (n : BitVec 32) : Parsed Buffer :=
  if 0 ≤ n.toInt ∧ n.toInt ≤ maxStrLen then .ok (dst.write 0 (str.slice 0 n.toNat)) else .overflow

/-! ### Commands -/

/-- `redis_command_t`. -/
structure RedisCommand where
  /-- `cmd_get`. -/
  cmdGet : Bool
  /-- `cmd_set`. -/
  cmdSet : Bool
  /-- `key_len`. -/
  keyLen : BitVec 32
  /-- `val_len`. -/
  valLen : BitVec 32
  /-- `key`. -/
  key : Buffer
  /-- `value`. -/
  value : Buffer
  /-- `response`. -/
  response : Buffer
  /-- `error`. -/
  error : Buffer

/-- The variables of `deserialize_redis_data`. -/
structure RespState where
  /-- The bytes from `buf[i]` on. -/
  rest : List Byte
  /-- `arr_len`. -/
  arrLen : BitVec 32
  /-- `str`. -/
  str : Buffer
  /-- The command. -/
  redis : RedisCommand

/-- What a string of an array means. -/
def bulkString (redis : RedisCommand) (arrLen strLen : BitVec 32) (str : Buffer) :
    Parsed RedisCommand :=
  if strcmpEq str 0 redisCmdGet then pure { redis with cmdGet := true }
  else if strcmpEq str 0 redisCmdSet then pure { redis with cmdSet := true }
  else if redis.cmdGet = true ∧ arrLen = 1 then do
    let key ← memcpyStr redis.key str (strLen + 1)
    pure { redis with key := key, keyLen := strLen }
  else if redis.cmdSet = true ∧ arrLen = 2 then do
    let key ← memcpyStr redis.key str (strLen + 1)
    pure { redis with key := key, keyLen := strLen }
  else if redis.cmdSet = true then do
    let value ← memcpyStr redis.value str (strLen + 1)
    pure { redis with value := value, valLen := strLen }
  else do
    let response ← memcpyStr redis.response str (strLen + 1)
    pure { redis with response := response, cmdGet := true }

/-- The case of a simple string.  It falls through to the default case, which passes over a byte
more. -/
def simpleString (s : RespState) : Parsed RespState := do
  let (strLen, str, rest) ← extractString 0 s.str (s.rest.drop 1)
  let response ← memcpyStr s.redis.response str (BitVec.ofNat 32 strLen + 1)
  pure { s with
    rest := rest.drop 1
    str := str
    redis := { s.redis with response := response, cmdSet := true } }

/-- **One round of the loop**, at a byte. -/
def deserializeStep (s : RespState) (b : Byte) (rest : List Byte) : Parsed RespState :=
  if b = respArray then do
    let (arrLen, rest) ← extractDecimal 0 rest
    pure { s with rest := rest, arrLen := arrLen }
  else if b = respBulkstr then do
    let (strLen, rest) ← extractDecimal 0 rest
    let (_, str, rest) ← extractString strLen s.str rest
    let redis ← bulkString s.redis s.arrLen strLen str
    pure { rest := rest, arrLen := s.arrLen - 1, str := str, redis := redis }
  else if b = respError then do
    let (strLen, str, rest) ← extractString 0 s.str rest
    let error ← memcpyStr s.redis.error str (BitVec.ofNat 32 strLen + 1)
    -- the case of an error falls through to the one of a simple string
    simpleString { s with rest := rest, str := str, redis := { s.redis with error := error } }
  else if b = respSimplestr then simpleString { s with rest := b :: rest }
  else pure { s with rest := rest }

/-- The loop. -/
def deserializeLoop : ℕ → RespState → Parsed RespState
  | 0, s => if s.rest = [] then .ok s else .unfinished
  | n + 1, s =>
      match s.rest with
      | [] => .ok s
      | b :: rest => deserializeStep s b rest >>= deserializeLoop n

/-- The command before the loop. -/
def RedisCommand.start (redis : RedisCommand) : RedisCommand :=
  { redis with
    cmdGet := false
    cmdSet := false
    key := Function.update redis.key 0 0
    value := Function.update redis.value 0 0
    response := Function.update redis.response 0 0 }

/-- **`deserialize_redis_data`**, of a buffer; what stood in the command, in `arr_len` and in `str`
before is left where it is not written.  A round passes over a byte at least. -/
def deserializeRedisData (arrLen : BitVec 32) (str : Buffer) (redis : RedisCommand)
    (buf : List Byte) : Parsed RedisCommand := do
  let s ← deserializeLoop buf.length { rest := buf, arrLen := arrLen, str := str, redis := redis.start }
  pure s.redis

/-! ### Writing a command -/

/-- A number in decimal. -/
def decimalBytes (n : ℕ) : List Byte := (CText.digits n).map fun c => BitVec.ofNat 8 c.toNat

/-- The header of an array. -/
def arrayHeader (n : ℕ) : List Byte := respArray :: (decimalBytes n ++ [cr, lf])

/-- A string of an array. -/
def bulk (bytes : List Byte) : List Byte :=
  respBulkstr :: (decimalBytes bytes.length ++ [cr, lf] ++ (bytes ++ [cr, lf]))

/-- The commands. -/
inductive RedisRequest
  /-- `GET key`. -/
  | get (key : List Byte)
  /-- `SET key value`. -/
  | set (key value : List Byte)

/-- **The bytes of a command.** -/
def RedisRequest.encode : RedisRequest → List Byte
  | .get key => arrayHeader 2 ++ (bulk redisCmdGet ++ bulk key)
  | .set key value => arrayHeader 3 ++ (bulk redisCmdSet ++ (bulk key ++ bulk value))

/-- The strings of a command have one to 255 bytes. -/
def RedisRequest.Fits : RedisRequest → Prop
  | .get key => 1 ≤ key.length ∧ key.length ≤ 255
  | .set key value => (1 ≤ key.length ∧ key.length ≤ 255) ∧ (1 ≤ value.length ∧ value.length ≤ 255)

/-- An array holds a string, with its length. -/
def Holds (a : Buffer) (len : BitVec 32) (bytes : List Byte) : Prop :=
  len.toInt = bytes.length ∧ a.slice 0 bytes.length = bytes

/-- **What is read is what was written.** -/
def Recovered (r : RedisCommand) : RedisRequest → Prop
  | .get key => (r.cmdGet = true ∧ r.cmdSet = false) ∧ Holds r.key r.keyLen key
  | .set key value => (r.cmdGet = false ∧ r.cmdSet = true) ∧ Holds r.key r.keyLen key ∧
      Holds r.value r.valLen value

/-- **A string is read as a word**: it is the word, or the word with a zero behind it. -/
def ReadsAs (bytes word : List Byte) : Prop := word ++ [0] <+: bytes ++ [0]

/-- A string that is not read as a command. -/
def NoCommand (bytes : List Byte) : Prop :=
  ¬ ReadsAs bytes redisCmdGet ∧ ¬ ReadsAs bytes redisCmdSet

/-- **No key and no value is read as a command.** -/
def RedisRequest.Plain : RedisRequest → Prop
  | .get key => NoCommand key
  | .set key value => NoCommand key ∧ NoCommand value

/-! ### Reading what was written -/

theorem skipCrlf_crlf (rest : List Byte) : skipCrlf (cr :: lf :: rest) = .ok rest := rfl

/-- The digits of a number, in the code of their characters. -/
theorem byte_of_isDigit {c : Char} (h : c.isDigit = true) :
    (48 ≤ BitVec.ofNat 8 c.toNat ∧ BitVec.ofNat 8 c.toNat < 58) ∧ 48 ≤ c.toNat ∧ c.toNat < 58 := by
  have hlow : 48 ≤ c.toNat := UInt32.le_iff_toNat_le.1 (of_decide_eq_true (Bool.and_eq_true_iff.1 h).1)
  have hhigh : c.toNat ≤ 57 := UInt32.le_iff_toNat_le.1 (of_decide_eq_true (Bool.and_eq_true_iff.1 h).2)
  have hnat : (BitVec.ofNat 8 c.toNat).toNat = c.toNat := by
    rw [BitVec.toNat_ofNat]
    omega
  have h48 : (48 : BitVec 8).toNat = 48 := rfl
  have h58 : (58 : BitVec 8).toNat = 58 := rfl
  rw [BitVec.le_def, BitVec.lt_def, hnat]
  omega

/-- Digits are read as the number they are. -/
theorem extractDecimal_digits {cs : List Char} (h : ∀ c ∈ cs, c.isDigit = true) (v : ℕ)
    (rest : List Byte) :
    extractDecimal (BitVec.ofNat 32 v) (cs.map (fun c => BitVec.ofNat 8 c.toNat) ++ cr :: lf :: rest) =
      .ok (BitVec.ofNat 32 (Nat.ofDigitChars 10 cs v), rest) := by
  induction cs generalizing v with
  | nil =>
      rw [List.map_nil, List.nil_append, extractDecimal, if_neg (by decide), skipCrlf_crlf,
        Nat.ofDigitChars_nil]
      rfl
  | cons c cs ih =>
      obtain ⟨hbyte, hlow, hhigh⟩ := byte_of_isDigit (h c List.mem_cons_self)
      have hnum : BitVec.ofNat 32 v * 10 + (BitVec.ofNat 8 c.toNat).setWidth 32 - 48 =
          BitVec.ofNat 32 (10 * v + (c.toNat - 48)) := by
        apply BitVec.eq_of_toNat_eq
        have h10 : (10 : BitVec 32).toNat = 10 := rfl
        have h48 : (48 : BitVec 32).toNat = 48 := rfl
        simp only [BitVec.toNat_sub, BitVec.toNat_add, BitVec.toNat_mul, BitVec.toNat_ofNat,
          BitVec.toNat_setWidth, h10, h48]
        omega
      rw [List.map_cons, List.cons_append, extractDecimal, if_pos hbyte, hnum,
        ih fun d hd => h d (List.mem_cons_of_mem c hd), Nat.ofDigitChars_cons]
      rfl

/-- **A number that was written is read.** -/
theorem extractDecimal_decimalBytes (n : ℕ) (rest : List Byte) :
    extractDecimal 0 (decimalBytes n ++ cr :: lf :: rest) = .ok (BitVec.ofNat 32 n, rest) := by
  have h := extractDecimal_digits (fun c hc => CText.isDigit_of_mem_digits (n := n) hc) 0 rest
  rw [decimalBytes, CText.digits] at *
  rwa [Nat.ofDigitChars_ten_toDigits] at h

theorem copyBytes_append {bytes : List Byte} {j : ℕ} {str : Buffer} (h : j + bytes.length ≤ maxStrLen)
    (rest : List Byte) :
    copyBytes bytes.length j str (bytes ++ rest) =
      .ok (j + bytes.length, str.write j bytes, rest) := by
  induction bytes generalizing j str with
  | nil => rfl
  | cons b bytes ih =>
      rw [List.length_cons] at h ⊢
      rw [List.cons_append, copyBytes, if_pos (by omega), ih (by omega), Buffer.write,
        show j + 1 + bytes.length = j + (bytes.length + 1) by omega]

/-- A write is one byte longer. -/
theorem write_concat (str : Buffer) (j : ℕ) (bytes : List Byte) (b : Byte) :
    str.write j (bytes ++ [b]) = Function.update (str.write j bytes) (j + bytes.length) b := by
  induction bytes generalizing j str with
  | nil => rfl
  | cons c bytes ih =>
      rw [List.cons_append, Buffer.write, ih, Buffer.write, List.length_cons,
        show j + 1 + bytes.length = j + (bytes.length + 1) by omega]

section Strings

variable {bytes : List Byte} (hone : 1 ≤ bytes.length) (hmax : bytes.length ≤ 255)

include hone hmax

theorem toInt_length : (BitVec.ofNat 32 bytes.length).toInt = bytes.length ∧
    (BitVec.ofNat 32 bytes.length).toNat = bytes.length := by
  have hnat : (BitVec.ofNat 32 bytes.length).toNat = bytes.length := by
    rw [BitVec.toNat_ofNat]
    omega
  refine ⟨?_, hnat⟩
  rw [BitVec.toInt_eq_toNat_cond, hnat, if_pos (by omega)]

/-- **A string that was written is read**, with a zero behind it. -/
theorem extractString_bytes (str : Buffer) (rest : List Byte) :
    extractString (BitVec.ofNat 32 bytes.length) str (bytes ++ cr :: lf :: rest) =
      .ok (bytes.length, str.write 0 (bytes ++ [0]), rest) := by
  obtain ⟨hint, hnat⟩ := toInt_length hone hmax
  have hcopy : copyBytes bytes.length 0 str (bytes ++ (cr :: lf :: rest)) =
      .ok (0 + bytes.length, str.write 0 bytes, cr :: lf :: rest) :=
    copyBytes_append (by unfold maxStrLen; omega) _
  rw [extractString, if_pos (by rw [hint]; omega), hnat, hcopy]
  simp only [Parsed.ok_bind, Nat.zero_add]
  rw [if_pos (by unfold maxStrLen; omega), skipCrlf_crlf, write_concat, Nat.zero_add]
  rfl

/-- A string is copied to another array. -/
theorem memcpyStr_bytes (dst str : Buffer) :
    ∃ dst', memcpyStr dst (str.write 0 (bytes ++ [0])) (BitVec.ofNat 32 bytes.length + 1) = .ok dst' ∧
      Holds dst' (BitVec.ofNat 32 bytes.length) bytes := by
  have hn : (BitVec.ofNat 32 bytes.length + 1).toNat = bytes.length + 1 := by
    have h1 : (1 : BitVec 32).toNat = 1 := rfl
    rw [BitVec.toNat_add, BitVec.toNat_ofNat, h1]
    omega
  have hint : (BitVec.ofNat 32 bytes.length + 1).toInt = bytes.length + 1 := by
    rw [BitVec.toInt_eq_toNat_cond, hn, if_pos (by omega)]
    rfl
  have hlen : (bytes ++ [0]).length = bytes.length + 1 := by simp
  rw [memcpyStr, hint, hn, if_pos (by unfold maxStrLen; omega), Buffer.slice_write _ _ hlen]
  refine ⟨_, rfl, (toInt_length hone hmax).1, ?_⟩
  have hall := Buffer.slice_write dst 0 hlen
  rw [Buffer.slice_add] at hall
  exact List.append_inj_left hall (by simp)

/-- **An item of the array.** -/
theorem deserializeStep_bulk (s : RespState) (rest : List Byte) :
    deserializeStep s respBulkstr (decimalBytes bytes.length ++ [cr, lf] ++ (bytes ++ [cr, lf]) ++ rest) =
      (bulkString s.redis s.arrLen (BitVec.ofNat 32 bytes.length) (s.str.write 0 (bytes ++ [0])) >>=
        fun redis => .ok { rest := rest
                           arrLen := s.arrLen - 1
                           str := s.str.write 0 (bytes ++ [0])
                           redis := redis }) := by
  have hbytes : decimalBytes bytes.length ++ [cr, lf] ++ (bytes ++ [cr, lf]) ++ rest =
      decimalBytes bytes.length ++ cr :: lf :: (bytes ++ cr :: lf :: rest) := by simp
  rw [deserializeStep, if_neg (by decide), if_pos rfl, hbytes, extractDecimal_decimalBytes]
  simp only [Parsed.ok_bind]
  rw [extractString_bytes hone hmax]
  rfl

end Strings

/-! ### What a string means -/

/-- **A string is compared to a word** up to the first zero. -/
theorem strcmpEq_iff {word bytes : List Byte} {str : Buffer} {j : ℕ} (hword : ∀ w ∈ word, w ≠ 0)
    (hstr : ∀ i b, (bytes ++ [0])[i]? = some b → str (j + i) = b) :
    strcmpEq str j word = true ↔ ReadsAs bytes word := by
  induction word generalizing bytes j with
  | nil =>
      rw [strcmpEq, decide_eq_true_eq]
      cases bytes with
      | nil => exact iff_of_true (hstr 0 0 rfl) List.prefix_rfl
      | cons b bytes =>
          have hb : str j = b := hstr 0 b rfl
          rw [hb, ReadsAs, List.nil_append, List.cons_append, List.cons_prefix_cons,
            and_iff_left List.nil_prefix, eq_comm]
  | cons w word ih =>
      obtain ⟨hw, hword⟩ := List.forall_mem_cons.1 hword
      rw [strcmpEq, Bool.and_eq_true, decide_eq_true_eq]
      cases bytes with
      | nil =>
          have hb : str j = 0 := hstr 0 0 rfl
          exact iff_of_false (fun h => hw (h.1.symm.trans hb))
            fun h => hw (List.cons_prefix_cons.1 h).1
      | cons b bytes =>
          have hb : str j = b := hstr 0 b rfl
          have hrest : strcmpEq str (j + 1) word = true ↔ ReadsAs bytes word :=
            ih hword fun i c hc => by
              rw [Nat.add_assoc, Nat.add_comm 1]
              exact hstr (i + 1) c hc
          rw [hb, hrest, ReadsAs, ReadsAs, List.cons_append, List.cons_append, List.cons_prefix_cons,
            eq_comm]

theorem strcmpEq_write {word bytes : List Byte} (hword : ∀ w ∈ word, w ≠ 0) (str : Buffer) :
    strcmpEq (str.write 0 (bytes ++ [0])) 0 word = true ↔ ReadsAs bytes word :=
  strcmpEq_iff hword fun _ _ h => Buffer.write_add h

/-- **What a string does to a command.** -/
inductive BulkRead (redis : RedisCommand) (arrLen : BitVec 32) (bytes : List Byte) :
    RedisCommand → Prop
  /-- It is read as `GET`. -/
  | get (h : ReadsAs bytes redisCmdGet) : BulkRead redis arrLen bytes { redis with cmdGet := true }
  /-- It is read as `SET`. -/
  | set (h : ReadsAs bytes redisCmdSet) : BulkRead redis arrLen bytes { redis with cmdSet := true }
  /-- It is the key of the command. -/
  | key (h : NoCommand bytes)
      (hkey : (redis.cmdGet = true ∧ arrLen = 1) ∨ (redis.cmdSet = true ∧ arrLen = 2))
      (key : Buffer) (keyLen : BitVec 32) (hheld : Holds key keyLen bytes) :
      BulkRead redis arrLen bytes { redis with key := key, keyLen := keyLen }
  /-- It is the value. -/
  | value (h : NoCommand bytes) (hset : redis.cmdSet = true) (harr : arrLen ≠ 2)
      (value : Buffer) (valLen : BitVec 32) (hheld : Holds value valLen bytes) :
      BulkRead redis arrLen bytes { redis with value := value, valLen := valLen }
  /-- It is a response. -/
  | response (h : NoCommand bytes) (hget : ¬ (redis.cmdGet = true ∧ arrLen = 1))
      (hset : redis.cmdSet = false) (response : Buffer) :
      BulkRead redis arrLen bytes { redis with response := response, cmdGet := true }

theorem bulkString_cases {bytes : List Byte} (hone : 1 ≤ bytes.length) (hmax : bytes.length ≤ 255)
    (redis : RedisCommand) (arrLen : BitVec 32) (str : Buffer) :
    ∃ r, bulkString redis arrLen (BitVec.ofNat 32 bytes.length) (str.write 0 (bytes ++ [0])) = .ok r ∧
      BulkRead redis arrLen bytes r := by
  have hget : strcmpEq (str.write 0 (bytes ++ [0])) 0 redisCmdGet = true ↔
      ReadsAs bytes redisCmdGet := strcmpEq_write (by decide) str
  have hset : strcmpEq (str.write 0 (bytes ++ [0])) 0 redisCmdSet = true ↔
      ReadsAs bytes redisCmdSet := strcmpEq_write (by decide) str
  have hcopy := fun dst => memcpyStr_bytes hone hmax dst str
  rw [bulkString]
  split_ifs with h₁ h₂ h₃ h₄ h₅
  · exact ⟨_, rfl, .get (hget.1 h₁)⟩
  · exact ⟨_, rfl, .set (hset.1 h₂)⟩
  all_goals have hno : NoCommand bytes := ⟨mt hget.2 h₁, mt hset.2 h₂⟩
  · obtain ⟨key, hok, hheld⟩ := hcopy redis.key
    rw [hok]
    exact ⟨_, rfl, .key hno (.inl h₃) key _ hheld⟩
  · obtain ⟨key, hok, hheld⟩ := hcopy redis.key
    rw [hok]
    exact ⟨_, rfl, .key hno (.inr h₄) key _ hheld⟩
  · obtain ⟨value, hok, hheld⟩ := hcopy redis.value
    rw [hok]
    exact ⟨_, rfl, .value hno h₅ (fun harr => h₄ ⟨h₅, harr⟩) value _ hheld⟩
  · obtain ⟨response, hok, -⟩ := hcopy redis.response
    rw [hok]
    exact ⟨_, rfl, .response hno h₃ (by simpa using h₅) response⟩

/-- An array that begins with a zero does not hold a word. -/
theorem not_holds_of_readsAs {a : Buffer} {len : BitVec 32} {bytes : List Byte} {w : Byte}
    {word : List Byte} (ha : a 0 = 0) (hw : w ≠ 0) (h : ReadsAs bytes (w :: word)) :
    ¬ Holds a len bytes := by
  rintro ⟨-, hheld⟩
  cases bytes with
  | nil => exact hw (List.cons_prefix_cons.1 h).1
  | cons b bytes =>
      have hfirst := (Buffer.slice_eq_iff.1 hheld).2 0 (by simp)
      rw [List.getElem?_cons_zero, Nat.add_zero, ha, Option.some.injEq] at hfirst
      exact hw ((List.cons_prefix_cons.1 h).1.trans hfirst)

theorem NoCommand.not_command {bytes : List Byte} (h : ¬ NoCommand bytes) :
    ReadsAs bytes redisCmdGet ∨ ReadsAs bytes redisCmdSet := by
  by_contra hno
  exact h ⟨fun hget => hno (.inl hget), fun hset => hno (.inr hset)⟩

/-- A command word is not read as the other one. -/
theorem not_readsAs_words : ¬ ReadsAs redisCmdSet redisCmdGet ∧ ¬ ReadsAs redisCmdGet redisCmdSet := by
  unfold ReadsAs
  decide

/-! ### The items of a command -/

section Items

variable {s : RespState} {rest : List Byte}

theorem deserializeLoop_nil (n : ℕ) (h : s.rest = []) : deserializeLoop n s = .ok s := by
  cases n with
  | zero => rw [deserializeLoop, if_pos h]
  | succ n => rw [deserializeLoop, h]

/-- The header is read. -/
theorem deserializeLoop_arrayHeader (n k : ℕ) (h : s.rest = arrayHeader k ++ rest) :
    deserializeLoop (n + 1) s =
      deserializeLoop n { s with rest := rest, arrLen := BitVec.ofNat 32 k } := by
  have hstep : deserializeStep s respArray (decimalBytes k ++ [cr, lf] ++ rest) =
      .ok { s with rest := rest, arrLen := BitVec.ofNat 32 k } := by
    rw [deserializeStep, if_pos rfl, List.append_assoc, List.cons_append, List.cons_append,
      List.nil_append, extractDecimal_decimalBytes]
    rfl
  rw [deserializeLoop, h, arrayHeader, List.cons_append]
  dsimp only
  rw [hstep, Parsed.ok_bind]

/-- A string is read. -/
theorem deserializeLoop_bulk {bytes : List Byte} (hone : 1 ≤ bytes.length) (hmax : bytes.length ≤ 255)
    (n : ℕ) (h : s.rest = bulk bytes ++ rest) :
    ∃ str r, BulkRead s.redis s.arrLen bytes r ∧ deserializeLoop (n + 1) s =
      deserializeLoop n { rest := rest, arrLen := s.arrLen - 1, str := str, redis := r } := by
  obtain ⟨r, hok, hread⟩ := bulkString_cases hone hmax s.redis s.arrLen s.str
  refine ⟨s.str.write 0 (bytes ++ [0]), r, hread, ?_⟩
  rw [deserializeLoop, h, bulk, List.cons_append]
  dsimp only
  rw [deserializeStep_bulk hone hmax, hok]
  rfl

end Items

/-- What a command starts with. -/
structure Started (redis : RedisCommand) : Prop where
  /-- No command is known. -/
  none : redis.cmdGet = false ∧ redis.cmdSet = false
  /-- The key and the value are empty. -/
  empty : redis.key 0 = 0 ∧ redis.value 0 = 0

theorem started_start (redis : RedisCommand) : Started redis.start :=
  ⟨⟨rfl, rfl⟩, by simp [RedisCommand.start]⟩

theorem bulkRead_get {redis r : RedisCommand} {arrLen : BitVec 32}
    (h : BulkRead redis arrLen redisCmdGet r) : r = { redis with cmdGet := true } := by
  have hget : ReadsAs redisCmdGet redisCmdGet := List.prefix_rfl
  cases h with
  | get => rfl
  | set h => exact absurd h not_readsAs_words.2
  | key h => exact absurd hget h.1
  | value h => exact absurd hget h.1
  | response h => exact absurd hget h.1

theorem bulkRead_set {redis r : RedisCommand} {arrLen : BitVec 32}
    (h : BulkRead redis arrLen redisCmdSet r) : r = { redis with cmdSet := true } := by
  have hset : ReadsAs redisCmdSet redisCmdSet := List.prefix_rfl
  cases h with
  | get h => exact absurd h not_readsAs_words.1
  | set => rfl
  | key h => exact absurd hset h.2
  | value h => exact absurd hset h.2
  | response h => exact absurd hset h.2

/-- **The key of `GET`.** -/
theorem recovered_get_iff {redis r : RedisCommand} (h : Started redis) {key : List Byte}
    (hkey : BulkRead { redis with cmdGet := true } 1 key r) :
    Recovered r (.get key) ↔ (RedisRequest.get key).Plain := by
  cases hkey with
  | get hread =>
      refine iff_of_false (fun hrec => ?_) fun hplain => hplain.1 hread
      exact not_holds_of_readsAs h.empty.1 (by decide) hread hrec.2
  | set hread => exact iff_of_false (fun hrec => nomatch hrec.1.2) fun hplain => hplain.2 hread
  | key hno _ key' keyLen hheld => exact iff_of_true ⟨⟨rfl, h.none.2⟩, hheld⟩ hno
  | value _ hset => exact absurd (h.none.2.symm.trans hset) Bool.false_ne_true
  | response _ hget => exact absurd ⟨rfl, rfl⟩ hget

/-- A command that has been read as `GET` stays one. -/
theorem BulkRead.cmdGet {redis r : RedisCommand} {arrLen : BitVec 32} {bytes : List Byte}
    (h : BulkRead redis arrLen bytes r) (hget : redis.cmdGet = true) : r.cmdGet = true := by
  cases h <;> first | exact hget | rfl

/-- **The key and the value of `SET`.** -/
theorem recovered_set_iff {redis r r' : RedisCommand} (h : Started redis) {key value : List Byte}
    (hkey : BulkRead { redis with cmdSet := true } 2 key r) (hvalue : BulkRead r 1 value r') :
    Recovered r' (.set key value) ↔ (RedisRequest.set key value).Plain := by
  have hnoget : redis.cmdGet ≠ true := by simp [h.none.1]
  cases hkey with
  | get hread =>
      refine iff_of_false (fun hrec => ?_) fun hplain => hplain.1.1 hread
      exact Bool.false_ne_true (hrec.1.1.symm.trans (hvalue.cmdGet rfl))
  | set hread =>
      refine iff_of_false (fun hrec => ?_) fun hplain => hplain.1.2 hread
      -- the key is not copied, whatever the value is
      have hzero : r'.key 0 = 0 := by
        cases hvalue with
        | key _ hor =>
            rcases hor with ⟨hget, -⟩ | ⟨-, htwo⟩
            · exact absurd hget hnoget
            · exact absurd htwo (by decide)
        | get | set | value | response => exact h.empty.1
      exact not_holds_of_readsAs hzero (by decide) hread hrec.2.1
  | key hno _ key' keyLen hheld =>
      cases hvalue with
      | get hread =>
          exact iff_of_false (fun hrec => nomatch hrec.1.1) fun hplain => hplain.2.1 hread
      | set hread =>
          refine iff_of_false (fun hrec => ?_) fun hplain => hplain.2.2 hread
          exact not_holds_of_readsAs h.empty.2 (by decide) hread hrec.2.2
      | key _ hor =>
          rcases hor with ⟨hget, -⟩ | ⟨-, htwo⟩
          · exact absurd hget hnoget
          · exact absurd htwo (by decide)
      | value hno' _ _ value' valLen hheld' =>
          exact iff_of_true ⟨⟨h.none.1, rfl⟩, hheld, hheld'⟩ ⟨hno, hno'⟩
      | response _ _ hset => exact absurd hset (by simp)
  | value _ _ harr => exact absurd rfl harr
  | response _ _ hset => exact absurd hset (by simp)

/-- **Exactly when a command is read as it was written**: no key and no value is read as a word. -/
theorem redis_roundtrip_iff (arrLen : BitVec 32) (str : Buffer) (redis : RedisCommand)
    {request : RedisRequest} (h : request.Fits) :
    ∃ r, deserializeRedisData arrLen str redis request.encode = .ok r ∧
      (Recovered r request ↔ request.Plain) := by
  have hstarted := started_start redis
  rw [deserializeRedisData]
  cases request with
  | get key =>
      obtain ⟨n, hn⟩ : ∃ n, (RedisRequest.get key).encode.length = n + 3 :=
        Nat.exists_eq_add_of_le' (by simp [RedisRequest.encode, arrayHeader, bulk]; omega)
      rw [hn, deserializeLoop_arrayHeader (n + 2) 2 rfl]
      -- the word, and then the key
      have hone : 1 ≤ redisCmdGet.length := by decide
      obtain ⟨str₁, r₁, hword, hloop₁⟩ := deserializeLoop_bulk
        (s := ⟨bulk redisCmdGet ++ bulk key, BitVec.ofNat 32 2, str, redis.start⟩) hone (by decide)
        (n + 1) rfl
      obtain ⟨str₂, r₂, hkey, hloop₂⟩ := deserializeLoop_bulk
        (s := ⟨bulk key, BitVec.ofNat 32 2 - 1, str₁, r₁⟩) h.1 h.2 n (List.append_nil _).symm
      rw [bulkRead_get hword] at hkey
      refine ⟨r₂, ?_, recovered_get_iff hstarted hkey⟩
      rw [hloop₁, hloop₂, deserializeLoop_nil n rfl]
      rfl
  | set key value =>
      obtain ⟨n, hn⟩ : ∃ n, (RedisRequest.set key value).encode.length = n + 4 :=
        Nat.exists_eq_add_of_le' (by simp [RedisRequest.encode, arrayHeader, bulk]; omega)
      rw [hn, deserializeLoop_arrayHeader (n + 3) 3 rfl]
      -- the word, the key, and then the value
      have hone : 1 ≤ redisCmdSet.length := by decide
      obtain ⟨str₁, r₁, hword, hloop₁⟩ := deserializeLoop_bulk
        (s := ⟨bulk redisCmdSet ++ (bulk key ++ bulk value), BitVec.ofNat 32 3, str, redis.start⟩)
        hone (by decide) (n + 2) rfl
      obtain ⟨str₂, r₂, hkey, hloop₂⟩ := deserializeLoop_bulk
        (s := ⟨bulk key ++ bulk value, BitVec.ofNat 32 3 - 1, str₁, r₁⟩) h.1.1 h.1.2 (n + 1) rfl
      obtain ⟨str₃, r₃, hvalue, hloop₃⟩ := deserializeLoop_bulk
        (s := ⟨bulk value, BitVec.ofNat 32 3 - 1 - 1, str₂, r₂⟩) h.2.1 h.2.2 n (List.append_nil _).symm
      rw [bulkRead_set hword] at hkey
      refine ⟨r₃, ?_, recovered_set_iff hstarted hkey hvalue⟩
      rw [hloop₁, hloop₂, hloop₃, deserializeLoop_nil n rfl]
      rfl

/-- A command that nothing has been written to. -/
def RedisCommand.zero : RedisCommand :=
  ⟨false, false, 0, 0, fun _ => 0, fun _ => 0, fun _ => 0, fun _ => 0⟩

/-- `SET a b` is read as it was written. -/
theorem redis_roundtrip_set : ∃ r, deserializeRedisData 0 (fun _ => 0) RedisCommand.zero
    (RedisRequest.set [0x61] [0x62]).encode = .ok r ∧ Recovered r (.set [0x61] [0x62]) := by
  have hfits : (RedisRequest.set [0x61] [0x62]).Fits := ⟨by decide, by decide⟩
  obtain ⟨r, hr, hiff⟩ := redis_roundtrip_iff 0 (fun _ => 0) RedisCommand.zero hfits
  refine ⟨r, hr, hiff.2 ?_⟩
  unfold RedisRequest.Plain NoCommand ReadsAs
  decide

/-- **`GET SET`**: the key is read as another command. -/
theorem key_read_as_command : ∃ request : RedisRequest, request.Fits ∧
    ∀ r, deserializeRedisData 0 (fun _ => 0) RedisCommand.zero request.encode = .ok r →
      ¬ Recovered r request := by
  refine ⟨.get redisCmdSet, by unfold RedisRequest.Fits; decide, fun r hr hrec => ?_⟩
  have hset : deserializeRedisData 0 (fun _ => 0) RedisCommand.zero
      (RedisRequest.get redisCmdSet).encode >>= (fun r => Parsed.ok r.cmdSet) = .ok true := by
    decide +kernel
  rw [hr] at hset
  exact Bool.false_ne_true (hrec.1.2.symm.trans (Parsed.ok.inj hset))

end ActiveRmt
