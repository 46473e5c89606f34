/-
**The files of a program, from the compiler to the client.**

The compiler writes two files: the bytes of the instructions, and a line with the positions of the memory
accesses above a line with the ingress limit.  The client reads the first one into an array of fifty
instructions, and each line of the second one through a buffer of fifty characters into an array of
twenty positions.

Main definitions:

* `writeProgram` — **what the compiler writes**;
* `readActiveProgram`, `readActiveMemaccess`, `readProgram` — **what the client reads**;
* `Outcome` — reading succeeds, fails an assertion, or writes behind an array.

Main results:

* `length_le_of_compileToTarget` — the optimiser removes at most three instructions;
* `program_files_iff` — **exactly which programs are read as they were written**.
-/

import ActiveRmt.CText
import ActiveRmt.Frames
import ActiveRmt.Optimizer

set_option relaxedAutoImplicit false
set_option autoImplicit false

namespace ActiveRmt

open CText

/-! ### The compiler -/

/-- A character in UTF-8, for the characters that a byte can number. -/
def utf8 (n : ℕ) : List Byte :=
  if n < 128 then [BitVec.ofNat 8 n] else [BitVec.ofNat 8 (192 + n / 64), BitVec.ofNat 8 (128 + n % 64)]

/-- `ActiveInstruction.getBytes`, as it is written. -/
def writeInstruction (instr : ActiveInstruction) : List Byte :=
  utf8 instr.goto.toNat ++ utf8 ((pnemonicToOpcode instr.opcode).getD 0)

/-- The files of a program. -/
structure ProgramFiles where
  /-- The instructions. -/
  apo : List Byte
  /-- The positions of the memory accesses and the ingress limit. -/
  memidx : List Char

/-- **A program that is compiled**: its instructions, the positions of the memory accesses, and its
ingress limit. -/
structure CompiledProgram where
  /-- The instructions. -/
  program : List ActiveInstruction
  /-- `memidx`. -/
  memidx : List ℕ
  /-- `iglim`. -/
  iglim : ℤ

/-- `ActiveProgram` and `compileToTarget`; the positions are those of the instructions that are kept. -/
def compileToTarget (numStagesIg numStagesEg : ℕ) (program : List SourceLine) :
    Option CompiledProgram := do
  let (_, buffer) ← assemble program
  let (_, compiled) ← bindAddresses 0 (kept program true buffer)
  let memidx := accesses (fun instr : ActiveInstruction => instr.opcode.isMem) 0
    (kept program true buffer)
  if memidx.length ≤ numStagesIg + numStagesEg then
    pure ⟨compiled, memidx, (scan program).iglim⟩
  else none

/-- **What `ap4.py` writes.** -/
def writeProgram (p : CompiledProgram) : ProgramFiles where
  apo := p.program.flatMap writeInstruction
  memidx := csv p.memidx ++ '\n' :: (decimal p.iglim ++ ['\n'])

/-! ### The client -/

/-- How reading ends. -/
inductive Outcome (α : Type)
  /-- A value is read. -/
  | ok (a : α)
  /-- An assertion fails. -/
  | assertionFailed
  /-- Memory behind an array is written. -/
  | overflow
  deriving DecidableEq

/-- One step after the other. -/
def Outcome.bind {α β : Type} (x : Outcome α) (f : α → Outcome β) : Outcome β :=
  match x with
  | .ok a => f a
  | .assertionFailed => .assertionFailed
  | .overflow => .overflow

/-- `MAXFILESIZE`. -/
def maxFileSize : ℕ := 1024

/-- **`read_active_program`**; the buffer holds what stood on the stack before. -/
def readActiveProgram (stack : Buffer) (file : List Byte) : Outcome (List ActiveInstr) :=
  if maxFileSize < file.length then .overflow
  else if file = [] then .assertionFailed
  else
    let fbuf := stack.write 0 file
    .ok ((List.range (min maxProgramLen ((file.length + 1) / 2))).map fun i =>
      ⟨fbuf (2 * i), fbuf (2 * i + 1)⟩)

/-- **`read_active_memaccess`.** -/
def readActiveMemaccess (file : List Char) : Outcome (List ℤ × ℤ) :=
  let (memidx, file) := match fgets 50 file with
    | some (buf, file) => (readNumbers buf, file)
    | none => ([], file)
  let iglim := match fgets 50 file with
    | some (buf, _) => atoi buf
    | none => -1
  if 20 < memidx.length then .overflow else .ok (memidx, iglim)

/-- What the client knows of a program. -/
structure ReadProgram where
  /-- The instructions. -/
  code : List ActiveInstr
  /-- `access_idx`. -/
  accessIdx : List ℤ
  /-- `iglim`. -/
  iglim : ℤ
  deriving DecidableEq

/-- Both files. -/
def readProgram (stack : Buffer) (files : ProgramFiles) : Outcome ReadProgram :=
  (readActiveProgram stack files.apo).bind fun code =>
    (readActiveMemaccess files.memidx).bind fun x => .ok ⟨code, x.1, x.2⟩

/-- What the client should know. -/
def CompiledProgram.asRead (p : CompiledProgram) : ReadProgram where
  code := p.program.map ActiveInstruction.getBytes
  accessIdx := p.memidx.map Int.ofNat
  iglim := p.iglim

/-! ### What the compiler guarantees -/

section Compiled

variable {numStagesIg numStagesEg : ℕ} {program : List SourceLine} {p : CompiledProgram}

/-- The registers that the optimiser has not skipped a load of. -/
def registersLeft (skipped : Register → Bool) : ℕ :=
  (!skipped .mar).toNat + (!skipped .mbr).toNat + (!skipped .mbr2).toNat

theorem registersLeft_update {skipped : Register → Bool} {reg : Register} (h : skipped reg = false) :
    registersLeft (Function.update skipped reg true) + 1 = registersLeft skipped := by
  cases reg <;> simp [registersLeft, h] <;> omega

/-- **Each removal uses up a register.** -/
theorem length_skipLoads_ge (regLoad : Register → Option (ℕ × Option Param × Bool))
    (buffer : List ActiveInstruction) (skipped : Register → Bool) :
    buffer.length ≤ (skipLoads regLoad skipped buffer).length + registersLeft skipped := by
  induction buffer generalizing skipped with
  | nil => exact Nat.zero_le _
  | cons instr buffer ih =>
      rw [skipLoads]
      cases hskip : isSkipped regLoad skipped instr.opcode with
      | none =>
          have := ih skipped
          simp only [List.length_cons]
          omega
      | some reg =>
          have hleft : skipped reg = false := by
            have h := (Option.filter_eq_some_iff.1 hskip).2
            simpa using (Bool.and_eq_true_iff.1 h).2
          have := ih (Function.update skipped reg true)
          have := registersLeft_update hleft
          simp only [List.length_cons]
          omega

/-- The ingress limit is a line of the program, or none. -/
theorem scan_iglim (program : List SourceLine) :
    -1 ≤ (scan program).iglim ∧ (scan program).iglim < program.length := by
  induction program using List.reverseRecOn with
  | nil => decide
  | append_singleton program line ih =>
      have hline : (scanLine (scan program) (line, program.length)).iglim = (scan program).iglim ∨
          (scanLine (scan program) (line, program.length)).iglim =
            max (scan program).iglim program.length := by
        unfold scanLine
        dsimp only
        split_ifs <;> (try split) <;> (try split_ifs) <;> simp
      rw [scan_concat, List.length_append, List.length_singleton]
      push_cast
      rcases hline with h | h <;> rw [h] <;> omega

/-- The bytes are those of `getByteCode`. -/
theorem getByteCode_of_compileToTarget (h : compileToTarget numStagesIg numStagesEg program = some p) :
    getByteCode program true = some p.asRead.code := by
  simp only [compileToTarget, Option.bind_eq_bind, Option.bind_eq_some_iff, Prod.exists] at h
  obtain ⟨labels, buffer, hbuffer, memIdx, compiled, hbind, h⟩ := h
  split_ifs at h
  obtain rfl := Option.some.inj h
  simp [getByteCode, activeProgram, hbuffer, hbind, CompiledProgram.asRead]

/-- **What is compiled.** -/
theorem length_le_of_compileToTarget (h : compileToTarget numStagesIg numStagesEg program = some p) :
    0 < p.program.length ∧ -1 ≤ p.iglim ∧ p.iglim < p.program.length + 2 := by
  have hcode := length_getByteCode (getByteCode_of_compileToTarget h)
  rw [CompiledProgram.asRead, List.length_map] at hcode
  refine ⟨by omega, ?_⟩
  simp only [compileToTarget, Option.bind_eq_bind, Option.bind_eq_some_iff, Prod.exists] at h
  obtain ⟨labels, buffer, hbuffer, _, compiled, hbind, h⟩ := h
  split_ifs at h
  obtain rfl := Option.some.inj h
  have hbuf : buffer.length = program.length + 1 := by
    have := congrArg List.length (opcode_assemble hbuffer)
    simpa using this
  have hlen := length_bindAddresses hbind
  have hkept := length_skipLoads_ge (scan program).regLoad buffer fun _ => false
  have hthree : registersLeft (fun _ => false) = 3 := rfl
  have hlim := scan_iglim program
  rw [kept, if_pos rfl] at hlen
  dsimp only
  exact ⟨hlim.1, by omega⟩

end Compiled

/-! ### Reading back -/

section Reading

variable {stack : Buffer} {p : CompiledProgram}

/-- Every opcode is a character of one byte. -/
theorem writeInstruction_eq (instr : ActiveInstruction) :
    writeInstruction instr = instr.getBytes.bytes := by
  have hop : (pnemonicToOpcode instr.opcode).getD 0 < 128 := by
    cases hp : pnemonicToOpcode instr.opcode with
    | none => decide
    | some k =>
        obtain ⟨hk, -⟩ := List.findIdx?_eq_some_iff_getElem.1 hp
        exact hk.trans_le (by decide +kernel)
  have hgoto : instr.goto.toNat < 128 := by cases instr.goto <;> decide
  rw [writeInstruction, utf8, utf8, if_pos hgoto, if_pos hop]
  rfl

theorem apo_writeProgram : (writeProgram p).apo = programBytes p.asRead.code := by
  rw [writeProgram, programBytes, CompiledProgram.asRead, List.flatMap_map]
  exact List.flatMap_congr fun instr _ => writeInstruction_eq instr

theorem getElem?_programBytes (code : List ActiveInstr) (i : ℕ) :
    (programBytes code)[2 * i]? = code[i]?.map ActiveInstr.flags ∧
      (programBytes code)[2 * i + 1]? = code[i]?.map ActiveInstr.opcode := by
  induction code generalizing i with
  | nil => exact ⟨rfl, rfl⟩
  | cons c code ih =>
      cases i with
      | zero => exact ⟨rfl, rfl⟩
      | succ i => exact ih i

/-- **The instructions are read, up to fifty of them.** -/
theorem readActiveProgram_programBytes {code : List ActiveInstr} (hne : 0 < code.length)
    (hsize : 2 * code.length ≤ maxFileSize) :
    readActiveProgram stack (programBytes code) = .ok (code.take maxProgramLen) := by
  have hnil : programBytes code ≠ [] := by
    rw [← List.length_pos_iff, length_programBytes]
    omega
  rw [readActiveProgram, if_neg (by rw [length_programBytes]; omega), if_neg hnil,
    length_programBytes, show (2 * code.length + 1) / 2 = code.length by omega]
  dsimp only
  congr 1
  refine List.ext_getElem? fun i => ?_
  by_cases hi : i < min maxProgramLen code.length
  · obtain ⟨hmax, hlen⟩ := lt_min_iff.1 hi
    obtain ⟨hflags, hopcode⟩ := getElem?_programBytes code i
    rw [List.getElem?_eq_getElem hlen] at hflags hopcode
    have hf : stack.write 0 (programBytes code) (0 + 2 * i) = code[i].flags := Buffer.write_add hflags
    have ho : stack.write 0 (programBytes code) (0 + (2 * i + 1)) = code[i].opcode :=
      Buffer.write_add hopcode
    rw [Nat.zero_add] at hf ho
    rw [List.getElem?_map, List.getElem?_range hi, Option.map_some, hf, ho, List.getElem?_take_of_lt hmax,
      List.getElem?_eq_getElem hlen]
  · have hle := Nat.not_lt.1 hi
    rw [List.getElem?_eq_none (by rwa [List.length_map, List.length_range]),
      List.getElem?_eq_none (by rwa [List.length_take])]

/-- **The line of the accesses fits the buffer.** -/
def FitsLine (p : CompiledProgram) : Prop :=
  (csv p.memidx).length ≤ 48 ∨ (csv p.memidx).length = 49 ∧ p.iglim = 0

theorem newline_not_mem_csv (ns : List ℕ) : '\n' ∉ csv ns := fun h => by
  rcases mem_csv h with h | h
  · exact absurd h (by decide)
  · exact absurd h (by decide)

/-- The line of the ingress limit is short. -/
theorem decimal_iglim (hlim : -1 ≤ p.iglim) (hsmall : p.iglim < 1000) :
    '\n' ∉ decimal p.iglim ∧ (decimal p.iglim).length + 1 < 50 := by
  unfold decimal
  split_ifs with hneg
  · obtain hone : p.iglim = -1 := by omega
    rw [hone]
    decide
  · refine ⟨fun h => absurd (isDigit_of_mem_digits h) (by decide), ?_⟩
    have hlen : (digits p.iglim.toNat).length ≤ 3 :=
      (Nat.length_toDigits_le_iff (by decide) (by decide)).2 (by omega)
    omega

/-- The positions are read as long as the buffer holds their line. -/
theorem readNumbers_iff {t : List Char} (ht : IsLineEnd t)
    (hend : p.memidx = [] → t = ['\n']) :
    readNumbers (csv p.memidx ++ t) = p.memidx.map Int.ofNat ↔ p.memidx ≠ [] := by
  constructor
  · intro h hnil
    rw [hnil, hend hnil] at h
    exact absurd h (by decide)
  · exact readNumbers_csv ht

/-- The line of the accesses and what follows it. -/
theorem readActiveMemaccess_eq (hlim : -1 ≤ p.iglim) (hsmall : p.iglim < 1000) :
    ∃ numbers iglim, readActiveMemaccess (writeProgram p).memidx =
        (if 20 < numbers.length then .overflow else .ok (numbers, iglim)) ∧
      (numbers = p.memidx.map Int.ofNat ∧ iglim = p.iglim ↔ p.memidx ≠ [] ∧ FitsLine p) := by
  obtain ⟨hline, hshort⟩ := decimal_iglim hlim hsmall
  have hread : fgets 50 (decimal p.iglim ++ ['\n']) = some (decimal p.iglim ++ ['\n'], []) :=
    fgets_line hline hshort
  have hcsv := newline_not_mem_csv p.memidx
  rw [writeProgram]
  rcases Nat.lt_trichotomy (csv p.memidx).length 49 with hlen | hlen | hlen
  · have hfirst := fgets_line (n := 50) (r := decimal p.iglim ++ ['\n']) hcsv (by omega)
    refine ⟨readNumbers (csv p.memidx ++ ['\n']), p.iglim, ?_, ?_⟩
    · rw [readActiveMemaccess, hfirst]
      dsimp only
      rw [hread]
      dsimp only
      rw [atoi_decimal (endsNumber_lineEnd (Or.inr rfl))]
    · rw [readNumbers_iff (Or.inr rfl) fun _ => rfl]
      simp only [FitsLine, and_true]
      exact ⟨fun h => ⟨h, Or.inl (by omega)⟩, And.left⟩
  · -- the buffer is full, and the rest of the line is its end
    have hne : p.memidx ≠ [] := fun h => by simp [h, csv] at hlen
    have hfirst := fgets_long (n := 50) (r := '\n' :: (decimal p.iglim ++ ['\n'])) hcsv (by omega)
      (by simp)
    rw [show (50 : ℕ) - 1 = 49 from rfl, List.take_of_length_le hlen.le,
      List.drop_eq_nil_of_le hlen.le, List.nil_append] at hfirst
    have hsecond : fgets 50 ('\n' :: (decimal p.iglim ++ ['\n'])) =
        some (['\n'], decimal p.iglim ++ ['\n']) := fgets_line (s := []) (by simp) (by decide)
    refine ⟨readNumbers (csv p.memidx), 0, ?_, ?_⟩
    · rw [readActiveMemaccess, hfirst]
      dsimp only
      rw [hsecond]
      rfl
    · have hnumbers := readNumbers_csv (Or.inl rfl) hne
      rw [List.append_nil] at hnumbers
      rw [hnumbers, FitsLine, hlen]
      constructor
      · exact fun h => ⟨hne, Or.inr ⟨rfl, h.2.symm⟩⟩
      · rintro ⟨-, h | h⟩
        · omega
        · exact ⟨rfl, h.2.symm⟩
  · -- the numbers of a part of the line are others
    have hfirst := fgets_long (n := 50) (r := '\n' :: (decimal p.iglim ++ ['\n'])) hcsv (by omega)
      (by simp)
    rw [readActiveMemaccess, hfirst]
    refine ⟨_, _, rfl, ?_⟩
    have hnot : ¬ FitsLine p := by
      rintro (h | h) <;> omega
    have hne : p.memidx ≠ [] := fun h => by simp [h, csv] at hlen
    refine iff_of_false (fun h => ?_) (fun h => hnot h.2)
    have hsmall := length_csv_le (fun c hc => mem_csv (List.take_subset _ _ hc)) hne h.1
    rw [List.length_take] at hsmall
    omega

/-- **The positions and the limit are read exactly when their line fits.** -/
theorem readActiveMemaccess_iff (hlim : -1 ≤ p.iglim) (hsmall : p.iglim < 1000) :
    readActiveMemaccess (writeProgram p).memidx = .ok (p.memidx.map Int.ofNat, p.iglim) ↔
      p.memidx ≠ [] ∧ p.memidx.length ≤ 20 ∧ FitsLine p := by
  obtain ⟨numbers, iglim, hread, hiff⟩ := readActiveMemaccess_eq hlim hsmall
  rw [hread]
  constructor
  · intro h
    split_ifs at h with hlen
    obtain ⟨rfl, rfl⟩ := Prod.ext_iff.1 (Outcome.ok.inj h)
    have hfits := hiff.1 ⟨rfl, rfl⟩
    rw [List.length_map] at hlen
    exact ⟨hfits.1, Nat.not_lt.1 hlen, hfits.2⟩
  · rintro ⟨hne, hlen, hfits⟩
    obtain ⟨rfl, rfl⟩ := hiff.2 ⟨hne, hfits⟩
    rw [if_neg (by rw [List.length_map]; omega)]

/-- **Exactly which programs are read as they were written**: at most fifty instructions, at least one
memory access and at most twenty, and a line of accesses that fits the buffer.  No assertion fails. -/
theorem program_files_iff {numStagesIg numStagesEg : ℕ} {program : List SourceLine}
    (h : compileToTarget numStagesIg numStagesEg program = some p) :
    (readProgram stack (writeProgram p) = .ok p.asRead ∨
        readProgram stack (writeProgram p) = .assertionFailed) ↔
      p.program.length ≤ maxProgramLen ∧ p.memidx ≠ [] ∧ p.memidx.length ≤ 20 ∧ FitsLine p := by
  obtain ⟨hpos, hlim, hsmall⟩ := length_le_of_compileToTarget h
  have h50 : maxProgramLen = 50 := rfl
  have h1024 : maxFileSize = 1024 := rfl
  have hlen : p.asRead.code.length = p.program.length := List.length_map _
  rw [readProgram, apo_writeProgram]
  by_cases hsize : 2 * p.program.length ≤ maxFileSize
  · rw [readActiveProgram_programBytes (by omega) (by omega)]
    have hiff := readActiveMemaccess_iff hlim (by omega)
    simp only [Outcome.bind]
    constructor
    · intro hread
      cases hmem : readActiveMemaccess (writeProgram p).memidx with
      | ok x =>
          rw [hmem] at hread
          simp only [reduceCtorEq, or_false, Outcome.ok.injEq] at hread
          obtain ⟨memidx, iglim⟩ := x
          have hcode := congrArg (fun r => r.code.length) hread
          have hidx := congrArg ReadProgram.accessIdx hread
          have hig := congrArg ReadProgram.iglim hread
          dsimp only [CompiledProgram.asRead] at hidx hig
          rw [hmem, hidx, hig] at hiff
          have hcode : (p.asRead.code.take maxProgramLen).length = p.asRead.code.length := hcode
          rw [List.length_take] at hcode
          exact ⟨by omega, hiff.1 rfl⟩
      | assertionFailed =>
          obtain ⟨numbers, iglim, heq, -⟩ := readActiveMemaccess_eq hlim (by omega)
          rw [heq] at hmem
          split_ifs at hmem
      | overflow =>
          rw [hmem] at hread
          simp at hread
    · rintro ⟨hle, hrest⟩
      rw [hiff.2 hrest]
      refine Or.inl ?_
      dsimp only
      rw [List.take_of_length_le (by omega)]
      rfl
  · have hover : readActiveProgram stack (programBytes p.asRead.code) = .overflow := by
      rw [readActiveProgram, if_pos (by rw [length_programBytes]; omega)]
    rw [hover]
    simp only [Outcome.bind, reduceCtorEq, or_self, false_iff]
    intro hcond
    omega

/-- A program that reads memory once. -/
theorem program_files_oneRead :
    ∃ p, compileToTarget 10 10 [plain .nop, plain .memRead, plain .return_] = some p ∧
      (readProgram (fun _ => 0) (writeProgram p) = .ok p.asRead ∨
        readProgram (fun _ => 0) (writeProgram p) = .assertionFailed) := by
  have h : compileToTarget 10 10 [plain .nop, plain .memRead, plain .return_] =
      some ⟨[⟨.nop, false⟩, ⟨.memRead, false⟩, ⟨.return_, false⟩, ⟨.eof, false⟩], [1], -1⟩ := rfl
  exact ⟨_, h, (program_files_iff h).2 ⟨by decide, by decide, by decide, Or.inl (by decide)⟩⟩

/-- **A program without memory accesses is read as one with an access at position zero.** -/
theorem no_access_misread :
    ∃ p, compileToTarget 10 10 [plain .nop, plain .return_] = some p ∧ p.memidx = [] ∧
      readProgram (fun _ => 0) (writeProgram p) = .ok { p.asRead with accessIdx := [0] } := by
  refine ⟨⟨_, [], -1⟩, rfl, rfl, ?_⟩
  decide +kernel

end Reading

end ActiveRmt
