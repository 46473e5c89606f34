/-
**What the compiler says about a program.**

Beside the instructions the compiler hands out the positions of the memory accesses and the ingress
limit, and the allocator takes its constraints from both.  The positions are counted while the
optimiser goes through the instructions.  The limit is found by the scan, before any line is left
out, and nothing corrects it afterwards.

Main definitions:

* `Emission`, `emit` — the loop of the optimiser, with its counters;
* `activeProgramWithMetadata` — **`ActiveProgram` with what it says about the program**;
* `MemoryPositions`, `IngressLimit` — what the positions and the limit should be.

Main results:

* `foldl_emit` — the loop keeps what `skipLoads` keeps, and counts it;
* `position_eq_iff` — a line keeps its number as long as no line before it is left out;
* `metadata_iff` — **exactly when the metadata describes the program**.
-/

import ActiveRmt.ProgramFiles

set_option relaxedAutoImplicit false
set_option autoImplicit false

namespace ActiveRmt

/-! ### The loop of the optimiser -/

/-- The variables of the loop. -/
structure Emission where
  /-- `skipped`. -/
  skipped : Register → Bool
  /-- `idx`. -/
  idx : ℕ
  /-- `memidx`. -/
  memidx : List ℕ
  /-- `program`. -/
  program : List ActiveInstruction

/-- One instruction of the buffer. -/
def emit (regLoad : Register → Option (ℕ × Option Param × Bool)) (s : Emission)
    (instr : ActiveInstruction) : Emission :=
  match isSkipped regLoad s.skipped instr.opcode with
  | some reg => { s with skipped := Function.update s.skipped reg true }
  | none =>
      { s with
        memidx := if instr.opcode.isMem then s.memidx ++ [s.idx] else s.memidx
        program := s.program ++ [instr]
        idx := s.idx + 1 }

/-- **`ActiveProgram`** with `optimize`: the instructions, `memidx` and `iglim`. -/
def activeProgramWithMetadata (program : List SourceLine) : Option CompiledProgram := do
  let (_, buffer) ← assemble program
  let emission := buffer.foldl (emit (scan program).regLoad) ⟨fun _ => false, 0, [], []⟩
  let (_, compiled) ← bindAddresses 0 emission.program
  pure ⟨compiled, emission.memidx, (scan program).iglim⟩

/-- The registers of which a load has been left out, after the instructions of a list. -/
def skippedAfter (regLoad : Register → Option (ℕ × Option Param × Bool)) :
    (Register → Bool) → List ActiveInstruction → Register → Bool
  | skipped, [] => skipped
  | skipped, instr :: buffer =>
      match isSkipped regLoad skipped instr.opcode with
      | some reg => skippedAfter regLoad (Function.update skipped reg true) buffer
      | none => skippedAfter regLoad skipped buffer

section Loop

variable {regLoad : Register → Option (ℕ × Option Param × Bool)}

theorem skipLoads_append (skipped : Register → Bool) (xs ys : List ActiveInstruction) :
    skipLoads regLoad skipped (xs ++ ys) =
      skipLoads regLoad skipped xs ++ skipLoads regLoad (skippedAfter regLoad skipped xs) ys := by
  induction xs generalizing skipped with
  | nil => rfl
  | cons x xs ih =>
      rw [List.cons_append, skipLoads, skipLoads, skippedAfter]
      cases isSkipped regLoad skipped x.opcode with
      | some reg => exact ih _
      | none => exact congrArg (x :: ·) (ih _)

theorem skippedAfter_append (skipped : Register → Bool) (xs ys : List ActiveInstruction) :
    skippedAfter regLoad skipped (xs ++ ys) =
      skippedAfter regLoad (skippedAfter regLoad skipped xs) ys := by
  induction xs generalizing skipped with
  | nil => rfl
  | cons x xs ih =>
      rw [List.cons_append, skippedAfter, skippedAfter]
      cases isSkipped regLoad skipped x.opcode with
      | some reg => exact ih _
      | none => exact ih _

/-- **The loop keeps what `skipLoads` keeps**, and its positions are those of the accesses kept. -/
theorem foldl_emit (s : Emission) (buffer : List ActiveInstruction) :
    buffer.foldl (emit regLoad) s =
      { skipped := skippedAfter regLoad s.skipped buffer
        idx := s.idx + (skipLoads regLoad s.skipped buffer).length
        memidx := s.memidx ++ accesses (fun instr : ActiveInstruction => instr.opcode.isMem) s.idx
          (skipLoads regLoad s.skipped buffer)
        program := s.program ++ skipLoads regLoad s.skipped buffer } := by
  induction buffer generalizing s with
  | nil => simp [skipLoads, skippedAfter, accesses]
  | cons instr buffer ih =>
      rw [List.foldl_cons, ih, skipLoads, skippedAfter, emit]
      cases isSkipped regLoad s.skipped instr.opcode with
      | some reg => rfl
      | none =>
          dsimp only
          rw [accesses]
          split_ifs <;> simp [Nat.add_assoc, Nat.add_comm 1]

end Loop

section Program

variable {program : List SourceLine} {p : CompiledProgram}

/-- **The instructions and the metadata**, by the passes of the compiler. -/
theorem activeProgramWithMetadata_eq (program : List SourceLine) :
    activeProgramWithMetadata program = (do
      let (_, buffer) ← assemble program
      let (_, compiled) ← bindAddresses 0 (kept program true buffer)
      pure ⟨compiled, accesses (fun instr : ActiveInstruction => instr.opcode.isMem) 0
        (kept program true buffer), (scan program).iglim⟩) := by
  rw [activeProgramWithMetadata]
  simp only [foldl_emit, List.nil_append, kept, if_true]

/-- The instructions are those of `activeProgram`. -/
theorem activeProgram_of_metadata (h : activeProgramWithMetadata program = some p) :
    activeProgram program true = some p.program := by
  rw [activeProgramWithMetadata_eq] at h
  simp only [Option.bind_eq_bind, Option.bind_eq_some_iff, Prod.exists, Option.pure_def,
    Option.some.injEq] at h
  obtain ⟨labels, buffer, hbuffer, memIdx, compiled, hbind, rfl⟩ := h
  simp [activeProgram, hbuffer, hbind]

/-- `compileToTarget` adds a check of the number of accesses. -/
theorem compileToTarget_eq (numStagesIg numStagesEg : ℕ) (program : List SourceLine) :
    compileToTarget numStagesIg numStagesEg program = (activeProgramWithMetadata program).filter
      fun p => decide (p.memidx.length ≤ numStagesIg + numStagesEg) := by
  rw [activeProgramWithMetadata_eq, compileToTarget]
  cases assemble program with
  | none => rfl
  | some x =>
      simp only [Option.bind_eq_bind, Option.bind_some]
      cases bindAddresses 0 (kept program true x.2) with
      | none => rfl
      | some y =>
          simp only [Option.bind_some, Option.pure_def, Option.filter_some, decide_eq_true_eq]

end Program

/-! ### What the metadata should be -/

/-- **`memidx` lists the memory accesses**: in ascending order, each at its position. -/
structure MemoryPositions (p : CompiledProgram) : Prop where
  /-- The positions ascend. -/
  ascending : p.memidx.Pairwise (· < ·)
  /-- They are those of the accesses. -/
  mem_iff : ∀ k, k ∈ p.memidx ↔ ∃ instr, p.program[k]? = some instr ∧ instr.opcode.isMem = true

/-- **`z` is the position of the last instruction that is for the ingress pipeline only**, `-1` when
there is none. -/
def IngressLimit (program : List ActiveInstruction) (z : ℤ) : Prop :=
  (z = -1 ∧ ∀ instr ∈ program, instr.opcode ∉ igOnly) ∨
    ∃ k : ℕ, z = k ∧ (∃ instr, program[k]? = some instr ∧ instr.opcode ∈ igOnly) ∧
      ∀ j, k < j → ∀ instr, program[j]? = some instr → instr.opcode ∉ igOnly

/-- The limit is unique. -/
theorem IngressLimit.unique {program : List ActiveInstruction} {z z' : ℤ} (h : IngressLimit program z)
    (h' : IngressLimit program z') : z = z' := by
  rcases h with ⟨rfl, hno⟩ | ⟨k, rfl, ⟨instr, hk, hin⟩, hlast⟩
  · rcases h' with ⟨rfl, -⟩ | ⟨k', -, ⟨instr', hk', hin'⟩, -⟩
    · rfl
    · exact absurd hin' (hno instr' (List.mem_of_getElem? hk'))
  · rcases h' with ⟨-, hno⟩ | ⟨k', rfl, ⟨instr', hk', hin'⟩, hlast'⟩
    · exact absurd hin (hno instr (List.mem_of_getElem? hk))
    · rcases Nat.lt_trichotomy k k' with hlt | rfl | hlt
      · exact absurd hin' (hlast k' hlt instr' hk')
      · rfl
      · exact absurd hin (hlast' k hlt instr hk)

/-- The limit of a list that is split at its last such instruction. -/
theorem ingressLimit_append {pre post : List ActiveInstruction} {x : ActiveInstruction}
    (hx : x.opcode ∈ igOnly) (hpost : ∀ instr ∈ post, instr.opcode ∉ igOnly) :
    IngressLimit (pre ++ x :: post) pre.length := by
  refine .inr ⟨pre.length, rfl, ⟨x, by simp, hx⟩, fun j hj instr hinstr => ?_⟩
  rw [List.getElem?_append_right hj.le, List.getElem?_cons, if_neg (by omega)] at hinstr
  exact hpost instr (List.mem_of_getElem? hinstr)

/-! ### Binding addresses -/

/-- A property of names that binding an address translation does not change. -/
theorem map_bindAddresses {f : Pnemonic → Bool} (hf : ∀ m q q', addressAt m q = some q' → f q' = f q)
    {xs ys : List ActiveInstruction} {i : ℕ} {memIdx : Option ℕ}
    (h : bindAddresses i xs = some (memIdx, ys)) :
    ys.map (fun x => f x.opcode) = xs.map fun x => f x.opcode := by
  induction xs generalizing i ys memIdx with
  | nil =>
      obtain ⟨-, rfl⟩ : none = memIdx ∧ [] = ys := by simpa [bindAddresses] using h
      rfl
  | cons x xs ih =>
      simp only [bindAddresses, Option.bind_eq_bind, Option.bind_eq_some_iff, Prod.exists] at h
      obtain ⟨memIdx₀, ys₀, h₀, h⟩ := h
      split_ifs at h
      · obtain ⟨-, rfl⟩ : some i = memIdx ∧ x :: ys₀ = ys := by simpa using h
        rw [List.map_cons, List.map_cons, ih h₀]
      · cases memIdx₀ with
        | none =>
            obtain ⟨-, rfl⟩ : none = memIdx ∧ x :: ys₀ = ys := by simpa using h
            rw [List.map_cons, List.map_cons, ih h₀]
        | some m =>
            obtain ⟨opcode, hop, h⟩ := Option.bind_eq_some_iff.1 h
            obtain ⟨-, rfl⟩ : some m = memIdx ∧ { x with opcode := opcode } :: ys₀ = ys := by
              simpa using h
            rw [List.map_cons, List.map_cons, ih h₀]
            exact congrArg (· :: _) (hf m _ _ hop)
      · obtain ⟨-, rfl⟩ : memIdx₀ = memIdx ∧ x :: ys₀ = ys := by simpa using h
        rw [List.map_cons, List.map_cons, ih h₀]

/-- Memory accesses and instructions for the ingress pipeline are not bound. -/
theorem addressAt_flags {m : ℕ} {q q' : Pnemonic} (h : addressAt m q = some q') :
    q'.isMem = q.isMem ∧ decide (q' ∈ igOnly) = decide (q ∈ igOnly) := by
  unfold addressAt at h
  split at h
  · split_ifs at h
    obtain rfl := Option.some.inj h
    exact ⟨rfl, by simp [igOnly]⟩
  · split_ifs at h
    obtain rfl := Option.some.inj h
    exact ⟨rfl, by simp [igOnly]⟩
  · cases h

/-! ### Positions -/

section Positions

variable {program : List SourceLine}

/-- What is left out of the first lines. -/
theorem tracks_skippedAfter {n : ℕ} (hn : n ≤ program.length) :
    Tracks program n (skippedAfter (scan program).regLoad (fun _ => false)
      ((program.take n).map SourceLine.unlabelled)) := by
  induction n with
  | zero => exact tracks_zero program
  | succ n ih =>
      have hline := List.getElem?_eq_getElem (show n < program.length by omega)
      rw [List.take_add_one, hline, Option.toList_some, List.map_append, skippedAfter_append]
      have hprev := ih (by omega)
      rw [List.map_cons, List.map_nil, skippedAfter]
      cases hs : isSkipped (scan program).regLoad (skippedAfter (scan program).regLoad (fun _ => false)
          ((program.take n).map SourceLine.unlabelled)) program[n].unlabelled.opcode with
      | some reg => exact hprev.skip hline (Option.filter_eq_some_iff.1 hs).1
      | none =>
          refine hprev.keep fun line hline' => ?_
          rw [hline, Option.some.injEq] at hline'
          rw [← hline']
          exact hs

/-- The position of the next line: one more, unless the line is left out. -/
theorem position_succ_eq {n : ℕ} (hn : n < program.length) :
    (position program true (n + 1) = position program true n + 1 ∧ ∀ reg, ¬ Removed program n reg) ∨
      (position program true (n + 1) = position program true n ∧ ∃ reg, Removed program n reg) := by
  have hline := List.getElem?_eq_getElem hn
  have hremoved : ∀ reg, isSkipped (scan program).regLoad (skippedAfter (scan program).regLoad
      (fun _ => false) ((program.take n).map SourceLine.unlabelled)) program[n].unlabelled.opcode =
        some reg ↔ Removed program n reg :=
    fun reg => (tracks_skippedAfter hn.le).isSkipped_iff hline
  simp only [position, kept, if_true]
  rw [List.take_add_one, hline, Option.toList_some, List.map_append, skipLoads_append, List.map_cons,
    List.map_nil, skipLoads, List.length_append]
  cases hs : isSkipped (scan program).regLoad (skippedAfter (scan program).regLoad (fun _ => false)
      ((program.take n).map SourceLine.unlabelled)) program[n].unlabelled.opcode with
  | some reg => exact .inr ⟨rfl, reg, (hremoved reg).1 hs⟩
  | none => exact .inl ⟨rfl, fun reg h => by rw [(hremoved reg).2 h] at hs; cases hs⟩

theorem position_le {n : ℕ} (hn : n ≤ program.length) : position program true n ≤ n := by
  induction n with
  | zero => exact le_rfl
  | succ n ih =>
      have := ih (by omega)
      rcases position_succ_eq (show n < program.length by omega) with ⟨h, -⟩ | ⟨h, -⟩ <;> omega

/-- **A line keeps its number** exactly when no line before it is left out. -/
theorem position_eq_iff {n : ℕ} (hn : n ≤ program.length) :
    position program true n = n ↔ ∀ k < n, ∀ reg, ¬ Removed program k reg := by
  induction n with
  | zero => exact ⟨fun _ k hk => absurd hk (Nat.not_lt_zero k), fun _ => rfl⟩
  | succ n ih =>
      have hle := position_le (show n ≤ program.length by omega)
      rcases position_succ_eq (show n < program.length by omega) with ⟨h, hno⟩ | ⟨h, reg, hyes⟩
      · rw [h, Nat.add_right_cancel_iff, ih (by omega)]
        constructor
        · intro hall k hk
          rcases Nat.lt_succ_iff_lt_or_eq.1 hk with hk | rfl
          · exact hall k hk
          · exact hno
        · exact fun hall k hk => hall k (Nat.lt_succ_of_lt hk)
      · constructor
        · intro heq
          omega
        · exact fun hall => absurd hyes (hall n (Nat.lt_succ_self n) reg)

end Positions

/-! ### The ingress limit -/

section Limit

variable {program : List SourceLine} {p : CompiledProgram}

/-- **The limit that the scan finds**: the last line for the ingress pipeline only. -/
theorem scan_iglim_cases (program : List SourceLine) :
    ((scan program).iglim = -1 ∧ ∀ line ∈ program, line.opcode ∉ igOnly) ∨
      ∃ pre line post, program = pre ++ line :: post ∧ line.opcode ∈ igOnly ∧
        (∀ line' ∈ post, line'.opcode ∉ igOnly) ∧ (scan program).iglim = pre.length := by
  induction program using List.reverseRecOn with
  | nil => exact .inl ⟨rfl, by simp⟩
  | append_singleton program line ih =>
      have higlim : (scan (program ++ [line])).iglim =
          if line.opcode ∈ igOnly then max (scan program).iglim program.length
          else (scan program).iglim := by
        rw [scan_concat, scanLine]
        dsimp only
        split_ifs <;> (try split) <;> (try split_ifs) <;> rfl
      rw [higlim]
      split_ifs with hin
      · refine .inr ⟨program, line, [], rfl, hin, by simp, ?_⟩
        have := (scan_iglim program).2
        omega
      · rcases ih with ⟨h, hno⟩ | ⟨pre, line₀, post, rfl, hin₀, hpost, h⟩
        · refine .inl ⟨h, fun line' hline' => ?_⟩
          rcases List.mem_append.1 hline' with hline' | hline'
          · exact hno line' hline'
          · rw [List.mem_singleton.1 hline']
            exact hin
        · refine .inr ⟨pre, line₀, post ++ [line], by simp, hin₀, fun line' hline' => ?_, h⟩
          rcases List.mem_append.1 hline' with hline' | hline'
          · exact hpost line' hline'
          · rw [List.mem_singleton.1 hline']
            exact hin

theorem mem_of_mem_skipLoads {regLoad : Register → Option (ℕ × Option Param × Bool)}
    {skipped : Register → Bool} {xs : List ActiveInstruction} {x : ActiveInstruction}
    (h : x ∈ skipLoads regLoad skipped xs) : x ∈ xs := by
  induction xs generalizing skipped with
  | nil => exact h
  | cons y ys ih =>
      rw [skipLoads] at h
      cases hs : isSkipped regLoad skipped y.opcode with
      | some reg =>
          rw [hs] at h
          exact List.mem_cons_of_mem y (ih h)
      | none =>
          rw [hs] at h
          rcases List.mem_cons.1 h with rfl | h
          · exact List.mem_cons_self
          · exact List.mem_cons_of_mem y (ih h)

/-- An instruction for the ingress pipeline only is not left out. -/
theorem loadedRegister_of_igOnly {q : Pnemonic} (h : q ∈ igOnly) : loadedRegister q = none := by
  simp only [igOnly, List.mem_cons, List.not_mem_nil, or_false] at h
  rcases h with rfl | rfl | rfl <;> rfl

theorem skipLoads_cons_of_igOnly {regLoad : Register → Option (ℕ × Option Param × Bool)}
    {skipped : Register → Bool} {x : ActiveInstruction} (hx : x.opcode ∈ igOnly)
    (xs : List ActiveInstruction) :
    skipLoads regLoad skipped (x :: xs) = x :: skipLoads regLoad skipped xs := by
  rw [skipLoads, isSkipped, loadedRegister_of_igOnly hx]
  rfl

/-- **No line before one for the ingress pipeline is left out.** -/
def KeptBeforeLimit (program : List SourceLine) : Prop :=
  ∀ i line, program[i]? = some line → line.opcode ∈ igOnly → ∀ k < i, ∀ reg, ¬ Removed program k reg

/-- It is enough to look at the last such line. -/
theorem keptBeforeLimit_append {pre post : List SourceLine} {line : SourceLine}
    (hline : line.opcode ∈ igOnly) (hpost : ∀ line' ∈ post, line'.opcode ∉ igOnly) :
    KeptBeforeLimit (pre ++ line :: post) ↔
      ∀ k < pre.length, ∀ reg, ¬ Removed (pre ++ line :: post) k reg := by
  constructor
  · exact fun h => h pre.length line (by simp) hline
  · intro h i line' hline' hin k hk
    refine h k (lt_of_lt_of_le hk (Nat.not_lt.1 fun hlt => ?_))
    rw [List.getElem?_append_right hlt.le, List.getElem?_cons, if_neg (by omega)] at hline'
    exact hpost line' (List.mem_of_getElem? hline') hin

/-- **The limit is that of the instructions that are kept** exactly when no line before it is left
out. -/
theorem ingressLimit_kept_iff {labels : List String} {buffer : List ActiveInstruction}
    (h : assemble program = some (labels, buffer)) :
    IngressLimit (kept program true buffer) (scan program).iglim ↔ KeptBeforeLimit program := by
  have hops := opcode_assemble h
  rcases scan_iglim_cases program with ⟨hlim, hno⟩ | ⟨pre, line, post, rfl, hin, hpost, hlim⟩
  · -- there is no such line
    refine iff_of_true (.inl ⟨hlim, fun instr hinstr => ?_⟩) fun i line hline hin =>
      absurd hin (hno line (List.mem_of_getElem? hline))
    have hmem := List.mem_map_of_mem (f := (·.opcode)) (mem_of_mem_skipLoads hinstr)
    rw [hops, List.mem_append, List.mem_singleton, List.mem_map] at hmem
    rcases hmem with ⟨line, hline, hop⟩ | hop
    · rw [← hop]
      exact hno line hline
    · rw [hop]
      decide
  · -- the buffer is split where the program is
    rw [List.map_append, List.map_cons, List.append_assoc, List.cons_append,
      List.map_eq_append_iff] at hops
    obtain ⟨pre', rest, rfl, hpre, hrest⟩ := hops
    obtain ⟨x, post', rfl, hx, hpost'⟩ := List.map_eq_cons_iff.1 hrest
    have hx' : x.opcode ∈ igOnly := hx ▸ hin
    have hlimit : IngressLimit (kept (pre ++ line :: post) true (pre' ++ x :: post'))
        (position (pre ++ line :: post) true pre.length) := by
      have hpos : position (pre ++ line :: post) true pre.length =
          (skipLoads (scan (pre ++ line :: post)).regLoad (fun _ => false) pre').length := by
        rw [position, kept, if_pos rfl, List.take_left]
        refine length_skipLoads_congr ?_
        rw [hpre, List.map_map]
        rfl
      rw [hpos, kept, if_pos rfl, skipLoads_append, skipLoads_cons_of_igOnly hx']
      refine ingressLimit_append hx' fun instr hinstr => ?_
      have hmem := List.mem_map_of_mem (f := (·.opcode)) (mem_of_mem_skipLoads hinstr)
      rw [hpost', List.mem_append, List.mem_singleton, List.mem_map] at hmem
      rcases hmem with ⟨line', hline', hop⟩ | hop
      · rw [← hop]
        exact hpost line' hline'
      · rw [hop]
        decide
    rw [keptBeforeLimit_append hin hpost, ← position_eq_iff (by simp), hlim]
    constructor
    · exact fun hz => Int.ofNat_inj.1 (hlimit.unique hz)
    · intro heq
      rw [heq] at hlimit
      exact hlimit

/-! ### The metadata -/

theorem exists_flag_iff {α : Type} {f : α → Bool} {xs ys : List α} (h : ys.map f = xs.map f) (k : ℕ) :
    (∃ y, ys[k]? = some y ∧ f y = true) ↔ ∃ x, xs[k]? = some x ∧ f x = true := by
  have hk := congrArg (fun l => l[k]?) h
  simp only [List.getElem?_map] at hk
  have key : ∀ l : List α, (∃ y, l[k]? = some y ∧ f y = true) ↔ l[k]?.map f = some true :=
    fun l => by rw [Option.map_eq_some_iff]
  rw [key, key, hk]

/-- The limit depends on which instructions are for the ingress pipeline only. -/
theorem ingressLimit_congr {xs ys : List ActiveInstruction} {z : ℤ}
    (h : ys.map (fun x => decide (x.opcode ∈ igOnly)) = xs.map fun x => decide (x.opcode ∈ igOnly))
    (hz : IngressLimit xs z) : IngressLimit ys z := by
  have hk : ∀ k, (∃ y : ActiveInstruction, ys[k]? = some y ∧ y.opcode ∈ igOnly) ↔
      ∃ x : ActiveInstruction, xs[k]? = some x ∧ x.opcode ∈ igOnly := fun k => by
    have := exists_flag_iff h k
    simpa only [decide_eq_true_eq] using this
  rcases hz with ⟨rfl, hno⟩ | ⟨k, rfl, hin, hlast⟩
  · refine .inl ⟨rfl, fun y hy hin => ?_⟩
    obtain ⟨k, hget⟩ := List.mem_iff_getElem?.1 hy
    obtain ⟨x, hx, hxin⟩ := (hk k).1 ⟨y, hget, hin⟩
    exact hno x (List.mem_of_getElem? hx) hxin
  · refine .inr ⟨k, rfl, (hk k).2 hin, fun j hj y hy hyin => ?_⟩
    obtain ⟨x, hx, hxin⟩ := (hk j).1 ⟨y, hy, hyin⟩
    exact hlast j hj x hx hxin

/-- **Exactly when the metadata describes the program**: the positions of the accesses always do, and
the ingress limit does when no line before it is left out. -/
theorem metadata_iff (h : activeProgramWithMetadata program = some p) :
    MemoryPositions p ∧ IngressLimit p.program p.iglim ↔ KeptBeforeLimit program := by
  rw [activeProgramWithMetadata_eq] at h
  simp only [Option.bind_eq_bind, Option.bind_eq_some_iff, Prod.exists, Option.pure_def,
    Option.some.injEq] at h
  obtain ⟨labels, buffer, hbuffer, memIdx, compiled, hbind, rfl⟩ := h
  have hmem := map_bindAddresses (fun m q q' hq => (addressAt_flags hq).1) hbind
  have hlim := map_bindAddresses (f := fun q => decide (q ∈ igOnly))
    (fun m q q' hq => (addressAt_flags hq).2) hbind
  have hpositions : MemoryPositions ⟨compiled, accesses (fun instr : ActiveInstruction =>
      instr.opcode.isMem) 0 (kept program true buffer), (scan program).iglim⟩ := by
    refine ⟨pairwise_accesses 0 _, fun k => ?_⟩
    rw [mem_accesses, Nat.sub_zero, exists_flag_iff hmem k]
    exact and_iff_right (Nat.zero_le k)
  rw [← ingressLimit_kept_iff hbuffer, and_iff_right hpositions]
  exact ⟨ingressLimit_congr hlim.symm, ingressLimit_congr hlim⟩

end Limit

/-- A return to the sender, and then a load and a read. -/
def returnFirst : List SourceLine := [plain .rts, plain .mbrLoad, plain .memRead, plain .return_]

/-- The load is left out behind the limit. -/
theorem metadata_iff_returnFirst :
    ∃ p, activeProgramWithMetadata returnFirst = some p ∧ p.memidx = [1] ∧ p.iglim = 0 ∧
      MemoryPositions p ∧ IngressLimit p.program p.iglim := by
  have hprogram : activeProgramWithMetadata returnFirst = some
      ⟨[⟨.rts, false⟩, ⟨.memRead, false⟩, ⟨.return_, false⟩, ⟨.eof, false⟩], [1], 0⟩ := rfl
  refine ⟨_, hprogram, rfl, rfl, (metadata_iff hprogram).2 fun i line hline hin k hk => ?_⟩
  have hi : i < 4 := (List.getElem?_eq_some_iff.1 hline).1
  have hfirst : ∀ i < 4, 0 < i → ∀ line ∈ returnFirst[i]?, line.opcode ∉ igOnly := by decide
  exact absurd hin (hfirst i hi (by omega) line hline)

/-- A load, and then a return to the sender. -/
def loadFirst : List SourceLine := [plain .mbrLoad, plain .rts, plain .return_]

/-- **The load is left out, and the limit stays**: it is the position of the instruction behind the
return. -/
theorem limit_off_by_one :
    ∃ program p, activeProgramWithMetadata program = some p ∧
      ¬ (MemoryPositions p ∧ IngressLimit p.program p.iglim) := by
  refine ⟨loadFirst, ⟨[⟨.rts, false⟩, ⟨.return_, false⟩, ⟨.eof, false⟩], [], 1⟩, rfl, fun h => ?_⟩
  have hzero : IngressLimit ([] ++ ⟨.rts, false⟩ :: [⟨.return_, false⟩, ⟨.eof, false⟩])
      ([] : List ActiveInstruction).length := ingressLimit_append (by decide) (by decide)
  exact absurd (h.2.unique hzero) (by decide)

end ActiveRmt
