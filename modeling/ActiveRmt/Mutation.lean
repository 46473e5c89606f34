/-
**Mutation: how a client moves the memory accesses of its program to the stages it was given.**

The switch answers an allocation request with a set of stages.  The client then inserts no-ops into
its program so that the accesses meet these stages.  The code computes the new length in one pass
over the program and copies the instructions in another: the first accumulates the shifts of the
accesses one after the other, the second moves each block, from one access up to the next, by the
distance between its access and the stage that the access is given.  The stages come without an
order, and the code gives them to the accesses smallest first; when a stage lies before the stage of
its access, the access is taken to meet it in the next pass through the egress pipeline.

The definitions are generic in the instructions.  Run on a program whose instructions carry their
positions, the same code shows where each of them ends up.

Main definitions:

* `getMemoryStageId` — the stage that a position is executed in, as the client computes it;
* `ActiveProgramDef`, `mutateActiveProgram` — the program of a client and its mutation;
* `NopInsertion` — a program with no-ops inserted;
* `offsetDown` — how far the copying pass moves a position;
* `Aligned` — the offsets of the accesses ascend, and no ingress stage lies before its access.

Main results:

* `getElem?_copyBlocks`, `getElem?_copyBlocks_of_ne` — what the copying pass leaves in each cell;
* `mutateActiveProgram_aligned` — **aligned stages move every block as a whole and in order**;
* `single_pass_mutation` — the mutation of a program that needs no further pass;
* `recirculating_mutation_iff` — **exactly when a mutation with further passes is one of the
  program**, and `recirculating_mutation_overlaps` — blocks that run into each other.
-/

import ActiveRmt.Sharing
import ActiveRmt.Switch

set_option relaxedAutoImplicit false
set_option autoImplicit false

namespace ActiveRmt

/-! ### The code -/

/-- An instruction in a packet. -/
structure ActiveInstr where
  /-- The flags. -/
  flags : BitVec 8
  /-- The opcode. -/
  opcode : BitVec 8
  deriving DecidableEq

/-- `is_memaccess`: the name of the instruction starts with `MEM`. -/
def ActiveInstr.isMemaccess (instr : ActiveInstr) : Bool :=
  instructionSet[instr.opcode.toNat]?.any (·.memory)

/-- `MAXPROGLEN`. -/
def maxProgramLen : ℕ := 50

/-- `get_memory_stage_id`. -/
def getMemoryStageId (idx : ℕ) : ℕ :=
  if idx < numStageIg + numStageEg then idx else (idx - numStageIg) % numStageEg + numStageIg

/-- The program of a client: its instructions, the positions of its memory accesses, and its
current mutant. -/
structure ActiveProgramDef (α : Type) where
  /-- The instructions. -/
  code : List α
  /-- `access_idx`. -/
  accessIdx : List ℕ
  /-- The mutant. -/
  mutant : List α

section Code

variable {α : Type} (isMem : α → Bool) (nop : α)

/-- The stages of the allocation, smallest first. -/
def accessIdxAllocated (validStages : Stage → Bool) : List ℕ :=
  ((List.finRange 20).filter validStages).map (·.val)

/-- The accesses are at stages of the allocation already. -/
def isOriginal (validStages : Stage → Bool) (accessIdx : List ℕ) : Bool :=
  accessIdx.all fun y => validStages (stageOf y)

/-- How far an access at stage `s` has to move to meet stage `a`, when the accesses before it have
moved it by `increase`: one more pass is added when the stage lies before it. -/
def shift (a s : ℕ) (increase : ℤ) : ℤ :=
  let delta := (a : ℤ) - s - increase
  if delta < 0 then delta + numStageEg else delta

/-- The pass that computes the new length, from position `i` on, with the stages that are left. -/
def increasePass : List α → ℕ → List ℕ → ℤ → ℤ
  | _, _, [], increase => increase
  | [], _, _, increase => increase
  | c :: code, i, a :: allocated, increase =>
      if isMem c then
        increasePass code (i + 1) allocated (increase + shift a (getMemoryStageId i) increase)
      else increasePass code (i + 1) (a :: allocated) increase

/-- How far the copying pass moves the block of the access at `y`. -/
def blockOffset (p : ℕ × ℕ) : ℤ := shift p.2 (getMemoryStageId p.1) 0

/-- Copying the `n` instructions from `start` on, last one first. -/
def copyBlock (code : List α) (offset : ℤ) (start : ℕ) : ℕ → List α → List α
  | 0, mutant => mutant
  | n + 1, mutant =>
      copyBlock code offset start n
        (mutant.set ((start + n : ℕ) + offset).toNat (code.getD (start + n) nop))

/-- The copying pass.  The accesses come with their stages, last one first, and each block ends
where the one copied before it starts; the instructions before the first access stay where they
are. -/
def copyBlocks (code : List α) : List (ℕ × ℕ) → ℕ → List α → List α
  | [], blockEnd, mutant => copyBlock nop code 0 0 blockEnd mutant
  | p :: ps, blockEnd, mutant =>
      copyBlocks code ps p.1 (copyBlock nop code (blockOffset p) p.1 (blockEnd - p.1) mutant)

/-- **`mutate_active_program`**: the mutant, unless an assertion fails. -/
def mutateActiveProgram (ap4 : ActiveProgramDef α) (validStages : Stage → Bool) :
    Option (List α) :=
  if isOriginal validStages ap4.accessIdx then some ap4.mutant
  else
    let allocated := accessIdxAllocated validStages
    if allocated.length ≠ ap4.accessIdx.length then none
    else
      let proglen := ap4.code.length + increasePass isMem ap4.code 0 allocated 0
      if proglen > maxProgramLen then none
      else some (copyBlocks nop ap4.code (ap4.accessIdx.zip allocated).reverse ap4.code.length
        (List.replicate proglen.toNat nop))

/-- The positions of the memory accesses, counted from `i`. -/
def accesses (i : ℕ) : List α → List ℕ
  | [] => []
  | c :: code => if isMem c then i :: accesses (i + 1) code else accesses (i + 1) code

/-- The second program is the first with no-ops inserted. -/
inductive NopInsertion : List α → List α → Prop
  | nil : NopInsertion [] []
  | keep (c : α) {code mutant : List α} :
      NopInsertion code mutant → NopInsertion (c :: code) (c :: mutant)
  | insert {code mutant : List α} :
      NopInsertion code mutant → NopInsertion code (nop :: mutant)

end Code

/-! ### What the copying pass leaves in each cell -/

section Copying

variable {α : Type} (nop : α) (code : List α)

/-- How far the copying pass moves the instruction at position `i`. -/
def offsetDown : List (ℕ × ℕ) → ℕ → ℤ
  | [], _ => 0
  | p :: ps, i => if p.1 ≤ i then blockOffset p else offsetDown ps i

@[simp] theorem length_copyBlock (offset : ℤ) (start n : ℕ) (mutant : List α) :
    (copyBlock nop code offset start n mutant).length = mutant.length := by
  induction n generalizing mutant with
  | zero => rfl
  | succ n ih => rw [copyBlock, ih, List.length_set]

@[simp] theorem length_copyBlocks (ps : List (ℕ × ℕ)) (blockEnd : ℕ) (mutant : List α) :
    (copyBlocks nop code ps blockEnd mutant).length = mutant.length := by
  induction ps generalizing blockEnd mutant with
  | nil => exact length_copyBlock nop code 0 0 blockEnd mutant
  | cons p ps ih => rw [copyBlocks, ih, length_copyBlock]

/-- A cell that the loop does not write. -/
theorem getElem?_copyBlock_of_ne {offset : ℤ} {start : ℕ} (hs : 0 ≤ start + offset) {p : ℕ} :
    ∀ {n : ℕ} {mutant : List α}, (∀ i < n, ((start + i : ℕ) : ℤ) + offset ≠ p) →
      (copyBlock nop code offset start n mutant)[p]? = mutant[p]? := by
  intro n
  induction n with
  | zero => intro mutant _; rfl
  | succ n ih =>
      intro mutant h
      rw [copyBlock, ih fun i hi => h i (Nat.lt_succ_of_lt hi), List.getElem?_set_ne]
      have hn := h n (Nat.lt_succ_self n)
      omega

/-- A cell that the loop writes: the cells are different for different instructions. -/
theorem getElem?_copyBlock {offset : ℤ} {start : ℕ} (hs : 0 ≤ start + offset) {p i : ℕ}
    (hp : ((start + i : ℕ) : ℤ) + offset = p) :
    ∀ {n : ℕ} {mutant : List α}, p < mutant.length → i < n →
      (copyBlock nop code offset start n mutant)[p]? = some (code.getD (start + i) nop) := by
  intro n
  induction n with
  | zero => intro mutant _ hi; omega
  | succ n ih =>
      intro mutant hlen hi
      rcases Nat.lt_succ_iff_lt_or_eq.1 hi with hi | rfl
      · rw [copyBlock, ih (by simpa using hlen) hi]
      · rw [copyBlock, getElem?_copyBlock_of_ne nop code hs fun j hj => by omega]
        have hcell : (((start + i : ℕ) : ℤ) + offset).toNat = p := by omega
        rw [hcell, List.getElem?_set_self hlen]

variable {nop code}

/-- The accesses, last one first, with non-negative cells. -/
structure Descending (ps : List (ℕ × ℕ)) (blockEnd : ℕ) : Prop where
  /-- They descend. -/
  pairwise : ps.Pairwise fun p q => q.1 < p.1
  /-- They are before the end. -/
  lt : ∀ p ∈ ps, p.1 < blockEnd
  /-- Their cells exist. -/
  nonneg : ∀ p ∈ ps, 0 ≤ p.1 + blockOffset p

theorem Descending.tail {p : ℕ × ℕ} {ps : List (ℕ × ℕ)} {blockEnd : ℕ}
    (h : Descending (p :: ps) blockEnd) : Descending ps p.1 :=
  { pairwise := (List.pairwise_cons.1 h.pairwise).2
    lt := (List.pairwise_cons.1 h.pairwise).1
    nonneg := fun q hq => h.nonneg q (List.mem_cons_of_mem p hq) }

theorem offsetDown_of_le {p : ℕ × ℕ} {ps : List (ℕ × ℕ)} {i : ℕ} (h : p.1 ≤ i) :
    offsetDown (p :: ps) i = blockOffset p := if_pos h

theorem offsetDown_of_lt {p : ℕ × ℕ} {ps : List (ℕ × ℕ)} {i : ℕ} (h : i < p.1) :
    offsetDown (p :: ps) i = offsetDown ps i := if_neg (Nat.not_le.2 h)

/-- **A cell that no instruction is moved to.** -/
theorem getElem?_copyBlocks_of_ne {ps : List (ℕ × ℕ)} {blockEnd p : ℕ} {mutant : List α}
    (h : Descending ps blockEnd) (hp : ∀ i < blockEnd, (i : ℤ) + offsetDown ps i ≠ p) :
    (copyBlocks nop code ps blockEnd mutant)[p]? = mutant[p]? := by
  induction ps generalizing blockEnd mutant with
  | nil =>
      refine getElem?_copyBlock_of_ne nop code (by omega) fun i hi => ?_
      have := hp i hi
      simpa [offsetDown] using this
  | cons q ps ih =>
      have hq := h.lt q List.mem_cons_self
      have hrest : ∀ i < q.1, (i : ℤ) + offsetDown ps i ≠ p := fun i hi => by
        rw [← offsetDown_of_lt hi]
        exact hp i (hi.trans hq)
      rw [copyBlocks, ih h.tail hrest]
      refine getElem?_copyBlock_of_ne nop code (h.nonneg q List.mem_cons_self) fun i hi => ?_
      rw [← offsetDown_of_le (Nat.le_add_right q.1 i)]
      exact hp _ (by omega)

/-- **A cell that instructions are moved to**: the first of them is the one that stays. -/
theorem getElem?_copyBlocks {ps : List (ℕ × ℕ)} {blockEnd p i : ℕ} {mutant : List α}
    (h : Descending ps blockEnd) (hlen : p < mutant.length) (hi : i < blockEnd)
    (hp : (i : ℤ) + offsetDown ps i = p) (hmin : ∀ j < i, (j : ℤ) + offsetDown ps j ≠ p) :
    (copyBlocks nop code ps blockEnd mutant)[p]? = some (code.getD i nop) := by
  induction ps generalizing blockEnd mutant with
  | nil =>
      have hcell : ((0 + i : ℕ) : ℤ) + 0 = p := by simpa [offsetDown] using hp
      rw [copyBlocks, getElem?_copyBlock nop code le_rfl hcell hlen hi, Nat.zero_add]
  | cons q ps ih =>
      have hq := h.nonneg q List.mem_cons_self
      rcases Nat.lt_or_ge i q.1 with hlt | hge
      · -- the block of a later access is written before
        have hp' : (i : ℤ) + offsetDown ps i = p := by rwa [offsetDown_of_lt hlt] at hp
        refine ih h.tail (by simpa using hlen) hlt hp' fun j hj => ?_
        rw [← offsetDown_of_lt (hj.trans hlt)]
        exact hmin j hj
      · obtain ⟨k, rfl⟩ := Nat.exists_eq_add_of_le hge
        rw [offsetDown_of_le hge] at hp
        have hrest : ∀ j < q.1, (j : ℤ) + offsetDown ps j ≠ p := fun j hj => by
          rw [← offsetDown_of_lt hj]
          exact hmin j (by omega)
        rw [copyBlocks, getElem?_copyBlocks_of_ne h.tail hrest]
        exact getElem?_copyBlock nop code hq hp hlen (by omega)

end Copying

/-! ### Placements -/

section Placements

variable {α : Type} {isMem : α → Bool} {nop : α} {code mutant : List α}

/-- `dst` places the instructions of a program in order into cells of another; all other cells are
no-ops. -/
structure Places (nop : α) (code mutant : List α) (dst : ℕ → ℕ) : Prop where
  /-- In order. -/
  mono : ∀ i j, i < j → j < code.length → dst i < dst j
  /-- Each instruction has a cell. -/
  lt : ∀ i < code.length, dst i < mutant.length
  /-- Its cell holds it. -/
  copy : ∀ i < code.length, mutant[dst i]? = code[i]?
  /-- The other cells are no-ops. -/
  other : ∀ p < mutant.length, (∀ i < code.length, dst i ≠ p) → mutant[p]? = some nop

/-- **A placement in order is an insertion of no-ops.** -/
theorem Places.nopInsertion {dst : ℕ → ℕ} (h : Places nop code mutant dst) :
    NopInsertion nop code mutant := by
  induction mutant generalizing code dst with
  | nil =>
      cases code with
      | nil => exact .nil
      | cons d code => exact absurd (h.lt 0 (Nat.succ_pos _)) (Nat.not_lt_zero _)
  | cons c mutant ih =>
      have hpred : ∀ p < mutant.length, (∀ i < code.length, dst i ≠ p + 1) →
          mutant[p]? = some nop := fun p hp hne => by
        simpa using h.other (p + 1) (Nat.succ_lt_succ hp) hne
      by_cases hzero : 0 < code.length ∧ dst 0 = 0
      · -- the first instruction is in the first cell
        obtain ⟨hpos, hzero⟩ := hzero
        cases code with
        | nil => exact absurd hpos (Nat.not_lt_zero _)
        | cons d code =>
            have hd : c = d := by
              have hc := h.copy 0 hpos
              rw [hzero] at hc
              simpa using hc
            have hpos' : ∀ i < code.length, 0 < dst (i + 1) := fun i hi => by
              have := h.mono 0 (i + 1) (Nat.succ_pos i) (Nat.succ_lt_succ hi)
              omega
            have hplaces : Places nop code mutant fun i => dst (i + 1) - 1 :=
              { mono := fun i j hij hj => by
                  have h₁ := h.mono (i + 1) (j + 1) (Nat.succ_lt_succ hij) (Nat.succ_lt_succ hj)
                  have h₂ := hpos' i (hij.trans hj)
                  omega
                lt := fun i hi => by
                  have h₁ := h.lt (i + 1) (Nat.succ_lt_succ hi)
                  have h₂ := hpos' i hi
                  rw [List.length_cons] at h₁
                  omega
                copy := fun i hi => by
                  have h₁ := h.copy (i + 1) (Nat.succ_lt_succ hi)
                  obtain ⟨k, hk⟩ := Nat.exists_eq_add_of_lt (hpos' i hi)
                  rw [hk] at h₁ ⊢
                  simpa using h₁
                other := fun p hp hne => by
                  refine hpred p hp fun i hi heq => ?_
                  cases i with
                  | zero => omega
                  | succ i => exact hne i (Nat.lt_of_succ_lt_succ hi) (by omega) }
            rw [hd]
            exact .keep d (ih hplaces)
      · -- no instruction is in the first cell
        have hpos : ∀ i < code.length, 0 < dst i := fun i hi => by
          cases i with
          | zero => exact Nat.pos_of_ne_zero fun h0 => hzero ⟨hi, h0⟩
          | succ i => exact (Nat.zero_le _).trans_lt (h.mono i (i + 1) (Nat.lt_succ_self i) hi)
        have hc : c = nop := by
          simpa using h.other 0 (Nat.succ_pos _) fun i hi => (hpos i hi).ne'
        have hplaces : Places nop code mutant fun i => dst i - 1 :=
          { mono := fun i j hij hj => by
              have h₁ := h.mono i j hij hj
              have h₂ := hpos i (hij.trans hj)
              omega
            lt := fun i hi => by
              have h₁ := h.lt i hi
              have h₂ := hpos i hi
              rw [List.length_cons] at h₁
              omega
            copy := fun i hi => by
              have h₁ := h.copy i hi
              obtain ⟨k, hk⟩ := Nat.exists_eq_add_of_lt (hpos i hi)
              rw [hk] at h₁ ⊢
              simpa using h₁
            other := fun p hp hne => by
              refine hpred p hp fun i hi heq => hne i hi ?_
              omega }
        rw [hc]
        exact .insert (ih hplaces)

theorem mem_accesses {i p : ℕ} {code : List α} :
    p ∈ accesses isMem i code ↔ i ≤ p ∧ ∃ c, code[p - i]? = some c ∧ isMem c = true := by
  induction code generalizing i with
  | nil => simp [accesses]
  | cons c code ih =>
      have hstep : p ∈ accesses isMem (i + 1) code ↔
          i < p ∧ ∃ d, (c :: code)[p - i]? = some d ∧ isMem d = true := by
        rw [ih]
        refine and_congr_right fun hp => ?_
        have hk : p - i = p - (i + 1) + 1 := by omega
        rw [hk, List.getElem?_cons_succ]
      rw [accesses]
      split_ifs with hc
      · rw [List.mem_cons, hstep]
        constructor
        · intro h
          rcases h with rfl | ⟨hlt, h⟩
          · exact ⟨le_rfl, c, by simp, hc⟩
          · exact ⟨hlt.le, h⟩
        · intro ⟨hle, h⟩
          rcases hle.eq_or_lt with rfl | hlt
          · exact .inl rfl
          · exact .inr ⟨hlt, h⟩
      · rw [hstep]
        refine ⟨fun ⟨hlt, h⟩ => ⟨hlt.le, h⟩, fun ⟨hle, d, hd, hm⟩ => ⟨?_, d, hd, hm⟩⟩
        refine lt_of_le_of_ne hle fun heq => ?_
        subst heq
        simp only [Nat.sub_self, List.getElem?_cons_zero, Option.some.injEq] at hd
        exact hc (hd ▸ hm)

/-- The accesses are listed in order. -/
theorem pairwise_accesses (i : ℕ) (code : List α) : (accesses isMem i code).Pairwise (· < ·) := by
  induction code generalizing i with
  | nil => exact List.Pairwise.nil
  | cons c code ih =>
      rw [accesses]
      split_ifs with hc
      · exact List.pairwise_cons.2 ⟨fun p hp => (mem_accesses.1 hp).1, ih (i + 1)⟩
      · exact ih (i + 1)

theorem lt_of_mem_accesses {p : ℕ} (h : p ∈ accesses isMem 0 code) : p < code.length := by
  obtain ⟨_, c, hc, _⟩ := mem_accesses.1 h
  exact (List.getElem?_eq_some_iff.1 hc).1

/-- **The accesses move with their instructions.** -/
theorem Places.accesses_eq {dst : ℕ → ℕ} (h : Places nop code mutant dst)
    (hnop : isMem nop = false) : accesses isMem 0 mutant = (accesses isMem 0 code).map dst := by
  refine (pairwise_accesses 0 mutant).eq_of_mem_iff ?_ fun p => ?_
  · refine List.pairwise_map.2 ((pairwise_accesses 0 code).imp_of_mem fun _ hj hij => ?_)
    exact h.mono _ _ hij (lt_of_mem_accesses hj)
  · rw [mem_accesses, List.mem_map]
    constructor
    · intro ⟨_, c, hc, hm⟩
      have hp : p < mutant.length := (List.getElem?_eq_some_iff.1 hc).1
      by_cases hdst : ∃ i < code.length, dst i = p
      · obtain ⟨i, hi, rfl⟩ := hdst
        refine ⟨i, mem_accesses.2 ⟨Nat.zero_le i, c, ?_, hm⟩, rfl⟩
        rw [Nat.sub_zero, ← h.copy i hi]
        exact hc
      · have hother := h.other p hp fun i hi heq => hdst ⟨i, hi, heq⟩
        rw [Nat.sub_zero, hother, Option.some.injEq] at hc
        rw [← hc, hnop] at hm
        exact absurd hm Bool.false_ne_true
    · intro ⟨i, hi, hp⟩
      subst hp
      have hlt := lt_of_mem_accesses hi
      obtain ⟨_, c, hc, hm⟩ := mem_accesses.1 hi
      refine ⟨Nat.zero_le _, c, ?_, hm⟩
      rw [Nat.sub_zero, h.copy i hlt]
      exact hc

end Placements

/-! ### Aligned stages -/

section Aligned

variable {α : Type} {isMem : α → Bool} {nop : α}

/-- The stages suit the accesses: the blocks are moved further and further, and no ingress stage
lies before its access. -/
structure Aligned (accessIdx allocated : List ℕ) : Prop where
  /-- The offsets ascend. -/
  ascending : (accessIdx.zip allocated).Pairwise fun p q => blockOffset p ≤ blockOffset q
  /-- An ingress stage is met in the only pass that goes through it. -/
  ingress : ∀ p ∈ accessIdx.zip allocated, p.2 < numStageIg → p.1 ≤ p.2

instance (accessIdx allocated : List ℕ) : Decidable (Aligned accessIdx allocated) :=
  decidable_of_iff (_ ∧ _) ⟨fun h => ⟨h.1, h.2⟩, fun h => ⟨h.ascending, h.ingress⟩⟩

theorem getMemoryStageId_of_lt {y : ℕ} (h : y < 20) : getMemoryStageId y = y := if_pos h

theorem getMemoryStageId_of_ge {y : ℕ} (h : 20 ≤ y) :
    getMemoryStageId y = (y - 10) % 10 + 10 := if_neg (Nat.not_lt.2 h)

/-- The client and the allocator agree on the stage of a position. -/
theorem getMemoryStageId_eq (y : ℕ) : getMemoryStageId y = stageOf y := by
  unfold stageOf getMemoryStageId numStageIg numStageEg
  split_ifs
  · rfl
  · dsimp only
    omega
  · omega
  · dsimp only
    omega

theorem getMemoryStageId_lt (y : ℕ) : getMemoryStageId y < 20 := by
  rw [getMemoryStageId_eq]
  exact (stageOf y).isLt

theorem getMemoryStageId_le (y : ℕ) : getMemoryStageId y ≤ y := by
  rcases Nat.lt_or_ge y 20 with h | h
  · rw [getMemoryStageId_of_lt h]
  · rw [getMemoryStageId_of_ge h]
    omega

theorem blockOffset_eq (y a : ℕ) :
    blockOffset (y, a) = if a < getMemoryStageId y then (a : ℤ) - getMemoryStageId y + 10
      else (a : ℤ) - getMemoryStageId y := by
  unfold blockOffset shift numStageEg
  dsimp only
  split_ifs <;> omega

/-- Every access has a cell. -/
theorem add_blockOffset_nonneg (p : ℕ × ℕ) : 0 ≤ (p.1 : ℤ) + blockOffset p := by
  obtain ⟨y, a⟩ := p
  have h₁ := getMemoryStageId_le y
  rw [blockOffset_eq]
  split_ifs <;> dsimp only <;> omega

theorem Aligned.nonneg {accessIdx allocated : List ℕ} (h : Aligned accessIdx allocated)
    {p : ℕ × ℕ} (hp : p ∈ accessIdx.zip allocated) : 0 ≤ blockOffset p := by
  obtain ⟨y, a⟩ := p
  have hin := h.ingress _ hp
  have h₁ := getMemoryStageId_lt y
  have h₂ := getMemoryStageId_le y
  unfold numStageIg at hin
  dsimp only at hin
  rw [blockOffset_eq]
  split_ifs <;> omega

/-- **Where an access lands**: on the stage that it is given, unless that is an ingress stage which
lies before it. -/
theorem getMemoryStageId_moved {y a : ℕ} (ha : a < 20) :
    getMemoryStageId (y + blockOffset (y, a)).toNat =
      if a < 10 ∧ a < y then a + 10 else a := by
  rw [blockOffset_eq]
  rcases Nat.lt_or_ge y 20 with hy | hy
  · rw [getMemoryStageId_of_lt hy]
    split_ifs with h₁ h₂ h₂
    · rw [show ((y : ℤ) + ((a : ℤ) - y + 10)).toNat = a + 10 by omega,
        getMemoryStageId_of_lt (by omega)]
    · rw [show ((y : ℤ) + ((a : ℤ) - y + 10)).toNat = a + 10 by omega,
        getMemoryStageId_of_ge (by omega)]
      omega
    · omega
    · rw [show ((y : ℤ) + ((a : ℤ) - y)).toNat = a by omega, getMemoryStageId_of_lt ha]
  · rw [getMemoryStageId_of_ge hy]
    split_ifs with h₁ h₂ h₂ <;>
      first
        | omega
        | (rw [getMemoryStageId_of_ge (by omega)]
           omega)

theorem offsetDown_le {ps : List (ℕ × ℕ)} {b : ℤ} (hb : 0 ≤ b) (h : ∀ p ∈ ps, blockOffset p ≤ b)
    (i : ℕ) : offsetDown ps i ≤ b := by
  induction ps with
  | nil => exact hb
  | cons p ps ih =>
      rw [offsetDown]
      split_ifs
      · exact h p List.mem_cons_self
      · exact ih fun q hq => h q (List.mem_cons_of_mem p hq)

/-- Ascending offsets move later instructions at least as far. -/
theorem offsetDown_mono {ps : List (ℕ × ℕ)}
    (h : ps.Pairwise fun p q => blockOffset q ≤ blockOffset p) (h0 : ∀ p ∈ ps, 0 ≤ blockOffset p)
    {i j : ℕ} (hij : i ≤ j) : offsetDown ps i ≤ offsetDown ps j := by
  induction ps with
  | nil => exact le_rfl
  | cons p ps ih =>
      have hp := List.pairwise_cons.1 h
      rcases Nat.lt_or_ge j p.1 with hj | hj
      · rw [offsetDown_of_lt hj, offsetDown_of_lt (hij.trans_lt hj)]
        exact ih hp.2 fun q hq => h0 q (List.mem_cons_of_mem p hq)
      · rw [offsetDown_of_le hj]
        exact offsetDown_le (h0 p List.mem_cons_self) (List.forall_mem_cons.2 ⟨le_rfl, hp.1⟩) i

theorem offsetDown_nonneg {ps : List (ℕ × ℕ)} (h0 : ∀ p ∈ ps, 0 ≤ blockOffset p) (i : ℕ) :
    0 ≤ offsetDown ps i := by
  induction ps with
  | nil => exact le_rfl
  | cons p ps ih =>
      rw [offsetDown]
      split_ifs
      · exact h0 p List.mem_cons_self
      · exact ih fun q hq => h0 q (List.mem_cons_of_mem p hq)

/-- The length pass sees the accesses only. -/
theorem increasePass_eq (code : List α) (i : ℕ) (allocated : List ℕ) (increase : ℤ) :
    increasePass isMem code i allocated increase =
      ((accesses isMem i code).zip allocated).foldl
        (fun d p => d + shift p.2 (getMemoryStageId p.1) d) increase := by
  induction code generalizing i allocated increase with
  | nil => cases allocated <;> simp [increasePass, accesses]
  | cons c code ih =>
      cases allocated with
      | nil => simp [increasePass]
      | cons a allocated =>
          rw [increasePass, accesses]
          split_ifs with hc
          · rw [ih, List.zip_cons_cons, List.foldl_cons]
          · exact ih (i + 1) (a :: allocated) increase

/-- **The length pass agrees with the copying pass** when the offsets ascend: the program grows by
the last offset. -/
theorem foldl_shift_eq {ps : List (ℕ × ℕ)}
    (h : ps.Pairwise fun p q => blockOffset p ≤ blockOffset q) {d : ℤ} (hd : 0 ≤ d)
    (hle : ∀ p ∈ ps, d ≤ blockOffset p) :
    ps.foldl (fun d p => d + shift p.2 (getMemoryStageId p.1) d) d =
      (ps.map blockOffset).getLastD d := by
  induction ps generalizing d with
  | nil => rfl
  | cons p ps ih =>
      have hp := List.pairwise_cons.1 h
      have hpd := hle p List.mem_cons_self
      have hstep : d + shift p.2 (getMemoryStageId p.1) d = blockOffset p := by
        unfold blockOffset shift numStageEg at *
        dsimp only at *
        split_ifs at * <;> omega
      rw [List.foldl_cons, hstep, ih hp.2 (hd.trans hpd) hp.1, List.map_cons, List.getLastD_cons]

theorem le_getLastD {ps : List (ℕ × ℕ)}
    (h : ps.Pairwise fun p q => blockOffset p ≤ blockOffset q) {d : ℤ} {p : ℕ × ℕ} (hp : p ∈ ps) :
    blockOffset p ≤ (ps.map blockOffset).getLastD d := by
  induction ps generalizing d p with
  | nil => exact absurd hp List.not_mem_nil
  | cons q ps ih =>
      have hq := List.pairwise_cons.1 h
      rw [List.map_cons, List.getLastD_cons]
      rcases List.mem_cons.1 hp with rfl | hp
      · cases ps with
        | nil => exact le_rfl
        | cons r ps => exact (hq.1 r List.mem_cons_self).trans (ih hq.2 List.mem_cons_self)
      · exact ih hq.2 hp

/-- The accesses of a program with their stages, last one first. -/
theorem descending_accesses {code : List α} {allocated : List ℕ}
    (hlen : allocated.length = (accesses isMem 0 code).length) :
    Descending ((accesses isMem 0 code).zip allocated).reverse code.length := by
  refine ⟨?_, fun p hp => ?_, fun p _ => add_blockOffset_nonneg p⟩
  · rw [List.pairwise_reverse]
    refine List.pairwise_map.1 ?_
    rw [List.map_fst_zip hlen.ge]
    exact pairwise_accesses 0 code
  · have hmem := List.of_mem_zip (a := p.1) (b := p.2) (List.mem_reverse.1 hp)
    exact lt_of_mem_accesses hmem.1

theorem Aligned.reverse {accessIdx allocated : List ℕ} (h : Aligned accessIdx allocated) :
    (accessIdx.zip allocated).reverse.Pairwise fun p q => blockOffset q ≤ blockOffset p :=
  List.pairwise_reverse.2 h.ascending

/-- Where the copying pass puts the instruction at position `i`. -/
def cellOf (accessIdx allocated : List ℕ) (i : ℕ) : ℕ :=
  (i + offsetDown (accessIdx.zip allocated).reverse i).toNat

theorem Aligned.cellOf_lt {accessIdx allocated : List ℕ} (h : Aligned accessIdx allocated)
    {i j : ℕ} (hij : i < j) : cellOf accessIdx allocated i < cellOf accessIdx allocated j := by
  have hpos : ∀ p ∈ (accessIdx.zip allocated).reverse, 0 ≤ blockOffset p :=
    fun p hp => h.nonneg (List.mem_reverse.1 hp)
  have hmono := offsetDown_mono h.reverse hpos hij.le
  have hnonneg := offsetDown_nonneg hpos i
  unfold cellOf
  omega

theorem Aligned.cast_cellOf {accessIdx allocated : List ℕ} (h : Aligned accessIdx allocated)
    (i : ℕ) : (i : ℤ) + offsetDown (accessIdx.zip allocated).reverse i =
      cellOf accessIdx allocated i := by
  have hnonneg := offsetDown_nonneg (fun p hp => h.nonneg (List.mem_reverse.1 hp)) i
  unfold cellOf
  omega

/-- The copying pass places the instructions where the offsets say. -/
theorem Aligned.places {code : List α} {allocated : List ℕ} {len : ℕ}
    (h : Aligned (accesses isMem 0 code) allocated)
    (hlen : allocated.length = (accesses isMem 0 code).length)
    (hfit : ∀ i < code.length, cellOf (accesses isMem 0 code) allocated i < len) :
    Places nop code
      (copyBlocks nop code ((accesses isMem 0 code).zip allocated).reverse code.length
        (List.replicate len nop))
      (cellOf (accesses isMem 0 code) allocated) := by
  have hdesc := descending_accesses hlen
  refine ⟨fun i j hij _ => h.cellOf_lt hij, fun i hi => by simpa using hfit i hi,
    fun i hi => ?_, fun p hp hne => ?_⟩
  · rw [getElem?_copyBlocks hdesc (by simpa using hfit i hi) hi (h.cast_cellOf i),
      List.getD_eq_getElem?_getD, List.getElem?_eq_getElem hi, Option.getD_some]
    intro j hj heq
    have hlt := h.cellOf_lt hj
    rw [h.cast_cellOf j] at heq
    omega
  · rw [getElem?_copyBlocks_of_ne hdesc fun i hi heq => hne i hi ?_]
    · rw [List.getElem?_replicate, if_pos (by simpa using hp)]
    · rw [h.cast_cellOf i] at heq
      exact_mod_cast heq

theorem cellOf_access {accessIdx allocated : List ℕ} (hs : accessIdx.Pairwise (· < ·))
    (hlen : allocated.length = accessIdx.length) {p : ℕ × ℕ} (hp : p ∈ accessIdx.zip allocated) :
    cellOf accessIdx allocated p.1 = (p.1 + blockOffset p).toNat := by
  have hdesc : (accessIdx.zip allocated).reverse.Pairwise fun p q => q.1 < p.1 := by
    refine List.pairwise_reverse.2 (List.pairwise_map.1 ?_)
    rwa [List.map_fst_zip hlen.ge]
  have key : ∀ {ps : List (ℕ × ℕ)}, ps.Pairwise (fun p q => q.1 < p.1) → p ∈ ps →
      offsetDown ps p.1 = blockOffset p := by
    intro ps hps hmem
    induction ps with
    | nil => exact absurd hmem List.not_mem_nil
    | cons q ps ih =>
        have hq := List.pairwise_cons.1 hps
        rcases List.mem_cons.1 hmem with rfl | hmem
        · exact offsetDown_of_le le_rfl
        · rw [offsetDown_of_lt (hq.1 p hmem)]
          exact ih hq.2 hmem
  rw [cellOf, key hdesc (List.mem_reverse.2 hp)]

/-- The accesses go to the cells of their blocks. -/
theorem map_cellOf {accessIdx allocated : List ℕ} (hs : accessIdx.Pairwise (· < ·))
    (hlen : allocated.length = accessIdx.length) :
    accessIdx.map (cellOf accessIdx allocated) =
      (accessIdx.zip allocated).map fun p => (p.1 + blockOffset p).toNat := by
  calc accessIdx.map (cellOf accessIdx allocated)
      = ((accessIdx.zip allocated).map Prod.fst).map (cellOf accessIdx allocated) := by
        rw [List.map_fst_zip hlen.ge]
    _ = (accessIdx.zip allocated).map fun p => (p.1 + blockOffset p).toNat := by
        rw [List.map_map]
        exact List.map_congr_left fun p hp => cellOf_access hs hlen hp

/-- What the length pass adds. -/
def growth (accessIdx allocated : List ℕ) : ℤ :=
  ((accessIdx.zip allocated).map blockOffset).getLastD 0

theorem Aligned.growth_nonneg {accessIdx allocated : List ℕ} (h : Aligned accessIdx allocated) :
    0 ≤ growth accessIdx allocated := by
  unfold growth
  cases hz : accessIdx.zip allocated with
  | nil => exact le_rfl
  | cons p ps =>
      have hp : p ∈ accessIdx.zip allocated := hz ▸ List.mem_cons_self
      exact hz ▸ (h.nonneg hp).trans (le_getLastD h.ascending hp)

theorem mutateActiveProgram_eq_some_iff {ap4 : ActiveProgramDef α} {validStages : Stage → Bool}
    (horig : isOriginal validStages ap4.accessIdx = false) {mutant : List α} :
    mutateActiveProgram isMem nop ap4 validStages = some mutant ↔
      (accessIdxAllocated validStages).length = ap4.accessIdx.length ∧
        ap4.code.length + increasePass isMem ap4.code 0 (accessIdxAllocated validStages) 0 ≤
          maxProgramLen ∧
        copyBlocks nop ap4.code
          (ap4.accessIdx.zip (accessIdxAllocated validStages)).reverse ap4.code.length
          (List.replicate (ap4.code.length +
            increasePass isMem ap4.code 0 (accessIdxAllocated validStages) 0).toNat nop) = mutant := by
  rw [mutateActiveProgram, if_neg (by simp [horig])]
  dsimp only
  split_ifs with hlen hfit
  · simp [hlen]
  · simp [hfit]
  · simp [not_not.1 hlen, not_lt.1 hfit]

/-- **Aligned stages move every block as a whole and in order**, and the length pass makes room for
exactly these blocks. -/
theorem mutateActiveProgram_aligned {ap4 : ActiveProgramDef α} {validStages : Stage → Bool}
    (hacc : ap4.accessIdx = accesses isMem 0 ap4.code)
    (horig : isOriginal validStages ap4.accessIdx = false)
    (hlen : (accessIdxAllocated validStages).length = ap4.accessIdx.length)
    (h : Aligned ap4.accessIdx (accessIdxAllocated validStages))
    (hfit : ap4.code.length + growth ap4.accessIdx (accessIdxAllocated validStages) ≤ maxProgramLen) :
    ∃ mutant, mutateActiveProgram isMem nop ap4 validStages = some mutant ∧
      Places nop ap4.code mutant (cellOf ap4.accessIdx (accessIdxAllocated validStages)) ∧
      (mutant.length : ℤ) =
        ap4.code.length + growth ap4.accessIdx (accessIdxAllocated validStages) := by
  set allocated := accessIdxAllocated validStages with hallocated
  have hinc : increasePass isMem ap4.code 0 allocated 0 = growth ap4.accessIdx allocated := by
    rw [increasePass_eq, ← hacc]
    exact foldl_shift_eq h.ascending le_rfl fun p hp => h.nonneg hp
  have hnonneg := h.growth_nonneg
  refine ⟨_, (mutateActiveProgram_eq_some_iff horig).2 ⟨hlen, hinc.symm ▸ hfit, rfl⟩, ?_, ?_⟩
  · rw [hinc]
    rw [hacc] at h hlen hnonneg ⊢
    refine h.places hlen fun i hi => ?_
    have hle : offsetDown ((accesses isMem 0 ap4.code).zip allocated).reverse i ≤
        growth (accesses isMem 0 ap4.code) allocated :=
      offsetDown_le hnonneg
        (fun p hp => le_getLastD h.ascending (List.mem_reverse.1 hp)) i
    unfold cellOf
    omega
  · rw [length_copyBlocks, List.length_replicate, hinc]
    omega

end Aligned

/-! ### Programs that need no further pass -/

/-- The no-op that the mutation inserts. -/
def ActiveInstr.nop : ActiveInstr := ⟨0, 1⟩

theorem ActiveInstr.isMemaccess_nop : ActiveInstr.nop.isMemaccess = false := by decide +kernel

/-- The stages of an increasing vector, as the client finds them. -/
theorem accessIdxAllocated_mem {x : List ℕ} (hx : x.Pairwise (· < ·)) (hlow : ∀ s ∈ x, s < 20) :
    accessIdxAllocated (fun s => decide (s.val ∈ x)) = x := by
  refine List.Pairwise.eq_of_mem_iff ?_ hx fun s => ?_
  · refine List.pairwise_map.2 (List.Pairwise.filter _ ?_)
    exact (List.pairwise_lt_finRange 20).imp fun h => h
  · unfold accessIdxAllocated
    simp only [List.mem_map, List.mem_filter, List.mem_finRange, true_and, decide_eq_true_eq]
    constructor
    · intro ⟨t, ht, hts⟩
      exact hts ▸ ht
    · intro hs
      exact ⟨⟨s, hlow s hs⟩, hs, rfl⟩

/-- An increasing vector that has all members of another one of its length is that vector. -/
theorem eq_of_subset_of_pairwise {x y : List ℕ} (hx : x.Pairwise (· < ·))
    (hy : y.Pairwise (· < ·)) (hlen : x.length = y.length) (hsub : y ⊆ x) : y = x := by
  have hnx : x.Nodup := hx.imp fun h => h.ne
  have hny : y.Nodup := hy.imp fun h => h.ne
  refine hy.eq_of_mem_iff hx fun a => ⟨fun ha => hsub ha, fun ha => ?_⟩
  have hperm : y.Perm x := (List.subperm_of_subset hny hsub).perm_of_length_le hlen.le
  exact hperm.mem_iff.2 ha

theorem blockOffset_of_le {y a : ℕ} (hy : y < 20) (h : y ≤ a) : blockOffset (y, a) = (a : ℤ) - y := by
  rw [blockOffset_eq, getMemoryStageId_of_lt hy, if_neg (Nat.not_lt.2 h)]

theorem getLastD_blockOffset {accessIdx x : List ℕ} (hlen : x.length = accessIdx.length)
    (h : ∀ p ∈ accessIdx.zip x, p.1 < 20 ∧ p.1 ≤ p.2) {d : ℤ} {a y : ℕ} (hd : d = (a : ℤ) - y) :
    ((accessIdx.zip x).map blockOffset).getLastD d = (x.getLastD a : ℤ) - accessIdx.getLastD y := by
  induction x generalizing accessIdx d a y with
  | nil =>
      obtain rfl := List.eq_nil_of_length_eq_zero hlen.symm
      exact hd
  | cons b x ih =>
      cases accessIdx with
      | nil => exact absurd hlen (Nat.succ_ne_zero _)
      | cons z accessIdx =>
          obtain ⟨hz, hzb⟩ := h (z, b) List.mem_cons_self
          rw [List.zip_cons_cons, List.map_cons, List.getLastD_cons, List.getLastD_cons,
            List.getLastD_cons]
          exact ih (Nat.succ.inj hlen) (fun p hp => h p (List.mem_cons_of_mem _ hp))
            (blockOffset_of_le hz hzb)

theorem NopInsertion.refl {α : Type} (nop : α) (code : List α) : NopInsertion nop code code := by
  induction code with
  | nil => exact .nil
  | cons c code ih => exact .keep c ih

/-- Later stages that keep the distances of the accesses are aligned with them. -/
theorem aligned_of_gaps {accessIdx x : List ℕ} (hlow : ∀ y ∈ accessIdx, y < 20)
    (hlen : x.length = accessIdx.length)
    (hge : ∀ k < x.length, accessIdx.getD k 0 ≤ x.getD k 0)
    (hgap : ∀ k, k + 1 < x.length →
      accessIdx.getD (k + 1) 0 - accessIdx.getD k 0 ≤ x.getD (k + 1) 0 - x.getD k 0)
    (hs : accessIdx.Pairwise (· < ·)) (hx : x.Pairwise (· < ·)) :
    (∀ p ∈ accessIdx.zip x, p.1 < 20 ∧ p.1 ≤ p.2) ∧ Aligned accessIdx x := by
  have hmem : ∀ p ∈ accessIdx.zip x, p.1 < 20 ∧ p.1 ≤ p.2 := by
    intro p hp
    obtain ⟨k, hk, rfl⟩ := List.mem_iff_getElem.1 hp
    rw [List.length_zip] at hk
    have hk' := hge k (by omega)
    rw [List.getD_eq_getElem _ 0 (by omega), List.getD_eq_getElem _ 0 (by omega)] at hk'
    rw [List.getElem_zip]
    exact ⟨hlow _ (List.getElem_mem _), hk'⟩
  refine ⟨hmem, ?_, fun p hp _ => (hmem p hp).2⟩
  refine List.pairwise_map.1 (List.isChain_iff_pairwise.1 (List.isChain_iff_getElem.2 ?_))
  intro k hk
  rw [List.length_map, List.length_zip] at hk
  have hk₀ : k + 1 < x.length := by omega
  have hk₁ : k + 1 < accessIdx.length := by omega
  have hstep := hgap k hk₀
  have h₀ := hge k (by omega)
  have h₁ := hge (k + 1) hk₀
  have hacc := List.pairwise_iff_getElem.1 hs k (k + 1) (by omega) hk₁ (Nat.lt_succ_self k)
  have hxs := List.pairwise_iff_getElem.1 hx k (k + 1) (by omega) hk₀ (Nat.lt_succ_self k)
  simp only [List.getD_eq_getElem _ 0 hk₀, List.getD_eq_getElem _ 0 hk₁,
    List.getD_eq_getElem x 0 (show k < x.length by omega),
    List.getD_eq_getElem accessIdx 0 (show k < accessIdx.length by omega)] at hstep h₀ h₁
  simp only [List.getElem_map, List.getElem_zip]
  rw [blockOffset_of_le (hlow _ (List.getElem_mem _)) h₀,
    blockOffset_of_le (hlow _ (List.getElem_mem _)) h₁]
  omega

/-- **Mutation within one pass.**  The accesses of a program move to any later stages that keep
their distances: the mutant is the program with no-ops inserted, its accesses are at these stages,
and it is longer by as much as the last access has moved. -/
theorem single_pass_mutation {ap4 : ActiveProgramDef ActiveInstr} {x : List ℕ}
    (hacc : ap4.accessIdx = accesses ActiveInstr.isMemaccess 0 ap4.code)
    (hlow : ∀ y ∈ ap4.accessIdx, y < 20) (hmutant : ap4.mutant = ap4.code)
    (hx : x.Pairwise (· < ·)) (hxlow : ∀ s ∈ x, s < 20) (hlen : x.length = ap4.accessIdx.length)
    (hge : ∀ k < x.length, ap4.accessIdx.getD k 0 ≤ x.getD k 0)
    (hgap : ∀ k, k + 1 < x.length →
      ap4.accessIdx.getD (k + 1) 0 - ap4.accessIdx.getD k 0 ≤ x.getD (k + 1) 0 - x.getD k 0)
    (hfit : ap4.code.length + (x.getLastD 0 - ap4.accessIdx.getLastD 0) ≤ maxProgramLen) :
    ∃ mutant, mutateActiveProgram ActiveInstr.isMemaccess .nop ap4 (fun s => decide (s.val ∈ x)) =
        some mutant ∧
      NopInsertion .nop ap4.code mutant ∧ accesses ActiveInstr.isMemaccess 0 mutant = x ∧
      mutant.length = ap4.code.length + (x.getLastD 0 - ap4.accessIdx.getLastD 0) := by
  have hs : ap4.accessIdx.Pairwise (· < ·) := hacc ▸ pairwise_accesses 0 ap4.code
  have hallocated := accessIdxAllocated_mem hx hxlow
  obtain ⟨hmem, haligned⟩ := aligned_of_gaps hlow hlen hge hgap hs hx
  have hgrowth : growth ap4.accessIdx x = (x.getLastD 0 : ℤ) - ap4.accessIdx.getLastD 0 :=
    getLastD_blockOffset hlen hmem (by simp)
  cases horig : isOriginal (fun s => decide (s.val ∈ x)) ap4.accessIdx with
  | true =>
      -- the accesses are where they should be
      have hsub : ap4.accessIdx ⊆ x := by
        intro y hy
        have hy' := List.all_eq_true.1 horig y hy
        rwa [decide_eq_true_eq, ← getMemoryStageId_eq, getMemoryStageId_of_lt (hlow y hy)] at hy'
      have heq : ap4.accessIdx = x := eq_of_subset_of_pairwise hx hs hlen hsub
      refine ⟨ap4.code, ?_, .refl _ _, hacc ▸ heq, by rw [heq, Nat.sub_self, Nat.add_zero]⟩
      rw [mutateActiveProgram, if_pos horig, hmutant]
  | false =>
      have hlast₀ : ap4.accessIdx.getLastD 0 ≤ x.getLastD 0 := by
        have hnonneg := haligned.growth_nonneg
        omega
      obtain ⟨mutant, hmut, hplaces, hlength⟩ := @mutateActiveProgram_aligned _ _ ActiveInstr.nop _ _
        hacc horig (hallocated.symm ▸ hlen) (hallocated.symm ▸ haligned)
        (by rw [hallocated, hgrowth]; omega)
      rw [hallocated] at hplaces hlength
      refine ⟨mutant, hmut, hplaces.nopInsertion, ?_, ?_⟩
      · rw [hplaces.accesses_eq ActiveInstr.isMemaccess_nop, ← hacc, map_cellOf hs hlen]
        calc (ap4.accessIdx.zip x).map (fun p => (p.1 + blockOffset p).toNat)
            = (ap4.accessIdx.zip x).map Prod.snd := List.map_congr_left fun p hp => by
              obtain ⟨h₁, h₂⟩ := hmem p hp
              rw [show p = (p.1, p.2) from rfl, blockOffset_of_le h₁ h₂]
              dsimp only
              omega
          _ = x := List.map_snd_zip hlen.le
      · omega

/-- A program that reads memory at its second and fourth instruction. -/
def twoReads : ActiveProgramDef ActiveInstr :=
  { code := [⟨0, 13⟩, ⟨0, 41⟩, ⟨0, 16⟩, ⟨1, 41⟩, ⟨0, 2⟩, ⟨0, 0⟩]
    accessIdx := [1, 3]
    mutant := [⟨0, 13⟩, ⟨0, 41⟩, ⟨0, 16⟩, ⟨1, 41⟩, ⟨0, 2⟩, ⟨0, 0⟩] }

/-- Moved to stages four and nine, it takes six more instructions. -/
theorem single_pass_mutation_twoReads :
    twoReads.accessIdx = [1, 3] ∧ ∃ mutant,
      mutateActiveProgram ActiveInstr.isMemaccess .nop twoReads
          (fun s => decide (s.val ∈ [4, 9])) = some mutant ∧
        NopInsertion .nop twoReads.code mutant ∧
        accesses ActiveInstr.isMemaccess 0 mutant = [4, 9] ∧
        mutant.length = twoReads.code.length + ([4, 9].getLastD 0 - twoReads.accessIdx.getLastD 0) :=
  ⟨rfl, single_pass_mutation (by decide +kernel) (by decide) rfl (by decide) (by decide) rfl
    (by decide) (fun k hk => by
      obtain rfl : k = 0 := by simpa using hk
      decide) (by decide)⟩

/-! ### Programs that go through the egress pipeline again -/

section Recirculation

/-- The program with every instruction marked by its position. -/
def ActiveProgramDef.marked (ap4 : ActiveProgramDef ActiveInstr) :
    ActiveProgramDef (ActiveInstr × Option ℕ) :=
  { code := ap4.code.zipIdx.map fun p => (p.1, some p.2)
    accessIdx := ap4.accessIdx
    mutant := ap4.mutant.zipIdx.map fun p => (p.1, some p.2) }

/-- The mutation of the marked program: no-ops carry no position. -/
def mutateMarked (ap4 : ActiveProgramDef ActiveInstr) (validStages : Stage → Bool) :
    Option (List (ActiveInstr × Option ℕ)) :=
  mutateActiveProgram (fun c => c.1.isMemaccess) (.nop, none) ap4.marked validStages

/-- Every instruction of the program is in the mutant, once and in order. -/
def CopiesInOrder (ap4 : ActiveProgramDef ActiveInstr)
    (mutant : List (ActiveInstr × Option ℕ)) : Prop :=
  mutant.filterMap Prod.snd = List.range ap4.code.length

/-- The memory accesses of the mutant are at stages of the allocation, no two at the same. -/
def AccessesOnStages (validStages : Stage → Bool) (mutant : List (ActiveInstr × Option ℕ)) :
    Prop :=
  (∀ p ∈ accesses (fun c => c.1.isMemaccess) 0 mutant, ∃ s : Stage,
      validStages s = true ∧ getMemoryStageId p = s) ∧
    ((accesses (fun c => c.1.isMemaccess) 0 mutant).map getMemoryStageId).Nodup

variable {ap4 : ActiveProgramDef ActiveInstr} {validStages : Stage → Bool}

@[simp] theorem length_marked (ap4 : ActiveProgramDef ActiveInstr) :
    ap4.marked.code.length = ap4.code.length := by
  simp [ActiveProgramDef.marked]

theorem getElem?_marked (ap4 : ActiveProgramDef ActiveInstr) (i : ℕ) :
    ap4.marked.code[i]? = ap4.code[i]?.map fun c => (c, some i) := by
  simp [ActiveProgramDef.marked, List.getElem?_zipIdx, Function.comp_def]

theorem accesses_zipIdx (code : List ActiveInstr) (i j : ℕ) :
    accesses (fun c : ActiveInstr × Option ℕ => c.1.isMemaccess) i
      ((code.zipIdx j).map fun p => (p.1, some p.2)) = accesses ActiveInstr.isMemaccess i code := by
  induction code generalizing i j with
  | nil => rfl
  | cons c code ih => simp [accesses, ih]

theorem filterMap_marked (code : List ActiveInstr) (j : ℕ) :
    ((code.zipIdx j).map fun p => (p.1, some p.2)).filterMap Prod.snd =
      List.range' j code.length := by
  induction code generalizing j with
  | nil => rfl
  | cons c code ih => simp [List.range'_succ, ih]

section Map

variable {α β : Type} (f : α → β) {isMem : β → Bool} {nop : α}

theorem increasePass_map (code : List α) (i : ℕ) (allocated : List ℕ) (d : ℤ) :
    increasePass isMem (code.map f) i allocated d =
      increasePass (fun c => isMem (f c)) code i allocated d := by
  induction code generalizing i allocated d with
  | nil => cases allocated <;> rfl
  | cons c code ih => cases allocated <;> simp [increasePass, ih]

theorem copyBlock_map (code : List α) (offset : ℤ) (start n : ℕ) (mutant : List α) :
    copyBlock (f nop) (code.map f) offset start n (mutant.map f) =
      (copyBlock nop code offset start n mutant).map f := by
  induction n generalizing mutant with
  | zero => rfl
  | succ n ih => rw [copyBlock, copyBlock, ← ih, List.map_set, List.getD_map]

theorem copyBlocks_map (code : List α) (ps : List (ℕ × ℕ)) (n : ℕ) (mutant : List α) :
    copyBlocks (f nop) (code.map f) ps n (mutant.map f) =
      (copyBlocks nop code ps n mutant).map f := by
  induction ps generalizing n mutant with
  | nil => exact copyBlock_map f code 0 0 n mutant
  | cons p ps ih => rw [copyBlocks, copyBlocks, copyBlock_map, ih]

/-- The code does not look at marks. -/
theorem mutateActiveProgram_map (isMem : β → Bool) (nop : α) (ap4 : ActiveProgramDef α) :
    mutateActiveProgram isMem (f nop)
        { code := ap4.code.map f, accessIdx := ap4.accessIdx, mutant := ap4.mutant.map f }
        validStages =
      (mutateActiveProgram (fun c => isMem (f c)) nop ap4 validStages).map (List.map f) := by
  unfold mutateActiveProgram
  dsimp only
  rw [increasePass_map, List.length_map]
  split_ifs
  · rfl
  · rfl
  · rfl
  · rw [Option.map_some, ← copyBlocks_map, List.map_replicate]

end Map

/-- Without the marks it is the mutation of the program. -/
theorem mutateMarked_map_fst (ap4 : ActiveProgramDef ActiveInstr) :
    (mutateMarked ap4 validStages).map (List.map Prod.fst) =
      mutateActiveProgram ActiveInstr.isMemaccess .nop ap4 validStages := by
  have hmap : ∀ l : List ActiveInstr,
      (l.zipIdx.map fun p => (p.1, some p.2)).map Prod.fst = l := fun l => by
    rw [List.map_map]
    exact List.zipIdx_map_fst 0 l
  have h := @mutateActiveProgram_map validStages _ _ Prod.fst ActiveInstr.isMemaccess
    (ActiveInstr.nop, none) ap4.marked
  rw [mutateMarked, ← h]
  simp only [ActiveProgramDef.marked, hmap]

theorem NopInsertion.filterMap_eq {code mutant : List (ActiveInstr × Option ℕ)}
    (h : NopInsertion (ActiveInstr.nop, none) code mutant) :
    mutant.filterMap Prod.snd = code.filterMap Prod.snd := by
  induction h with
  | nil => rfl
  | keep c _ ih => simp only [List.filterMap_cons, ih]
  | insert _ ih => simpa using ih

/-- The stages of the allocation are listed once each. -/
theorem nodup_accessIdxAllocated (validStages : Stage → Bool) :
    (accessIdxAllocated validStages).Nodup :=
  List.Nodup.map Fin.val_injective ((List.nodup_finRange 20).filter _)

theorem mem_accessIdxAllocated {a : ℕ} :
    a ∈ accessIdxAllocated validStages ↔ ∃ s : Stage, validStages s = true ∧ a = s := by
  simp only [accessIdxAllocated, List.mem_map, List.mem_filter, List.mem_finRange, true_and]
  exact exists_congr fun s => and_congr_right fun _ => eq_comm

/-- **Aligned stages give a mutation of the program**, with its accesses on these stages. -/
theorem copiesInOrder_of_aligned {mutant : List (ActiveInstr × Option ℕ)}
    (hacc : ap4.accessIdx = accesses ActiveInstr.isMemaccess 0 ap4.code)
    (hlen : (accessIdxAllocated validStages).length = ap4.accessIdx.length)
    (h : Aligned ap4.accessIdx (accessIdxAllocated validStages))
    (hplaces : Places (ActiveInstr.nop, none) ap4.marked.code mutant
      (cellOf ap4.accessIdx (accessIdxAllocated validStages))) :
    CopiesInOrder ap4 mutant ∧ AccessesOnStages validStages mutant := by
  have hmarked : accesses (fun c : ActiveInstr × Option ℕ => c.1.isMemaccess) 0 ap4.marked.code =
      ap4.accessIdx := by
    rw [hacc]
    exact accesses_zipIdx ap4.code 0 0
  have hs : ap4.accessIdx.Pairwise (· < ·) := hacc ▸ pairwise_accesses 0 ap4.code
  have hstages : (accesses (fun c : ActiveInstr × Option ℕ => c.1.isMemaccess) 0 mutant).map
      getMemoryStageId = accessIdxAllocated validStages := by
    rw [hplaces.accesses_eq ActiveInstr.isMemaccess_nop, hmarked, map_cellOf hs hlen, List.map_map]
    calc (ap4.accessIdx.zip (accessIdxAllocated validStages)).map _
        = (ap4.accessIdx.zip (accessIdxAllocated validStages)).map Prod.snd :=
          List.map_congr_left fun p hp => by
            have hmem := List.of_mem_zip (a := p.1) (b := p.2) hp
            obtain ⟨s, _, hs⟩ := mem_accessIdxAllocated.1 hmem.2
            have hin := h.ingress p hp
            unfold numStageIg at hin
            rw [Function.comp_apply, show p = (p.1, p.2) from rfl,
              getMemoryStageId_moved (by omega), if_neg (by omega)]
      _ = accessIdxAllocated validStages := List.map_snd_zip hlen.le
  refine ⟨?_, fun p hp => ?_, hstages ▸ nodup_accessIdxAllocated validStages⟩
  · rw [CopiesInOrder, hplaces.nopInsertion.filterMap_eq, List.range_eq_range']
    exact filterMap_marked ap4.code 0
  · have hmem : getMemoryStageId p ∈ accessIdxAllocated validStages := by
      rw [← hstages]
      exact List.mem_map_of_mem hp
    exact mem_accessIdxAllocated.1 hmem

/-- A cell of the mutant that holds an instruction holds the one that is moved there. -/
theorem cell_of_mark {allocated : List ℕ} {len p i : ℕ} {c : ActiveInstr}
    (hdesc : Descending (ap4.accessIdx.zip allocated).reverse ap4.code.length)
    (hp : (copyBlocks (ActiveInstr.nop, none) ap4.marked.code (ap4.accessIdx.zip allocated).reverse
      ap4.code.length (List.replicate len (ActiveInstr.nop, none)))[p]? = some (c, some i)) :
    i < ap4.code.length ∧ ap4.code[i]? = some c ∧
      (i : ℤ) + offsetDown (ap4.accessIdx.zip allocated).reverse i = p := by
  have hlen : p < len := by
    have h := (List.getElem?_eq_some_iff.1 hp).1
    simpa using h
  by_cases hex : ∃ j, j < ap4.code.length ∧
      (j : ℤ) + offsetDown (ap4.accessIdx.zip allocated).reverse j = p
  · -- the first instruction that is moved to the cell
    obtain ⟨hj, hcell⟩ := Nat.find_spec hex
    have hmin : ∀ j < Nat.find hex,
        (j : ℤ) + offsetDown (ap4.accessIdx.zip allocated).reverse j ≠ p :=
      fun j hj' heq => Nat.find_min hex hj' ⟨hj'.trans hj, heq⟩
    rw [getElem?_copyBlocks hdesc (by simpa using hlen) hj hcell hmin,
      List.getD_eq_getElem?_getD, getElem?_marked, List.getElem?_eq_getElem hj] at hp
    simp only [Option.map_some, Option.getD_some, Option.some.injEq, Prod.mk.injEq] at hp
    obtain ⟨hc, hi⟩ := hp
    subst hi
    exact ⟨hj, by rw [List.getElem?_eq_getElem hj, hc], hcell⟩
  · rw [getElem?_copyBlocks_of_ne hdesc fun j hj heq => hex ⟨j, hj, heq⟩,
      List.getElem?_replicate, if_pos hlen] at hp
    simp at hp

/-- Marks in order are in cells in order. -/
theorem lt_of_copiesInOrder {mutant : List (ActiveInstr × Option ℕ)}
    (h : CopiesInOrder ap4 mutant) {p q i j : ℕ} {c d : ActiveInstr} (hij : i < j)
    (hp : mutant[p]? = some (c, some i)) (hq : mutant[q]? = some (d, some j)) : p < q := by
  have hsorted : (mutant.filterMap Prod.snd).Pairwise (· < ·) := by
    rw [h]
    exact List.pairwise_lt_range
  rw [List.pairwise_filterMap] at hsorted
  obtain ⟨hp', hpc⟩ := List.getElem?_eq_some_iff.1 hp
  obtain ⟨hq', hqd⟩ := List.getElem?_eq_some_iff.1 hq
  by_contra hle
  rcases (Nat.not_lt.1 hle).eq_or_lt with rfl | hlt
  · rw [hpc, Prod.mk.injEq, Option.some.injEq] at hqd
    omega
  · have := List.pairwise_iff_getElem.1 hsorted q p hq' hp' hlt j (by rw [hqd]) i (by rw [hpc])
    omega

/-- Cells in order have ascending offsets. -/
theorem pairwise_of_cells {ps : List (ℕ × ℕ)} {blockEnd : ℕ} (hdesc : Descending ps blockEnd)
    (h : ∀ i j, i < j → j < blockEnd → (i : ℤ) + offsetDown ps i < j + offsetDown ps j) :
    ps.Pairwise fun p q => blockOffset q ≤ blockOffset p := by
  induction ps generalizing blockEnd with
  | nil => exact .nil
  | cons p ps ih =>
      have hp := hdesc.lt p List.mem_cons_self
      have htail := ih hdesc.tail fun i j hij hj => by
        have := h i j hij (hj.trans hp)
        rwa [offsetDown_of_lt hj, offsetDown_of_lt (hij.trans hj)] at this
      refine List.pairwise_cons.2 ⟨fun r hr => ?_, htail⟩
      cases ps with
      | nil => exact absurd hr List.not_mem_nil
      | cons q ps =>
          -- the last instruction before the access belongs to the block before it
          have hq := hdesc.tail.lt q List.mem_cons_self
          have hstep := h (p.1 - 1) p.1 (by omega) hp
          rw [offsetDown_of_le le_rfl, offsetDown_of_lt (by omega),
            offsetDown_of_le (Nat.le_sub_one_of_lt hq)] at hstep
          have hqp : blockOffset q ≤ blockOffset p := by omega
          rcases List.mem_cons.1 hr with rfl | hr
          · exact hqp
          · exact ((List.pairwise_cons.1 htail).1 r hr).trans hqp

section Copies

variable {len : ℕ} {mutant : List (ActiveInstr × Option ℕ)}
  (hacc : ap4.accessIdx = accesses ActiveInstr.isMemaccess 0 ap4.code)
  (hlen : (accessIdxAllocated validStages).length = ap4.accessIdx.length)
  (hmutant : copyBlocks (ActiveInstr.nop, none) ap4.marked.code
    (ap4.accessIdx.zip (accessIdxAllocated validStages)).reverse ap4.code.length
    (List.replicate len (ActiveInstr.nop, none)) = mutant)
  (hcopies : CopiesInOrder ap4 mutant)

include hacc hlen

/-- The blocks that are copied begin at the accesses, the last one first. -/
theorem descending_allocated :
    Descending (ap4.accessIdx.zip (accessIdxAllocated validStages)).reverse ap4.code.length := by
  rw [hacc] at hlen ⊢
  exact descending_accesses hlen

include hmutant hcopies

/-- Every instruction is in the cell it is moved to. -/
theorem cell_of_copiesInOrder {i : ℕ} (hi : i < ap4.code.length) :
    ∃ (p : ℕ) (c : ActiveInstr), mutant[p]? = some (c, some i) ∧ ap4.code[i]? = some c ∧
      (i : ℤ) + offsetDown (ap4.accessIdx.zip (accessIdxAllocated validStages)).reverse i = p := by
  have hmem : i ∈ mutant.filterMap Prod.snd := by
    rw [hcopies]
    exact List.mem_range.2 hi
  obtain ⟨⟨c, t⟩, hc, ht⟩ := List.mem_filterMap.1 hmem
  dsimp only at ht
  obtain ⟨p, hp⟩ := List.mem_iff_getElem?.1 hc
  rw [ht] at hp
  have hmark := cell_of_mark (descending_allocated hacc hlen) (hmutant.symm ▸ hp)
  exact ⟨p, c, hp, hmark.2.1, hmark.2.2⟩

/-- The cells are in the order of the instructions. -/
theorem cells_ascending {i j : ℕ} (hij : i < j) (hj : j < ap4.code.length) :
    (i : ℤ) + offsetDown (ap4.accessIdx.zip (accessIdxAllocated validStages)).reverse i <
      j + offsetDown (ap4.accessIdx.zip (accessIdxAllocated validStages)).reverse j := by
  obtain ⟨p, c, hp, _, hip⟩ := cell_of_copiesInOrder hacc hlen hmutant hcopies (hij.trans hj)
  obtain ⟨q, d, hq, _, hjq⟩ := cell_of_copiesInOrder hacc hlen hmutant hcopies hj
  have := lt_of_copiesInOrder hcopies hij hp hq
  omega

/-- An access is in the cell that its block is moved to. -/
theorem access_of_copiesInOrder {r : ℕ × ℕ} (hr : r ∈ ap4.accessIdx.zip (accessIdxAllocated validStages)) :
    ∃ p : ℕ, p ∈ accesses (fun c : ActiveInstr × Option ℕ => c.1.isMemaccess) 0 mutant ∧
      (r.1 : ℤ) + blockOffset r = p ∧
      (r.1 : ℤ) + offsetDown (ap4.accessIdx.zip (accessIdxAllocated validStages)).reverse r.1 = p := by
  have hs : ap4.accessIdx.Pairwise (· < ·) := hacc ▸ pairwise_accesses 0 ap4.code
  have hmem := (List.of_mem_zip (a := r.1) (b := r.2) hr).1
  rw [hacc] at hmem
  obtain ⟨p, c, hp, hc, hcellp⟩ :=
    cell_of_copiesInOrder hacc hlen hmutant hcopies (lt_of_mem_accesses hmem)
  obtain ⟨_, d, hd, hm⟩ := mem_accesses.1 hmem
  have hcd : c = d := by
    rw [Nat.sub_zero, hc, Option.some.injEq] at hd
    exact hd
  have hoff := cellOf_access hs hlen hr
  have hnonneg := add_blockOffset_nonneg r
  refine ⟨p, mem_accesses.2 ⟨Nat.zero_le p, _, hp, ?_⟩, ?_, hcellp⟩
  · rw [hcd]
    exact hm
  · unfold cellOf at hoff
    omega

/-- **Two accesses are not moved to one cell.** -/
theorem eq_of_access_cells {y a z b p : ℕ} (hr : (y, a) ∈ ap4.accessIdx.zip (accessIdxAllocated validStages))
    (hz : (z, b) ∈ ap4.accessIdx.zip (accessIdxAllocated validStages))
    (hy : (y : ℤ) + offsetDown (ap4.accessIdx.zip (accessIdxAllocated validStages)).reverse y = p)
    (hzp : (z : ℤ) + offsetDown (ap4.accessIdx.zip (accessIdxAllocated validStages)).reverse z = p) :
    a = b := by
  have hs : ap4.accessIdx.Pairwise (· < ·) := hacc ▸ pairwise_accesses 0 ap4.code
  have hdesc := descending_allocated hacc hlen
  rcases Nat.lt_trichotomy y z with hyz | rfl | hyz
  · have := cells_ascending hacc hlen hmutant hcopies hyz (hdesc.lt _ (List.mem_reverse.2 hz))
    omega
  · have hnodup : (ap4.accessIdx.zip (accessIdxAllocated validStages)).Pairwise fun p q => p.1 ≠ q.1 := by
      refine List.pairwise_map.1 ?_
      rw [List.map_fst_zip hlen.ge]
      exact hs.imp fun h => h.ne
    have heq : (y, a) = (y, b) := List.inj_on_of_nodup_map (List.pairwise_map.2 hnodup) hr hz rfl
    exact (Prod.mk.inj heq).2
  · have := cells_ascending hacc hlen hmutant hcopies hyz (hdesc.lt _ (List.mem_reverse.2 hr))
    omega

/-- **Only aligned stages give a mutation of the program.** -/
theorem aligned_of_copiesInOrder (hstages : AccessesOnStages validStages mutant) :
    Aligned ap4.accessIdx (accessIdxAllocated validStages) := by
  have hdesc := descending_allocated hacc hlen
  have hmono : ∀ i j, i < j → j < ap4.code.length →
      (i : ℤ) + offsetDown (ap4.accessIdx.zip (accessIdxAllocated validStages)).reverse i <
        j + offsetDown (ap4.accessIdx.zip (accessIdxAllocated validStages)).reverse j :=
    fun i j hij hj => cells_ascending hacc hlen hmutant hcopies hij hj
  refine ⟨List.pairwise_reverse.1 (pairwise_of_cells hdesc hmono), fun r hr hin => ?_⟩
  by_contra hlt
  rw [Nat.not_le] at hlt
  unfold numStageIg at hin
  obtain ⟨y, a⟩ := r
  dsimp only at hin hlt
  -- the access misses its stage and meets the one ten stages later
  obtain ⟨p, hp, hpy, hpcell⟩ := access_of_copiesInOrder hacc hlen hmutant hcopies hr
  have hpa : getMemoryStageId p = a + 10 := by
    have := getMemoryStageId_moved (y := y) (a := a) (by omega)
    rwa [if_pos ⟨hin, hlt⟩, hpy, Int.toNat_natCast] at this
  obtain ⟨s, hvalid, hps⟩ := hstages.1 p hp
  have hmem : a + 10 ∈ accessIdxAllocated validStages :=
    mem_accessIdxAllocated.2 ⟨s, hvalid, by omega⟩
  obtain ⟨z, hz⟩ : ∃ z, (z, a + 10) ∈ ap4.accessIdx.zip (accessIdxAllocated validStages) := by
    have hsnd : a + 10 ∈ (ap4.accessIdx.zip (accessIdxAllocated validStages)).map Prod.snd := by
      rwa [List.map_snd_zip hlen.le]
    obtain ⟨⟨z, b⟩, hz, rfl⟩ := List.mem_map.1 hsnd
    exact ⟨z, hz⟩
  obtain ⟨q, hq, hqz, hqcell⟩ := access_of_copiesInOrder hacc hlen hmutant hcopies hz
  have hqa : getMemoryStageId q = a + 10 := by
    have := getMemoryStageId_moved (y := z) (a := a + 10) (by omega)
    rwa [if_neg (by omega), hqz, Int.toNat_natCast] at this
  have hpq : p = q := List.inj_on_of_nodup_map hstages.2 hp hq (hpa.trans hqa.symm)
  subst hpq
  have := eq_of_access_cells hacc hlen hmutant hcopies hr hz hpcell hqcell
  omega

end Copies

/-- A kept variant on distinct stages is one of a program on distinct stages. -/
theorem nodup_of_mem_enumerate {accessIdx x : List ℕ} {igLim : ℤ} {progLen : ℕ} {b : Bool}
    (hsmall : ∀ y ∈ accessIdx, y < 2 ^ 32)
    (hx : x ∈ ActiveFunction.enumerate accessIdx igLim progLen b) (hn : (x.map stageOf).Nodup) :
    (accessIdx.map stageOf).Nodup := by
  have hlen := ActiveFunction.length_of_mem_enumerate hx
  have hlb := ActiveFunction.constrLB_eq hsmall
  have hkept := (List.mem_filter.1 hx).2
  rw [hlb, Bool.and_eq_true, decide_eq_true_eq, ActiveFunction.length_keys_reuses,
    List.toFinset_card_of_nodup hn, List.length_map, hlen] at hkept
  refine Multiset.coe_nodup.1 (Multiset.toFinset_card_eq_card_iff_nodup.1 ?_)
  rw [Multiset.coe_card, List.length_map]
  exact hkept.1.symm

/-- The length of the mutant, as the code computes it. -/
def mutatedLength (ap4 : ActiveProgramDef ActiveInstr) (validStages : Stage → Bool) : ℤ :=
  if isOriginal validStages ap4.accessIdx then ap4.code.length
  else ap4.code.length +
    increasePass ActiveInstr.isMemaccess ap4.code 0 (accessIdxAllocated validStages) 0

/-- The stages of a variant, as the client receives them. -/
def stagesOf (x : List ℕ) (s : Stage) : Bool := decide (s ∈ x.map stageOf)

theorem length_allocated_stagesOf {x : List ℕ} (hn : (x.map stageOf).Nodup) :
    (accessIdxAllocated (stagesOf x)).length = x.length := by
  have hperm : ((List.finRange 20).filter (stagesOf x)).Perm (x.map stageOf) := by
    refine (List.perm_ext_iff_of_nodup ((List.nodup_finRange 20).filter _) hn).2 fun s => ?_
    rw [List.mem_filter, stagesOf, decide_eq_true_eq]
    exact and_iff_right (List.mem_finRange s)
  rw [accessIdxAllocated, List.length_map, hperm.length_eq, List.length_map]

/-- **Mutation with further passes.**  For every variant that the allocator may choose, the mutant
is the program with no-ops inserted and its accesses on the stages of the variant exactly when the
program is on these stages already or when the stages, smallest first, are aligned with the
accesses. -/
theorem recirculating_mutation_iff {ap4 : ActiveProgramDef ActiveInstr} {igLim : ℤ} {b : Bool}
    {x : List ℕ} (hcode : ap4.code.length ≤ maxProgramLen)
    (hacc : ap4.accessIdx = accesses ActiveInstr.isMemaccess 0 ap4.code)
    (hmutant : ap4.mutant = ap4.code)
    (hx : x ∈ ActiveFunction.enumerate ap4.accessIdx igLim ap4.code.length b)
    (hdistinct : (x.map stageOf).Nodup) (hfit : mutatedLength ap4 (stagesOf x) ≤ maxProgramLen) :
    ∃ mutant, mutateMarked ap4 (stagesOf x) = some mutant ∧
      mutateActiveProgram ActiveInstr.isMemaccess .nop ap4 (stagesOf x) =
        some (mutant.map Prod.fst) ∧
      ((CopiesInOrder ap4 mutant ∧ AccessesOnStages (stagesOf x) mutant) ↔
        (isOriginal (stagesOf x) ap4.accessIdx = true ∨
          Aligned ap4.accessIdx (accessIdxAllocated (stagesOf x)))) := by
  have hlen : (accessIdxAllocated (stagesOf x)).length = ap4.accessIdx.length := by
    rw [length_allocated_stagesOf hdistinct]
    exact ActiveFunction.length_of_mem_enumerate hx
  have hplain : ∀ {mutant}, mutateMarked ap4 (stagesOf x) = some mutant →
      mutateActiveProgram ActiveInstr.isMemaccess .nop ap4 (stagesOf x) =
        some (mutant.map Prod.fst) := fun {mutant} h => by
    rw [← mutateMarked_map_fst, h, Option.map_some]
  have hmarked : accesses (fun c : ActiveInstr × Option ℕ => c.1.isMemaccess) 0 ap4.marked.code =
      ap4.accessIdx := by
    rw [hacc]
    exact accesses_zipIdx ap4.code 0 0
  cases horig : isOriginal (stagesOf x) ap4.accessIdx with
  | true =>
      have hm : mutateMarked ap4 (stagesOf x) = some ap4.marked.mutant := by
        rw [mutateMarked, mutateActiveProgram]
        exact if_pos horig
      have hcm : ap4.marked.mutant = ap4.marked.code := by
        rw [ActiveProgramDef.marked, hmutant]
      refine ⟨_, hm, hplain hm, fun _ => .inl rfl, fun _ => ⟨?_, ?_, ?_⟩⟩
      · rw [CopiesInOrder, hcm, List.range_eq_range']
        exact filterMap_marked ap4.code 0
      · rw [hcm, hmarked]
        intro y hy
        exact ⟨stageOf y, List.all_eq_true.1 horig y hy, getMemoryStageId_eq y⟩
      · have hsmall : ∀ y ∈ ap4.accessIdx, y < 2 ^ 32 := fun y hy => by
          rw [hacc] at hy
          have := lt_of_mem_accesses hy
          unfold maxProgramLen at hcode
          omega
        have hn := nodup_of_mem_enumerate hsmall hx hdistinct
        rw [hcm, hmarked, funext getMemoryStageId_eq]
        have := hn.map Fin.val_injective
        rwa [List.map_map] at this
  | false =>
      rw [mutatedLength, horig] at hfit
      have hfit' : (ap4.marked.code.length : ℤ) +
          increasePass (fun c : ActiveInstr × Option ℕ => c.1.isMemaccess) ap4.marked.code 0
            (accessIdxAllocated (stagesOf x)) 0 ≤ maxProgramLen := by
        rw [length_marked, increasePass_eq, hmarked, hacc, ← increasePass_eq]
        exact hfit
      have hm : mutateMarked ap4 (stagesOf x) = some _ :=
        (@mutateActiveProgram_eq_some_iff _ _ _ ap4.marked _ horig _).2 ⟨hlen, hfit', rfl⟩
      refine ⟨_, hm, hplain hm, fun h => .inr ?_, fun h => ?_⟩
      · exact aligned_of_copiesInOrder hacc hlen (by rw [length_marked]; rfl) h.1 h.2
      · have h := h.resolve_left Bool.false_ne_true
        have hgrowth : increasePass (fun c : ActiveInstr × Option ℕ => c.1.isMemaccess)
            ap4.marked.code 0 (accessIdxAllocated (stagesOf x)) 0 =
              growth ap4.accessIdx (accessIdxAllocated (stagesOf x)) := by
          rw [increasePass_eq, hmarked]
          exact foldl_shift_eq h.ascending le_rfl fun p hp => h.nonneg hp
        rw [hgrowth] at hfit'
        obtain ⟨mutant, hm', hplaces, _⟩ := @mutateActiveProgram_aligned _ _
          ((ActiveInstr.nop, none) : ActiveInstr × Option ℕ) ap4.marked _ hmarked.symm horig hlen h
          hfit'
        have heq : some mutant = some _ := hm'.symm.trans hm
        rw [← Option.some.inj heq]
        exact copiesInOrder_of_aligned hacc hlen h hplaces

/-- A program of fourteen instructions that reads memory at two positions. -/
def readsAt (y z : ℕ) : ActiveProgramDef ActiveInstr :=
  let code := (List.range 14).map fun i =>
    if i = y ∨ i = z then (⟨0, 41⟩ : ActiveInstr) else if i = 13 then ⟨0, 0⟩ else ⟨0, 16⟩
  { code := code, accessIdx := [y, z], mutant := code }

/-- A second access that moves to the next pass, from stage twelve to stage eleven. -/
theorem recirculating_mutation_aligned :
    Aligned [5, 12] (accessIdxAllocated (stagesOf [5, 21])) ∧
      ∃ mutant, mutateMarked (readsAt 5 12) (stagesOf [5, 21]) = some mutant ∧
        mutateActiveProgram ActiveInstr.isMemaccess .nop (readsAt 5 12) (stagesOf [5, 21]) =
          some (mutant.map Prod.fst) ∧
        ((CopiesInOrder (readsAt 5 12) mutant ∧ AccessesOnStages (stagesOf [5, 21]) mutant) ↔
          (isOriginal (stagesOf [5, 21]) (readsAt 5 12).accessIdx = true ∨
            Aligned (readsAt 5 12).accessIdx (accessIdxAllocated (stagesOf [5, 21])))) :=
  ⟨by decide, @recirculating_mutation_iff (readsAt 5 12) (-1) true [5, 21] (by decide)
    (by decide +kernel) rfl (by decide +kernel) (by decide) (by decide +kernel)⟩

/-- **Blocks that run into each other.**  The accesses at five and twelve may move to fifteen and
twenty-three, which are on stages fifteen and thirteen.  The smaller stage goes to the first access,
and its block, moved by eight, overwrites the second access, whose block is moved by three. -/
theorem recirculating_mutation_overlaps :
    (readsAt 5 12).accessIdx = accesses ActiveInstr.isMemaccess 0 (readsAt 5 12).code ∧
      (readsAt 5 12).mutant = (readsAt 5 12).code ∧
      [15, 23] ∈ ActiveFunction.enumerate (readsAt 5 12).accessIdx (-1)
        (readsAt 5 12).code.length true ∧
      ([15, 23].map stageOf).Nodup ∧ (∃ y ∈ (readsAt 5 12).accessIdx ++ [15, 23], 20 ≤ y) ∧
      mutatedLength (readsAt 5 12) (stagesOf [15, 23]) ≤ maxProgramLen ∧
      ¬ ∃ mutant, mutateMarked (readsAt 5 12) (stagesOf [15, 23]) = some mutant ∧
        CopiesInOrder (readsAt 5 12) mutant ∧ AccessesOnStages (stagesOf [15, 23]) mutant := by
  refine ⟨by decide +kernel, rfl, by decide +kernel, by decide, by decide, by decide +kernel, ?_⟩
  intro ⟨mutant, hm, hcopies, _⟩
  have hlost : (mutateMarked (readsAt 5 12) (stagesOf [15, 23])).any (fun m =>
      decide (m.filterMap Prod.snd = List.range (readsAt 5 12).code.length)) = false := by
    decide +kernel
  rw [hm, Option.any_some, decide_eq_false_iff_not] at hlost
  exact hlost hcopies

end Recirculation

end ActiveRmt
