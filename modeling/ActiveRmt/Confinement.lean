/-
**Packets on their way, slot by slot, and the memory that they touch.**

`process` takes a packet from its arrival to its departure as if it were alone.  In the switch many packets
are on their way, and the stages serve them in turn: between two slots of a packet, the slots of others
change the memory.  A packet touches the memory only where an entry with a memory action is for its
function and its address.

Main definitions:

* `Switch.MayAccess`, `Switch.Cell` — the addresses, and the words, that the tables let a function access;
* `Flight`, `Flight.step` — a packet on its way, and its next slot;
* `Flight.stepsLeft` — how many steps it has before it.

Main results:

* `exec_local`, `slot_local` — **an action reads and writes at most the word of its address**;
* `Flight.step_agree`, `Flight.step_frame` — a step depends on the words of the function, and changes no
  others;
* `Flight.step_stepsLeft` — **every step brings a packet closer to its departure**;
* `Flight.alone` — **a packet that is alone departs as `process` says**.
-/

import ActiveRmt.MemorySync

set_option relaxedAutoImplicit false
set_option autoImplicit false

namespace ActiveRmt

/-! ### The memory of a function -/

namespace Switch

/-- **The tables let a function access an address** of a stage. -/
def MayAccess (sw : Switch) (i : Stage) (f : Fid) (addr : ℕ) : Prop :=
  ∃ e ∈ (sw.instruction i).items, e.2.1.isMemory = true ∧ e.1.fidStart ≤ f ∧ f ≤ e.1.fidEnd ∧
    e.1.marStart ≤ addr ∧ (addr : ℚ) ≤ e.1.marEnd

instance (sw : Switch) (i : Stage) (f : Fid) (addr : ℕ) : Decidable (sw.MayAccess i f addr) :=
  inferInstanceAs (Decidable (∃ e ∈ (sw.instruction i).items, e.2.1.isMemory = true ∧
    e.1.fidStart ≤ f ∧ f ≤ e.1.fidEnd ∧ e.1.marStart ≤ addr ∧ (addr : ℚ) ≤ e.1.marEnd))

/-- **A word of memory that the packets of a function may access.**  The tables see the low twenty bits of
its address. -/
def Cell (sw : Switch) (fid : BitVec 16) (i : Stage) (a : Word) : Prop :=
  sw.MayAccess i fid.toNat (a.toNat % 2 ^ 20)

instance (sw : Switch) (fid : BitVec 16) (i : Stage) (a : Word) : Decidable (sw.Cell fid i a) :=
  inferInstanceAs (Decidable (sw.MayAccess i fid.toNat (a.toNat % 2 ^ 20)))

/-- A memory action is selected for a word of the function. -/
theorem cell_of_lookup {sw : Switch} {i : Stage} {σ : PacketState} {instr : ActiveInstr} {a : BoundAction}
    (h : sw.lookup i (σ.key instr) = some a) (hmem : a.1.isMemory = true) : sw.Cell σ.fid i σ.mar := by
  obtain ⟨e, he, hsel, rfl⟩ := exists_of_lookup h
  obtain ⟨hstart, hend, -, -, -, -, hlow, hhigh⟩ := of_decide_eq_true hsel
  exact ⟨e, he, hmem, hstart, hend, hlow, hhigh⟩

end Switch

/-! ### Slots in a shared memory -/

/-- The memory of the stages. -/
abbrev Stages := Stage → Word → Word

/-- A packet in the presence of a memory. -/
def PacketState.within (σ : PacketState) (heap : Stages) : PacketState := { σ with heap := heap }

/-- A packet without a memory. -/
def PacketState.alone (σ : PacketState) : PacketState := σ.within fun _ _ => 0

/-- An arriving packet in the presence of a memory. -/
def Arrival.within (pkt : Arrival) (heap : Stages) : Arrival := { pkt with state := pkt.state.within heap }

@[simp] theorem PacketState.within_self (σ : PacketState) : σ.within σ.heap = σ := rfl

@[simp] theorem PacketState.within_within (σ : PacketState) (heap heap' : Stages) :
    (σ.within heap).within heap' = σ.within heap' := rfl

@[simp] theorem PacketState.heap_within (σ : PacketState) (heap : Stages) : (σ.within heap).heap = heap := rfl

@[simp] theorem PacketState.alone_within (σ : PacketState) (heap : Stages) :
    (σ.within heap).alone = σ.alone := rfl

@[simp] theorem PacketState.within_alone (σ : PacketState) (heap : Stages) :
    σ.alone.within heap = σ.within heap := rfl

/-- What an action does to the memory: it writes one word, or nothing. -/
def store (heap : Stages) (i : Stage) (addr : Word) : Option Word → Stages
  | none => heap
  | some v => writeHeap heap i addr v

theorem store_apply (heap : Stages) (i j : Stage) (addr b : Word) (v : Option Word) :
    store heap i addr v j b = if j = i ∧ b = addr then v.getD (heap j b) else heap j b := by
  cases v with
  | none => simp [store]
  | some v =>
      rw [store, writeHeap, Function.update_apply]
      by_cases hj : j = i
      · subst hj
        simp [Function.update_apply]
      · simp [hj]

section Slots

variable (env : Environment) (sw : Switch) (i : Stage) (instr : ActiveInstr) (σ : PacketState)

/-- **An action reads and writes at most the word of its address**: in two memories that have this word in
common, it does the same to the packet and writes the same. -/
theorem exec_local (goto : Bool) (a : BoundAction) (heap : Stages)
    (hword : a.1.isMemory = true → heap i σ.mar = σ.heap i σ.mar) :
    ∃ (ρ : PacketState) (v : Option Word), (a.1.isMemory = false → v = none) ∧
      exec env i goto a σ = ρ.within (store σ.heap i σ.mar v) ∧
      exec env i goto a (σ.within heap) = ρ.within (store heap i σ.mar v) := by
  cases hmem : a.1.isMemory with
  | false =>
      refine ⟨exec env i goto a σ, none, fun _ => rfl, ?_⟩
      obtain ⟨act, arg⟩ := a
      cases act <;> first | exact absurd hmem.symm Bool.false_ne_true | skip
      all_goals
        constructor <;> simp only [exec, store] <;> first | rfl | (split_ifs <;> rfl)
  | true =>
      replace hword := hword hmem
      obtain ⟨act, arg⟩ := a
      cases act <;> first | exact absurd hmem Bool.false_ne_true | skip
      case memoryWrite => exact ⟨σ, some σ.mbr, by simp, rfl, rfl⟩
      case memoryRead =>
        refine ⟨{ σ with mbr := σ.heap i σ.mar }, none, by simp, rfl, ?_⟩
        show ({ σ with heap := heap, mbr := heap i σ.mar } : PacketState) = _
        rw [hword]
        rfl
      case memoryIncrement =>
        refine ⟨{ σ with mbr := σ.heap i σ.mar + 1 }, some (σ.heap i σ.mar + 1), by simp, rfl, ?_⟩
        show ({ σ with heap := writeHeap heap i σ.mar (heap i σ.mar + 1), mbr := heap i σ.mar + 1 } :
          PacketState) = _
        rw [hword]
        rfl
      case memoryMinread =>
        refine ⟨{ σ with
          mbr := σ.heap i σ.mar
          mbr2 := if σ.mbr2 < σ.heap i σ.mar then σ.mbr2 else σ.heap i σ.mar }, none, by simp, rfl, ?_⟩
        show ({ σ with
          heap := heap
          mbr := heap i σ.mar
          mbr2 := if σ.mbr2 < heap i σ.mar then σ.mbr2 else heap i σ.mar } : PacketState) = _
        rw [hword]
        rfl
      case memoryMinreadinc =>
        refine ⟨{ σ with
          mbr := σ.heap i σ.mar + 1
          mbr2 := if σ.mbr2 < σ.heap i σ.mar + 1 then σ.mbr2 else σ.heap i σ.mar + 1 },
          some (σ.heap i σ.mar + 1), by simp, rfl, ?_⟩
        show ({ σ with
          heap := writeHeap heap i σ.mar (heap i σ.mar + 1)
          mbr := heap i σ.mar + 1
          mbr2 := if σ.mbr2 < heap i σ.mar + 1 then σ.mbr2 else heap i σ.mar + 1 } : PacketState) = _
        rw [hword]
        rfl
      case memoryWriteZero =>
        by_cases hzero : σ.heap i σ.mar = 0
        · refine ⟨{ σ with mbr := 0 }, some σ.mbr2, by simp, ?_, ?_⟩
          · simp only [exec, if_pos hzero]
            rfl
          · show (if heap i σ.mar = 0 then _ else _) = _
            rw [hword, if_pos hzero]
            rfl
        · refine ⟨{ σ with mbr := σ.mbr2 - σ.heap i σ.mar }, none, by simp, ?_, ?_⟩
          · simp only [exec, if_neg hzero]
            rfl
          · show (if heap i σ.mar = 0 then _ else _) = _
            rw [if_neg (by rw [hword]; exact hzero)]
            show ({ σ with heap := heap, mbr := σ.mbr2 - heap i σ.mar } : PacketState) = _
            rw [hword]
            rfl

/-- **A slot reads and writes at most one word**, and one of the function. -/
theorem slot_local (heap : Stages) (hword : sw.Cell σ.fid i σ.mar → heap i σ.mar = σ.heap i σ.mar) :
    ∃ (ρ : PacketState) (v : Option Word), (¬sw.Cell σ.fid i σ.mar → v = none) ∧
      slot env sw i instr σ = ρ.within (store σ.heap i σ.mar v) ∧
      slot env sw i instr (σ.within heap) = ρ.within (store heap i σ.mar v) := by
  have hkey : (σ.within heap).key instr = σ.key instr := rfl
  unfold slot
  rw [hkey]
  cases hl : sw.lookup i (σ.key instr) with
  | none => exact ⟨σ, none, fun _ => rfl, rfl, rfl⟩
  | some a =>
      obtain ⟨ρ, v, hv, h, h'⟩ := exec_local env i σ instr.goto a heap
        fun hmem => hword (Switch.cell_of_lookup hl hmem)
      refine ⟨ρ, v, fun hcell => hv ?_, h, h'⟩
      by_contra hmem
      exact hcell (Switch.cell_of_lookup hl (by simpa using hmem))

end Slots

/-! ### Packets on their way -/

/-- A pipeline that serves a packet, with what the packet needs after it: the quota, the number of the pass
and the words that follow in the egress pipeline. -/
inductive Gress
  | ingress (pkt : Arrival) (iter : ℕ)
  | egress (iter n : ℕ) (words : List ActiveInstr)

/-- The stage of a slot. -/
def Gress.stage : Gress → ℕ → Stage
  | .ingress _ _ => ingressStage
  | .egress _ _ _ => egressStage

/-- **A packet on its way.**  The memory stays in the stages. -/
inductive Flight
  /-- It has arrived. -/
  | arriving (pkt : Arrival)
  /-- It is in a pipeline, before slot `k`, with the instructions for the slots that follow. -/
  | running (g : Gress) (k : ℕ) (stack : List ActiveInstr) (σ : PacketState)
  /-- It waits for the egress pipeline. -/
  | waiting (iter n : ℕ) (words : List ActiveInstr) (σ : PacketState)
  /-- It has left. -/
  | departed (σ : PacketState)

/-- **Where a packet goes** after the last slot of a pipeline. -/
def Gress.leave (env : Environment) (sw : Switch) (σ : PacketState) : Gress → Flight
  | .ingress pkt iter =>
      let τ := ingressEnd env sw pkt σ
      if τ.dropped || τ.bypassEgress then .departed τ.alone
      else .waiting iter 0 (egressWords env sw pkt) τ.alone
  | .egress 0 _ _ => .departed σ.alone
  | .egress (iter + 1) n words =>
      if Mirrored σ then .waiting iter (n + 1) words (mirror σ).alone else .departed σ.alone

/-- **The next step of a packet**, in the memory as it is. -/
def Flight.step (env : Environment) (sw : Switch) : Flight → Stages → Flight × Stages
  | .arriving pkt, heap =>
      (.running (.ingress pkt (mirrorIter sw pkt)) 0 ((ingressStack pkt).take 10)
        (ingressStart env pkt).alone, heap)
  | .running g k (instr :: stack) σ, heap =>
      let τ := slot env sw (g.stage k) instr (σ.within heap)
      (.running g (k + 1) stack τ.alone, τ.heap)
  | .running g _ [] σ, heap => (g.leave env sw (σ.within heap), heap)
  | .waiting iter n words σ, heap =>
      (.running (.egress iter n (remaining words σ)) 0 ((egressStack words σ).take 10)
        (egressStart env n σ).alone, heap)
  | .departed σ, heap => (.departed σ, heap)

namespace Flight

/-- The state of the packet. -/
def state : Flight → PacketState
  | .arriving pkt => pkt.state
  | .running _ _ _ σ | .waiting _ _ _ σ | .departed σ => σ

/-- The function of the packet. -/
def fid (F : Flight) : BitVec 16 := F.state.fid

variable {env : Environment} {sw : Switch} {F : Flight} {heap heap' : Stages}

theorem fid_leave (g : Gress) (σ : PacketState) : (g.leave env sw σ).fid = σ.fid := by
  cases g with
  | ingress pkt iter =>
      simp only [Gress.leave]
      split_ifs <;> rfl
  | egress iter n words =>
      cases iter with
      | zero => rfl
      | succ iter =>
          simp only [Gress.leave]
          split_ifs <;> rfl

/-- A packet stays one of its function. -/
theorem step_fid (F : Flight) (heap : Stages) : (F.step env sw heap).1.fid = F.fid := by
  cases F with
  | arriving pkt => rfl
  | running g k stack σ =>
      cases stack with
      | nil => exact fid_leave g (σ.within heap)
      | cons instr stack => exact slot_fid
  | waiting iter n words σ => rfl
  | departed σ => rfl

/-- A packet that has made a step has started. -/
theorem step_started (F : Flight) (heap : Stages) (pkt : Arrival) : (F.step env sw heap).1 ≠ .arriving pkt := by
  cases F with
  | arriving pkt => simp [step]
  | running g k stack σ =>
      cases stack with
      | nil =>
          cases g with
          | ingress pkt iter =>
              simp only [step, Gress.leave]
              split_ifs <;> simp
          | egress iter n words =>
              cases iter with
              | zero => simp [step, Gress.leave]
              | succ iter =>
                  simp only [step, Gress.leave]
                  split_ifs <;> simp
      | cons instr stack => simp [step]
  | waiting iter n words σ => simp [step]
  | departed σ => simp [step]

/-- **A step depends on the words of the function only**: in two memories that agree on them it does the same
to the packet, and they agree on them afterwards. -/
theorem step_agree (env : Environment) (sw : Switch) (F : Flight) {C : Stage → Word → Prop}
    (hC : ∀ i a, sw.Cell F.fid i a → C i a) (hheap : ∀ i a, C i a → heap' i a = heap i a) :
    (F.step env sw heap').1 = (F.step env sw heap).1 ∧
      ∀ i a, C i a → (F.step env sw heap').2 i a = (F.step env sw heap).2 i a := by
  cases F with
  | arriving pkt => exact ⟨rfl, hheap⟩
  | running g k stack σ =>
      cases stack with
      | nil =>
          refine ⟨?_, hheap⟩
          show g.leave env sw (σ.within heap') = g.leave env sw (σ.within heap)
          cases g with
          | ingress pkt iter => rfl
          | egress iter n words => cases iter <;> rfl
      | cons instr stack =>
          obtain ⟨ρ, v, -, h, h'⟩ := slot_local env sw (g.stage k) instr (σ.within heap) heap' fun hcell => hheap _ _ (hC _ _ hcell)
          rw [PacketState.within_within] at h'
          simp only [step, h, h']
          refine ⟨rfl, fun i a hCa => ?_⟩
          rw [PacketState.heap_within, PacketState.heap_within, store_apply, store_apply]
          simp only [PacketState.heap_within]
          rw [hheap i a hCa]
  | waiting iter n words σ => exact ⟨rfl, hheap⟩
  | departed σ => exact ⟨rfl, hheap⟩

/-- **A step changes no word of another function.** -/
theorem step_frame {i : Stage} {a : Word} (hcell : ¬sw.Cell F.fid i a) :
    (F.step env sw heap).2 i a = heap i a := by
  cases F with
  | arriving pkt => rfl
  | running g k stack σ =>
      cases stack with
      | nil => rfl
      | cons instr stack =>
          obtain ⟨ρ, v, hv, h, -⟩ := slot_local env sw (g.stage k) instr (σ.within heap) heap fun _ => rfl
          simp only [step, h]
          rw [PacketState.heap_within, store_apply, PacketState.heap_within]
          split_ifs with hword
          · obtain ⟨rfl, rfl⟩ := hword
            rw [hv hcell]
            rfl
          · rfl
  | waiting iter n words σ => rfl
  | departed σ => rfl

/-! ### How long a packet is on its way -/

/-- How many steps a packet has before it, at most. -/
def stepsLeft : Flight → ℕ
  | .arriving _ => 144
  | .running (.ingress _ iter) _ stack _ => stack.length + 1 + 12 * (iter + 1)
  | .running (.egress iter _ _) _ stack _ => stack.length + 1 + 12 * iter
  | .waiting iter _ _ _ => 12 * (iter + 1)
  | .departed _ => 0

theorem mirrorIter_le (sw : Switch) (pkt : Arrival) : mirrorIter sw pkt ≤ 10 := by
  unfold mirrorIter
  split_ifs <;> omega

theorem stepsLeft_leave (g : Gress) (k : ℕ) (σ τ : PacketState) :
    (g.leave env sw σ).stepsLeft < (Flight.running g k [] τ).stepsLeft := by
  cases g with
  | ingress pkt iter =>
      simp only [Gress.leave]
      split_ifs <;> simp [stepsLeft]
  | egress iter n words =>
      cases iter with
      | zero => simp [Gress.leave, stepsLeft]
      | succ iter =>
          simp only [Gress.leave]
          split_ifs <;> simp [stepsLeft]

/-- **Every step brings a packet closer to its departure**, whatever the tables and the memory are. -/
theorem step_stepsLeft (F : Flight) (heap : Stages) :
    (F.step env sw heap).1.stepsLeft ≤ F.stepsLeft - 1 := by
  cases F with
  | arriving pkt =>
      have hstack : ((ingressStack pkt).take 10).length ≤ 10 := List.length_take_le ..
      have hiter := mirrorIter_le sw pkt
      simp only [step, stepsLeft]
      omega
  | running g k stack σ =>
      cases stack with
      | nil => exact Nat.le_pred_of_lt (stepsLeft_leave g k (σ.within heap) σ)
      | cons instr stack =>
          cases g <;> simp only [step, stepsLeft, List.length_cons] <;> omega
  | waiting iter n words σ =>
      have hstack : ((egressStack words σ).take 10).length ≤ 10 := List.length_take_le ..
      simp only [step, stepsLeft]
      omega
  | departed σ => rfl

theorem departed_of_stepsLeft (h : F.stepsLeft = 0) : ∃ σ, F = .departed σ := by
  cases F with
  | arriving pkt => exact absurd h (by simp [stepsLeft])
  | running g k stack σ => cases g <;> exact absurd h (by simp [stepsLeft])
  | waiting iter n words σ => exact absurd h (by simp [stepsLeft])
  | departed σ => exact ⟨σ, rfl⟩

/-! ### A packet alone -/

/-- The next step of a packet that is alone. -/
def advance (env : Environment) (sw : Switch) (x : Flight × Stages) : Flight × Stages :=
  x.1.step env sw x.2

/-- A packet that has left stays where it is. -/
theorem advance_departed (σ : PacketState) (heap : Stages) (n : ℕ) :
    (advance env sw)^[n] (.departed σ, heap) = (.departed σ, heap) :=
  Function.iterate_fixed rfl n

/-- **The slots of a pipeline**, one after the other. -/
theorem advance_slots (g : Gress) (k : ℕ) (stack : List ActiveInstr) (σ : PacketState) :
    (advance env sw)^[stack.length] (.running g k stack σ.alone, σ.heap) =
      (.running g (k + stack.length) [] (runSlots env sw g.stage k stack σ).2.alone,
        (runSlots env sw g.stage k stack σ).2.heap) := by
  induction stack generalizing k σ with
  | nil => rfl
  | cons instr stack ih =>
      rw [List.length_cons, Function.iterate_succ_apply]
      have hstep : advance env sw (.running g k (instr :: stack) σ.alone, σ.heap) =
          (.running g (k + 1) stack (slot env sw (g.stage k) instr σ).alone,
            (slot env sw (g.stage k) instr σ).heap) := rfl
      rw [hstep, ih, Nat.add_right_comm, ← Nat.add_assoc]
      rfl

/-- A whole pipeline, and where the packet goes then. -/
theorem advance_pipeline (g : Gress) (stack : List ActiveInstr) (σ : PacketState) :
    (advance env sw)^[stack.length + 1] (.running g 0 stack σ.alone, σ.heap) =
      (g.leave env sw (runSlots env sw g.stage 0 stack σ).2, (runSlots env sw g.stage 0 stack σ).2.heap) := by
  rw [Function.iterate_succ_apply', advance_slots]
  rfl

/-- **The passes of the egress pipeline.** -/
theorem advance_egress (env : Environment) (sw : Switch) (iter n : ℕ) (words : List ActiveInstr) (σ : PacketState) :
    ∃ m, (advance env sw)^[m] (.waiting iter n words σ.alone, σ.heap) =
      (.departed (egressPasses env sw iter n words σ).2.alone,
        (egressPasses env sw iter n words σ).2.heap) := by
  -- one pass
  have hpass : ∀ iter n words σ, ∃ m, (advance env sw)^[m] (.waiting iter n words σ.alone, σ.heap) =
      ((Gress.egress iter n (remaining words σ)).leave env sw (egressPass env sw n words σ).2,
        (egressPass env sw n words σ).2.heap) := fun iter n words σ =>
    ⟨((egressStack words σ).take 10).length + 1 + 1, by
      rw [Function.iterate_succ_apply]
      exact advance_pipeline (.egress iter n (remaining words σ)) ((egressStack words σ).take 10)
        (egressStart env n σ)⟩
  induction iter generalizing n words σ with
  | zero => exact hpass 0 n words σ
  | succ iter ih =>
      obtain ⟨m, hm⟩ := hpass (iter + 1) n words σ
      by_cases hmirror : Mirrored (egressPass env sw n words σ).2
      · obtain ⟨m', hm'⟩ := ih (n + 1) (remaining words σ) (mirror (egressPass env sw n words σ).2)
        refine ⟨m' + m, ?_⟩
        rw [Function.iterate_add_apply, hm, egressPasses_succ hmirror]
        simp only [Gress.leave, if_pos hmirror]
        exact hm'
      · refine ⟨m, ?_⟩
        rw [hm, egressPasses_succ_of_not hmirror]
        simp only [Gress.leave, if_neg hmirror]

/-- How many steps a packet that is alone has before it. -/
theorem stepsLeft_advance (env : Environment) (sw : Switch) (n : ℕ) (x : Flight × Stages) :
    ((advance env sw)^[n] x).1.stepsLeft ≤ x.1.stepsLeft - n := by
  induction n with
  | zero => rfl
  | succ n ih =>
      rw [Function.iterate_succ_apply']
      have hstep : (advance env sw ((advance env sw)^[n] x)).1.stepsLeft ≤ _ := step_stepsLeft _ _
      exact hstep.trans (by omega)

/-- A packet that is alone departs as `process` says, some time. -/
theorem exists_alone (env : Environment) (sw : Switch) (pkt : Arrival) (heap : Stages) :
    ∃ m, (advance env sw)^[m] (.arriving pkt, heap) =
      (.departed (process env sw (pkt.within heap)).2.alone, (process env sw (pkt.within heap)).2.heap) := by
  have hstart : (advance env sw)^[((ingressStack pkt).take 10).length + 1 + 1] (.arriving pkt, heap) =
      (if (ingressPass env sw (pkt.within heap)).2.dropped ||
            (ingressPass env sw (pkt.within heap)).2.bypassEgress then
          .departed (ingressPass env sw (pkt.within heap)).2.alone
        else .waiting (mirrorIter sw (pkt.within heap)) 0 (egressWords env sw (pkt.within heap))
          (ingressPass env sw (pkt.within heap)).2.alone,
        (ingressPass env sw (pkt.within heap)).2.heap) := by
    rw [Function.iterate_succ_apply]
    exact advance_pipeline (.ingress pkt (mirrorIter sw pkt)) ((ingressStack pkt).take 10)
      (ingressStart env (pkt.within heap))
  generalize pkt.within heap = pkt' at hstart ⊢
  by_cases hstop : ((ingressPass env sw pkt').2.dropped || (ingressPass env sw pkt').2.bypassEgress) = true
  · refine ⟨_, hstart.trans ?_⟩
    rw [process_stopped (by simpa using hstop), if_pos hstop]
  · obtain ⟨hdrop, hbypass⟩ : (ingressPass env sw pkt').2.dropped = false ∧
        (ingressPass env sw pkt').2.bypassEgress = false := by simpa using hstop
    obtain ⟨m, hm⟩ := advance_egress env sw (mirrorIter sw pkt') 0 (egressWords env sw pkt')
      (ingressPass env sw pkt').2
    refine ⟨m + (((ingressStack pkt).take 10).length + 1 + 1), ?_⟩
    rw [Function.iterate_add_apply, hstart, process_goes_on hdrop hbypass, if_neg hstop]
    exact hm

/-- **A packet that is alone departs as `process` says**, within its steps. -/
theorem alone (env : Environment) (sw : Switch) (pkt : Arrival) (heap : Stages) {n : ℕ} (hn : 144 ≤ n) :
    (advance env sw)^[n] (.arriving pkt, heap) =
      (.departed (process env sw (pkt.within heap)).2.alone, (process env sw (pkt.within heap)).2.heap) := by
  obtain ⟨m, hm⟩ := exists_alone env sw pkt heap
  rcases le_total m n with hmn | hnm
  · obtain ⟨d, rfl⟩ := Nat.exists_eq_add_of_le' hmn
    rw [Function.iterate_add_apply, hm, advance_departed]
  · -- it has left by now
    obtain ⟨d, rfl⟩ := Nat.exists_eq_add_of_le' hnm
    obtain ⟨σ, hσ⟩ := departed_of_stepsLeft (F := ((advance env sw)^[n] (.arriving pkt, heap)).1) (by
      have hleft : _ ≤ 144 - n := stepsLeft_advance env sw n (.arriving pkt, heap)
      omega)
    rw [Function.iterate_add_apply] at hm
    generalize (advance env sw)^[n] (.arriving pkt, heap) = x at hm hσ ⊢
    obtain ⟨F, heap'⟩ := x
    obtain rfl : F = .departed σ := hσ
    rwa [advance_departed] at hm

end Flight

end ActiveRmt
