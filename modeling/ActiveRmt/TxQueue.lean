/-
**The transmit queue of a client.**

Packets wait for the transmitting thread in an array.  Two indices say where the first and the last of
them are, and minus one in both says that there is none.  Taking a packet out answers with the new head:
for the last packet this is minus one, which the transmitting thread reads as "nothing to send".  The
packet generator has the same queue of programs, but its reader answers with the program itself.

The tail never passes the end of the array: a packet is refused once it stands there, whether or not the
cells before the head are free again.

Main definitions:

* `PktQueue` — the array and its indices; `enqueuePkt`, `dequeuePkt`, `txIteration` — the code;
* `stored` — the packets from the head to the tail, around the end of the array;
* `TxState.run` — an interleaving of the two threads, with what was accepted and what was sent;
* `Fifo` — what the queue promises about such an interleaving.

Main results:

* `Ring.enqueuePkt`, `Ring.txIteration` — **what one call does to the stored packets**;
* `fifo_iff` — **exactly when an interleaving keeps the promise**;
* `fifo_drops_single` — a packet that is alone in the queue is taken out and not sent;
* `Ring.dequeueProgram` — the packet generator gets every program.
-/

import ActiveRmt.Switch
import Mathlib.Data.List.Induction

set_option relaxedAutoImplicit false
set_option autoImplicit false

namespace ActiveRmt

/-! ### The code -/

/-- `tx_queue_t`, and `active_queue_t` of the packet generator. -/
structure PktQueue (α : Type) where
  /-- `qhead`. -/
  qhead : ℤ
  /-- `qtail`. -/
  qtail : ℤ
  /-- `packets`, whatever they are at first. -/
  packets : ℕ → α

namespace PktQueue

variable {α : Type} (queuelen : ℕ)

/-- `init_queue`. -/
def initQueue (queue : PktQueue α) : PktQueue α := { queue with qhead := -1, qtail := -1 }

/-- `is_queue_empty`. -/
def isQueueEmpty (queue : PktQueue α) : Bool := queue.qhead = -1

/-- `enqueue_pkt`: minus one for an overflow. -/
def enqueuePkt (queue : PktQueue α) (pkt : α) : ℤ × PktQueue α :=
  if (0 ≤ queue.qhead ∧ queue.qtail = queuelen - 1) ∨ queue.qhead = queue.qtail + 1 then (-1, queue)
  else
    let qhead := if queue.qhead = -1 then 0 else queue.qhead
    let qtail := (queue.qtail + 1).tmod queuelen
    (qtail, ⟨qhead, qtail, Function.update queue.packets qtail.toNat pkt⟩)

/-- `dequeue_pkt`: the head that is left, and the packet that is written to the argument. -/
def dequeuePkt (queue : PktQueue α) : ℤ × Option α × PktQueue α :=
  if queue.qhead = -1 then (-1, none, queue)
  else
    let pkt := queue.packets queue.qhead.toNat
    let queue' : PktQueue α :=
      if queue.qhead = queue.qtail then { queue with qhead := -1, qtail := -1 }
      else { queue with qhead := (queue.qhead + 1).tmod queuelen }
    (queue'.qhead, some pkt, queue')

/-- One iteration of `tx_loop`: the packet that is sent, if there is one. -/
def txIteration (queue : PktQueue α) : Option α × PktQueue α :=
  let (ret, pkt, queue') := queue.dequeuePkt queuelen
  if ret < 0 then (none, queue') else (pkt, queue')

/-- `enqueue_program` of the packet generator: the same code. -/
def enqueueProgram (queue : PktQueue α) (program : α) : ℤ × PktQueue α :=
  queue.enqueuePkt queuelen program

/-- `dequeue_program` of the packet generator: the cell of the program. -/
def dequeueProgram (queue : PktQueue α) : Option ℕ × PktQueue α :=
  if queue.qhead = -1 then (none, queue)
  else
    let program := queue.qhead.toNat
    if queue.qhead = queue.qtail then (some program, { queue with qhead := -1, qtail := -1 })
    else (some program, { queue with qhead := (queue.qhead + 1).tmod queuelen })

/-- The packets that wait, in the order of the array. -/
def stored (queue : PktQueue α) : List α :=
  if queue.qhead = -1 then []
  else (List.range (((queue.qtail - queue.qhead) % queuelen).toNat + 1)).map fun k : ℕ =>
    queue.packets ((queue.qhead + k) % queuelen).toNat

end PktQueue

/-- What a thread may do to the queue. -/
inductive TxOp (α : Type) where
  /-- A packet is handed to `enqueue_pkt`. -/
  | enqueuePkt (pkt : α)
  /-- `tx_loop` makes an iteration. -/
  | txLoop

/-- The queue, and what became of the packets so far. -/
structure TxState (α : Type) where
  /-- The queue. -/
  queue : PktQueue α
  /-- The packets that were accepted. -/
  accepted : List α
  /-- The packets that were sent. -/
  sent : List α

namespace TxState

variable {α : Type} (queuelen : ℕ)

/-- A queue that was just initialised. -/
def init (queue : PktQueue α) : TxState α := ⟨queue.initQueue, [], []⟩

/-- One call. -/
def step (s : TxState α) : TxOp α → TxState α
  | .enqueuePkt pkt =>
      let (ret, queue) := s.queue.enqueuePkt queuelen pkt
      { s with queue := queue, accepted := if ret = -1 then s.accepted else s.accepted ++ [pkt] }
  | .txLoop =>
      let (pkt, queue) := s.queue.txIteration queuelen
      { s with queue := queue, sent := s.sent ++ pkt.toList }

/-- The calls of an interleaving, one after the other. -/
def run (s : TxState α) (ops : List (TxOp α)) : TxState α := ops.foldl (step queuelen) s

@[simp] theorem run_nil (s : TxState α) : s.run queuelen [] = s := rfl

@[simp] theorem run_concat (s : TxState α) (ops : List (TxOp α)) (op : TxOp α) :
    s.run queuelen (ops ++ [op]) = (s.run queuelen ops).step queuelen op := by
  rw [run, List.foldl_append]
  rfl

end TxState

/-- **A bounded queue, first in first out.**  At any time the accepted packets are those that were
sent, in this order, and those that wait; a packet is refused when the queue is full. -/
def Fifo {α : Type} (queuelen : ℕ) (queue : PktQueue α) (ops : List (TxOp α)) : Prop :=
  ∀ calls, calls <+: ops →
    let s := (TxState.init queue).run queuelen calls
    s.accepted = s.sent ++ s.queue.stored queuelen ∧
      ∀ pkt, calls ++ [.enqueuePkt pkt] <+: ops → (s.queue.enqueuePkt queuelen pkt).1 = -1 →
        (s.queue.stored queuelen).length = queuelen

/-! ### What one call does -/

/-- The indices of a queue that was initialised. -/
inductive Ring {α : Type} (queuelen : ℕ) : PktQueue α → Prop
  | empty (packets : ℕ → α) : Ring queuelen ⟨-1, -1, packets⟩
  | span (packets : ℕ → α) {h t : ℕ} (hht : h ≤ t) (ht : t < queuelen) : Ring queuelen ⟨h, t, packets⟩

namespace Ring

variable {α : Type} {queuelen : ℕ} {queue : PktQueue α}

theorem init (queue : PktQueue α) : Ring queuelen queue.initQueue := .empty queue.packets

@[simp] theorem stored_empty (packets : ℕ → α) :
    (⟨-1, -1, packets⟩ : PktQueue α).stored queuelen = [] := rfl

/-- The packets from the head to the tail. -/
theorem stored_span (packets : ℕ → α) {h t : ℕ} (hht : h ≤ t) (ht : t < queuelen) :
    (⟨h, t, packets⟩ : PktQueue α).stored queuelen =
      (List.range' h (t + 1 - h)).map packets := by
  have hcount : (((t : ℤ) - h) % queuelen).toNat + 1 = t + 1 - h := by
    rw [Int.emod_eq_of_lt (by omega) (by omega)]
    omega
  rw [PktQueue.stored, if_neg (by dsimp only; omega), hcount, List.range'_eq_map_range, List.map_map]
  refine List.map_congr_left fun k hk => ?_
  rw [List.mem_range] at hk
  have hcell : (((h : ℤ) + k) % queuelen).toNat = h + k := by
    rw [Int.emod_eq_of_lt (by omega) (by omega)]
    omega
  rw [hcell]
  rfl

theorem length_stored_span (packets : ℕ → α) {h t : ℕ} (hht : h ≤ t) (ht : t < queuelen) :
    ((⟨h, t, packets⟩ : PktQueue α).stored queuelen).length = t + 1 - h := by
  rw [stored_span packets hht ht, List.length_map, List.length_range']

/-- The head is the first of the stored packets. -/
theorem stored_cons (packets : ℕ → α) {h t : ℕ} (hht : h < t) (ht : t < queuelen) :
    (⟨h, t, packets⟩ : PktQueue α).stored queuelen =
      packets h :: (⟨(h + 1 : ℕ), t, packets⟩ : PktQueue α).stored queuelen := by
  rw [stored_span packets hht.le ht, stored_span packets hht ht]
  have hcount : t + 1 - h = (t + 1 - (h + 1)) + 1 := by omega
  rw [hcount, List.range'_succ, List.map_cons]

/-- A packet behind the tail is the last of the stored packets. -/
theorem stored_update (packets : ℕ → α) (pkt : α) {h t : ℕ} (hht : h ≤ t) (ht : t + 1 < queuelen) :
    (⟨h, (t + 1 : ℕ), Function.update packets (t + 1) pkt⟩ : PktQueue α).stored queuelen =
      (⟨h, t, packets⟩ : PktQueue α).stored queuelen ++ [pkt] := by
  rw [stored_span _ (by omega) ht, stored_span _ hht (by omega)]
  have hcount : t + 1 + 1 - h = (t + 1 - h) + 1 := by omega
  have hlast : h + 1 * (t + 1 - h) = t + 1 := by omega
  rw [hcount, List.range'_concat, hlast, List.map_append, List.map_singleton, Function.update_self]
  congr 1
  refine List.map_congr_left fun k hk => Function.update_of_ne ?_ _ _
  have := List.mem_range'_1.1 hk
  omega

/-- **A packet is refused**, and the queue is left alone, **when the tail stands at the end of the
array**. -/
theorem enqueuePkt_refused (hq : Ring queuelen queue) (pkt : α) :
    (queue.enqueuePkt queuelen pkt).1 = -1 ↔ 0 ≤ queue.qhead ∧ queue.qtail = queuelen - 1 := by
  cases hq with
  | empty packets =>
      simp [PktQueue.enqueuePkt]
  | span packets hht ht =>
      rename_i h t
      unfold PktQueue.enqueuePkt
      by_cases hend : t = queuelen - 1
      · rw [if_pos (.inl ⟨by simp, by simp only; omega⟩)]
        simp only [true_iff]
        omega
      · have hmod : ((t : ℤ) + 1).tmod queuelen = (t + 1 : ℕ) := by
          rw [Int.tmod_eq_of_lt (by omega) (by omega)]
          rfl
        rw [if_neg (by simp only; omega)]
        simp only [hmod]
        omega

theorem enqueuePkt_of_refused {pkt : α} (h : 0 ≤ queue.qhead ∧ queue.qtail = queuelen - 1) :
    queue.enqueuePkt queuelen pkt = (-1, queue) := if_pos (.inl h)

/-- **A packet that is accepted waits behind the others.** -/
theorem enqueuePkt_accepted (hq : Ring queuelen queue) (hpos : 0 < queuelen) {pkt : α}
    (hend : ¬ (0 ≤ queue.qhead ∧ queue.qtail = queuelen - 1)) :
    Ring queuelen (queue.enqueuePkt queuelen pkt).2 ∧
      (queue.enqueuePkt queuelen pkt).2.stored queuelen = queue.stored queuelen ++ [pkt] := by
  cases hq with
  | empty packets =>
      have hcall : (⟨-1, -1, packets⟩ : PktQueue α).enqueuePkt queuelen pkt =
          (0, ⟨(0 : ℕ), (0 : ℕ), Function.update packets 0 pkt⟩) := by
        simp [PktQueue.enqueuePkt]
      rw [hcall]
      refine ⟨.span _ le_rfl hpos, ?_⟩
      rw [stored_span _ le_rfl hpos]
      simp
  | span packets hht ht =>
      rename_i h t
      have ht' : t + 1 < queuelen := by
        dsimp only at hend
        omega
      have hmod : ((t : ℤ) + 1).tmod queuelen = (t + 1 : ℕ) := by
        rw [Int.tmod_eq_of_lt (by omega) (by omega)]
        rfl
      have hcall : (⟨h, t, packets⟩ : PktQueue α).enqueuePkt queuelen pkt =
          (((t + 1 : ℕ) : ℤ), ⟨h, (t + 1 : ℕ), Function.update packets (t + 1) pkt⟩) := by
        unfold PktQueue.enqueuePkt
        rw [if_neg (by simp only; omega)]
        simp only [hmod, Int.toNat_natCast]
        rw [if_neg (by omega)]
      rw [hcall]
      exact ⟨.span _ (by omega) ht', stored_update packets pkt hht ht'⟩

/-- The three queues that an iteration may find. -/
inductive TxCase (queuelen : ℕ) (queue : PktQueue α) : Prop
  /-- Nothing waits. -/
  | idle (h : queue.stored queuelen = [])
      (hcall : queue.txIteration queuelen = (none, queue))
  /-- One packet waits: it is taken out and not sent. -/
  | drop (pkt : α) (h : queue.stored queuelen = [pkt])
      (hcall : queue.txIteration queuelen = (none, queue.initQueue))
  /-- More packets wait: the first is sent. -/
  | send (pkt : α) (queue' : PktQueue α) (hring : Ring queuelen queue')
      (hne : queue'.stored queuelen ≠ [])
      (h : queue.stored queuelen = pkt :: queue'.stored queuelen)
      (hcall : queue.txIteration queuelen = (some pkt, queue'))

/-- **What an iteration of the transmitting thread does.** -/
theorem txIteration (hq : Ring queuelen queue) : TxCase queuelen queue := by
  cases hq with
  | empty packets => exact .idle rfl rfl
  | span packets hht ht =>
      rename_i h t
      have hne : ¬ ((h : ℤ) = -1) := by omega
      rcases hht.eq_or_lt with rfl | hlt
      · refine .drop (packets h) ?_ ?_
        · rw [stored_span _ le_rfl ht]
          simp
        · simp [PktQueue.txIteration, PktQueue.dequeuePkt, hne, PktQueue.initQueue]
      · have hmod : ((h : ℤ) + 1).tmod queuelen = (h + 1 : ℕ) := by
          rw [Int.tmod_eq_of_lt (by omega) (by omega)]
          rfl
        refine .send (packets h) ⟨(h + 1 : ℕ), t, packets⟩ (.span packets hlt ht) ?_
          (stored_cons packets hlt ht) ?_
        · rw [stored_span _ hlt ht, ne_eq, List.map_eq_nil_iff, List.range'_eq_nil_iff]
          omega
        · have hne' : ¬ ((h : ℤ) = t) := by omega
          have hret : ¬ (((h + 1 : ℕ) : ℤ) < 0) := by omega
          simp only [PktQueue.txIteration, PktQueue.dequeuePkt, if_neg hne, if_neg hne', hmod,
            if_neg hret, Int.toNat_natCast]

/-- **The packet generator gets every program**, the last one too. -/
theorem dequeueProgram (hq : Ring queuelen queue) (hne : queue.stored queuelen ≠ []) :
    ∃ slot queue', queue.dequeueProgram queuelen = (some slot, queue') ∧ Ring queuelen queue' ∧
      queue.stored queuelen = queue.packets slot :: queue'.stored queuelen := by
  cases hq with
  | empty packets => exact absurd rfl hne
  | span packets hht ht =>
      rename_i h t
      have hne' : ¬ ((h : ℤ) = -1) := by omega
      rcases hht.eq_or_lt with rfl | hlt
      · refine ⟨h, ⟨-1, -1, packets⟩, ?_, .empty packets, ?_⟩
        · simp [PktQueue.dequeueProgram, hne']
        · rw [stored_span _ le_rfl ht]
          simp
      · have hmod : ((h : ℤ) + 1).tmod queuelen = (h + 1 : ℕ) := by
          rw [Int.tmod_eq_of_lt (by omega) (by omega)]
          rfl
        have hne'' : ¬ ((h : ℤ) = t) := by omega
        refine ⟨h, ⟨(h + 1 : ℕ), t, packets⟩, ?_, .span packets hlt ht, stored_cons packets hlt ht⟩
        simp only [PktQueue.dequeueProgram, if_neg hne', if_neg hne'', hmod, Int.toNat_natCast]

theorem step {s : TxState α} (hq : Ring queuelen s.queue) (hpos : 0 < queuelen) (op : TxOp α) :
    Ring queuelen (s.step queuelen op).queue := by
  cases op with
  | enqueuePkt pkt =>
      by_cases hend : 0 ≤ s.queue.qhead ∧ s.queue.qtail = queuelen - 1
      · rw [TxState.step, enqueuePkt_of_refused hend]
        exact hq
      · exact (hq.enqueuePkt_accepted hpos hend).1
  | txLoop =>
      cases hq.txIteration with
      | idle _ hcall =>
          rw [TxState.step, hcall]
          exact hq
      | drop _ _ hcall =>
          rw [TxState.step, hcall]
          exact .init s.queue
      | send _ _ hring _ _ hcall =>
          rw [TxState.step, hcall]
          exact hring

/-- The indices stay in the array, however the threads interleave. -/
theorem run (hpos : 0 < queuelen) (queue : PktQueue α) (ops : List (TxOp α)) :
    Ring queuelen ((TxState.init queue).run queuelen ops).queue := by
  induction ops using List.reverseRecOn with
  | nil => exact .init queue
  | append_singleton ops op ih =>
      rw [TxState.run_concat]
      exact ih.step hpos op

end Ring

/-! ### Interleavings -/

/-- A call that the queue serves as it should: a packet is not handed in when the tail stands at the
end of the array behind a head that has moved, and an iteration does not find a single packet. -/
def PktQueue.Serves {α : Type} (queuelen : ℕ) (queue : PktQueue α) : TxOp α → Prop
  | .enqueuePkt _ => 0 < queue.qhead → queue.qtail ≠ queuelen - 1
  | .txLoop => (queue.stored queuelen).length ≠ 1

section Interleavings

variable {α : Type} {queuelen : ℕ} {s : TxState α}

/-- A call that is served keeps the accepted packets together. -/
theorem TxState.step_of_serves (hpos : 0 < queuelen) (hq : Ring queuelen s.queue)
    (hs : s.accepted = s.sent ++ s.queue.stored queuelen) {op : TxOp α}
    (hserves : s.queue.Serves queuelen op) :
    (s.step queuelen op).accepted =
      (s.step queuelen op).sent ++ (s.step queuelen op).queue.stored queuelen := by
  cases op with
  | enqueuePkt pkt =>
      by_cases hend : 0 ≤ s.queue.qhead ∧ s.queue.qtail = queuelen - 1
      · simp only [TxState.step, Ring.enqueuePkt_of_refused hend]
        simpa using hs
      · have hret := mt (hq.enqueuePkt_refused pkt).1 hend
        simp only [TxState.step, if_neg hret, (hq.enqueuePkt_accepted hpos hend).2, hs,
          List.append_assoc]
  | txLoop =>
      cases hq.txIteration with
      | idle _ hcall =>
          simp only [TxState.step, hcall]
          simpa using hs
      | drop pkt hone _ =>
          have : (s.queue.stored queuelen).length = 1 := by rw [hone, List.length_singleton]
          exact absurd this hserves
      | send pkt queue' _ _ hmore hcall =>
          simp only [TxState.step, hcall, hs, hmore]
          simp

/-- A refusal with the head at the start of the array finds it full. -/
theorem Ring.full_of_refused {queue : PktQueue α} (hq : Ring queuelen queue) {pkt : α}
    (hret : (queue.enqueuePkt queuelen pkt).1 = -1) :
    (queue.stored queuelen).length = queuelen ↔ queue.qhead = 0 := by
  have hend := (hq.enqueuePkt_refused pkt).1 hret
  cases hq with
  | empty packets => exact absurd hend.1 (by simp)
  | span packets hht ht =>
      rw [Ring.length_stored_span packets hht ht]
      dsimp only at hend ⊢
      omega

/-- **When the queue keeps its promise.**  An interleaving of the threads is that of a bounded queue,
first in first out, exactly when no iteration of the transmitting thread finds a single packet and no
packet is handed in when the tail stands at the end of the array behind a head that has moved. -/
theorem fifo_of_pos (hpos : 0 < queuelen) (queue : PktQueue α) (ops : List (TxOp α)) :
    Fifo queuelen queue ops ↔ ∀ calls op, calls ++ [op] <+: ops →
      ((TxState.init queue).run queuelen calls).queue.Serves queuelen op := by
  constructor
  · intro hfifo calls op hcalls
    have hring := Ring.run hpos queue calls
    have hbefore := hfifo calls ((List.prefix_append _ _).trans hcalls)
    have hafter := (hfifo _ hcalls).1
    rw [TxState.run_concat] at hafter
    revert hring hbefore hafter
    generalize (TxState.init queue).run queuelen calls = s
    intro hring hbefore hafter
    cases op with
    | enqueuePkt pkt =>
        intro hhead hend
        have hret := (hring.enqueuePkt_refused pkt).2 ⟨hhead.le, hend⟩
        have := (hring.full_of_refused hret).1 (hbefore.2 pkt hcalls hret)
        omega
    | txLoop =>
        intro hone
        cases hring.txIteration with
        | idle hnil _ => simp [hnil] at hone
        | drop pkt hstored hcall =>
            -- the packet is accepted, neither sent nor stored
            simp only [TxState.step, hcall, hbefore.1, hstored, PktQueue.initQueue] at hafter
            simp at hafter
        | send pkt queue' _ hne hmore _ =>
            rw [hmore, List.length_cons] at hone
            exact hne (List.eq_nil_of_length_eq_zero (Nat.succ.inj hone))
  · intro hserves calls hcalls
    have hring := Ring.run hpos queue calls
    refine ⟨?_, fun pkt hpkt hret => ?_⟩
    · induction calls using List.reverseRecOn with
      | nil => rfl
      | append_singleton calls op ih =>
          have hprefix := (List.prefix_append _ _).trans hcalls
          rw [TxState.run_concat]
          exact TxState.step_of_serves hpos (Ring.run hpos queue calls)
            (ih hprefix (Ring.run hpos queue calls)) (hserves calls op hcalls)
    · have hhead := (hring.enqueuePkt_refused pkt).1 hret
      rw [hring.full_of_refused hret]
      by_contra hne
      exact hserves calls _ hpkt (lt_of_le_of_ne hhead.1 (Ne.symm hne)) hhead.2

end Interleavings

/-- `QUEUELEN`. -/
def queueLen : ℕ := 1024

/-- **The transmit queue** as it is declared. -/
theorem fifo_iff {α : Type} (queue : PktQueue α) (ops : List (TxOp α)) :
    Fifo queueLen queue ops ↔ ∀ calls op, calls ++ [op] <+: ops →
      ((TxState.init queue).run queueLen calls).queue.Serves queueLen op :=
  fifo_of_pos (by decide) queue ops

/-- **A packet that is alone in the queue is lost**: it is taken out, and the head that is left reads
as an empty queue. -/
theorem fifo_drops_single :
    ¬ Fifo queueLen (⟨-1, -1, fun _ => 0⟩ : PktQueue ℕ) [.enqueuePkt 7, .txLoop] := by
  intro hfifo
  have hlost := (hfifo _ (List.prefix_refl _)).1
  revert hlost
  decide

end ActiveRmt
