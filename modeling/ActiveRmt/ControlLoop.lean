/-
**The control loop of a client, step by step.**

Beside the receive filter a second core runs the control loop.  It looks at the status of a context
and runs the case of it; the cases that read or write memory are loops over the words of the client,
and while such a loop runs, the receive filter goes on.  The two share the status and the memory
regions, so the unit of interleaving is one test or one word of a loop on one side, one packet on the
other.

The loops share three progress variables.  `ControlPoint` says where the loop stands: in a loop with
the words that are left of the current pass, none of them left at the test of the `while`.

The callbacks of the application, the timer and the memory pool decide some things; a `Choice` says
what they decide in a step.  The ranges that a pass goes through are read when it starts: the filter
stores ranges in other statuses only.

Main definitions:

* `Client` — a context, the place of the control loop and its progress variables;
* `Choice`, `Client.control` — **a step of the control loop**;
* `ClientEvent`, `Client.handle` — a step of either core.

Main results:

* `rxControl_cases` — **what a packet can do to a context**, guards included;
* `Received.view`, `view_control` — only the adoption of a response changes the allocation or a
  program.
-/

import ActiveRmt.Client

set_option relaxedAutoImplicit false
set_option autoImplicit false

namespace ActiveRmt

/-! ### What a packet can do -/

/-- A response that the filter takes over. -/
def Context.adopts (c : Context) (pkt : RxPacket) : Prop :=
  (c.status = .allocating ∨ c.status = .reallocating) ∧
    testFlag pkt.header.flags flagAllocated = true ∧ c.allocation.version ≠ pkt.header.seq

instance (c : Context) (pkt : RxPacket) : Decidable (c.adopts pkt) :=
  inferInstanceAs (Decidable (_ ∧ _))

/-- **What a packet can do to a context.** -/
inductive Received (c : Context) (pkt : RxPacket) : Context → Prop
  /-- The request has arrived. -/
  | granted (h : c.status = .initializing) : Received c pkt { c with status := .allocating }
  /-- A response is adopted. -/
  | adopted {c' : Context} (h : c.adopts pkt) (h' : adopt c pkt = some c') : Received c pkt c'
  /-- A word has been read. -/
  | read (h : c.status = .snapshotting) (hr : pkt.isReply = true) :
      Received c pkt (recordReply c pkt)
  /-- A word has been written. -/
  | written (h : c.status = .remapping ∨ c.status = .updating) (hr : pkt.isReply = true) :
      Received c pkt (recordWrite c pkt)
  /-- A remap notice; it may be a reply as well. -/
  | remapped (d : Context) (hd : d = c ∨ d = recordWrite c pkt)
      (h : c.status = .updating ∨ c.status = .transmitting) (hn : c.isRemapNotice pkt = true) :
      Received c pkt (acceptRemap d pkt.header.seq)
  /-- Nothing. -/
  | ignored (h : ¬ c.adopts pkt) : Received c pkt c

theorem isRemapNotice_recordWrite (c : Context) (pkt : RxPacket) :
    (recordWrite c pkt).isRemapNotice pkt = c.isRemapNotice pkt := by
  unfold recordWrite
  split <;> rfl

theorem received_rxTransmitting {c d : Context} {pkt : RxPacket}
    (hst : c.status = .updating ∨ c.status = .transmitting) (hd : d = c ∨ d = recordWrite c pkt)
    (hrest : Received c pkt d) : Received c pkt (rxTransmitting d pkt) := by
  have hsame : d.isRemapNotice pkt = c.isRemapNotice pkt := by
    rcases hd with rfl | rfl
    · rfl
    · exact isRemapNotice_recordWrite c pkt
  unfold rxTransmitting
  split_ifs with hn
  · exact .remapped d hd hst (hsame ▸ hn)
  · exact hrest

theorem rxControl_cases {c c' : Context} {pkt : RxPacket} (h : rxControl c pkt = some c') :
    Received c pkt c' := by
  have hno : c.status ≠ .allocating → c.status ≠ .reallocating → ¬ c.adopts pkt :=
    fun h₁ h₂ ha => ha.1.elim h₁ h₂
  unfold rxControl at h
  cases hst : c.status <;> rw [hst] at h <;> dsimp only at h
  case initializing =>
      obtain rfl := Option.some.inj h
      split_ifs
      · exact .granted hst
      · exact .ignored (hno (by simp [hst]) (by simp [hst]))
  case allocating | reallocating =>
      split_ifs at h with hf
      · exact .adopted ⟨by simp [hst], hf⟩ h
      · obtain rfl := Option.some.inj h
        exact .ignored fun ha => hf ha.2
  case snapshotting =>
      obtain rfl := Option.some.inj h
      split_ifs with hr
      · exact .read hst hr
      · exact .ignored (hno (by simp [hst]) (by simp [hst]))
  case remapping =>
      obtain rfl := Option.some.inj h
      split_ifs with hr
      · exact .written (.inl hst) hr
      · exact .ignored (hno (by simp [hst]) (by simp [hst]))
  case updating =>
      obtain rfl := Option.some.inj h
      split_ifs with hr
      · exact received_rxTransmitting (.inl hst) (.inr rfl) (.written (.inr hst) hr)
      · exact received_rxTransmitting (.inl hst) (.inl rfl)
          (.ignored (hno (by simp [hst]) (by simp [hst])))
  case transmitting =>
      obtain rfl := Option.some.inj h
      exact received_rxTransmitting (.inr hst) (.inl rfl)
        (.ignored (hno (by simp [hst]) (by simp [hst])))
  case snapcompleting | deallocating | deallocwait =>
      obtain rfl := Option.some.inj h
      exact .ignored (hno (by simp [hst]) (by simp [hst]))

/-! ### The control loop -/

/-- What the control loop sends. -/
inductive TxPacket
  /-- `construct_reqalloc_packet`. -/
  | reqalloc
  /-- `construct_getalloc_packet`. -/
  | getalloc
  /-- `construct_snapshot_packet` with `complete`. -/
  | snapshotComplete
  /-- `construct_snapshot_packet` for a word. -/
  | snapshot (s : Stage) (addr : ℕ)
  /-- `construct_memremap_packet`. -/
  | memremap (s : Stage) (addr : ℕ) (data : BitVec 32)
  /-- `construct_heartbeat_packet`. -/
  | heartbeat

/-- Where the control loop stands with a context. -/
inductive ControlPoint
  /-- Before the switch over the status. -/
  | dispatch
  /-- In the loop that reads, with the words left of the pass. -/
  | snapshotting (todo : List (Stage × ℕ))
  /-- In the loop that invalidates. -/
  | invalidating (todo : List (Stage × ℕ))
  /-- The snapshot is complete. -/
  | snapshotted
  /-- In the loop that writes. -/
  | resetting (todo : List (Stage × ℕ))
  /-- The memory is written. -/
  | reset
  deriving DecidableEq

/-- The progress variables of `lcore_control`. -/
structure InProgress where
  /-- `snapshotting_in_progress`. -/
  snapshotting : Bool
  /-- `remapping_in_progress`. -/
  remapping : Bool
  /-- `invalidating_in_progress`. -/
  invalidating : Bool

/-- **A client**: a context and the control loop. -/
structure Client where
  /-- The context. -/
  ctxt : Context
  /-- Where the control loop stands. -/
  point : ControlPoint
  /-- Its progress variables. -/
  inProgress : InProgress

/-- What `memory_invalidate` does, by application. -/
inductive Invalidation
  /-- `memory_invalidate_lb`: nothing. -/
  | lb
  /-- `memory_invalidate_cache`: the words are zero now. -/
  | cache
  /-- `memory_invalidate_hh`: the words are zero and not known to be written. -/
  | hh

/-- `clear_memory_regions`. -/
def MemoryRegion.clear (r : MemoryRegion) : MemoryRegion :=
  { r with syncData := fun s => { r.syncData s with data := fun _ => 0, valid := fun _ => false } }

/-- The region after `memory_invalidate`, and whether there is something to write. -/
def Invalidation.apply (r : MemoryRegion) : Invalidation → MemoryRegion × Bool
  | .lb => (r, false)
  | .cache =>
      ({ r with
        syncData := fun s => { r.syncData s with data := fun _ => 0 }
        syncmap := r.validStages }, true)
  | .hh => ({ r.clear with syncmap := r.validStages }, true)

/-- What the timer of an application does. -/
inductive Timer
  /-- `timer_lb`, or a timer that does not fire. -/
  | lb
  /-- `timer_cache`: new words are to be written, if there are any. -/
  | cache (data : Stage → ℕ → BitVec 32) (stored : Bool)
  /-- `timer_hh`: some stages are to be read. -/
  | hh (syncmap : Stage → Bool)

/-- `memset` of a region. -/
def MemoryRegion.zero : MemoryRegion where
  invalid := false
  syncData := fun _ => ⟨fun _ => 0, fun _ => false, 0, 0⟩
  validStages := fun _ => false
  syncmap := fun _ => false
  version := 0
  syncVersion := 0

/-- The context after the timer. -/
def Timer.apply (c : Context) : Timer → Context
  | .lb => c
  | .cache data stored =>
      { c with
        membuf := { MemoryRegion.zero with
          syncData := fun s => ⟨data s, fun _ => false, 0, 0⟩ }
        allocation := { c.allocation with syncmap := c.allocation.validStages }
        status := if stored then .updating else c.status }
  | .hh syncmap =>
      { c with allocation := { c.allocation.clear with syncmap := syncmap }, status := .snapshotting }

/-- **What a step of the control loop does not decide itself.** -/
structure Choice where
  /-- There is a buffer for a packet, and it is time to send one. -/
  mbuf : Bool
  /-- `memory_invalidate`. -/
  invalidation : Invalidation
  /-- What `memory_reset` returns.  It leaves the region alone in every application. -/
  reset : Bool
  /-- The timer. -/
  timer : Timer

/-- The words of the stages that are valid, in the order of the loops. -/
def MemoryRegion.words (r : MemoryRegion) : List (Stage × ℕ) :=
  ((List.finRange 20).filter r.validStages).flatMap fun s =>
    (List.range' (r.syncData s).memStart.toNat
      ((r.syncData s).memEnd.toNat + 1 - (r.syncData s).memStart.toNat)).map (s, ·)

/-- The regions and marks that a write starts with. -/
def MemoryRegion.prepare (r allocation : MemoryRegion) : MemoryRegion :=
  { r with
    validStages := allocation.validStages
    syncData := fun s => { r.syncData s with
      memStart := (allocation.syncData s).memStart, memEnd := (allocation.syncData s).memEnd } }

namespace Client

variable (c : Client) (ch : Choice)

/-- Packets are sent if there are buffers. -/
def sends (pkts : List TxPacket) : List TxPacket := if ch.mbuf then pkts else []

/-- The switch over the status. -/
def dispatch : Client × List TxPacket :=
  match c.ctxt.status with
  | .initializing => (c, sends ch [.reqalloc])
  | .reallocating => (c, sends ch [.getalloc, .snapshotComplete])
  | .allocating => (c, sends ch [.getalloc])
  | .snapshotting =>
      ({ c with
        point := .snapshotting []
        inProgress := { c.inProgress with snapshotting := true } }, [])
  | .updating | .remapping =>
      ({ ctxt := { c.ctxt with membuf := c.ctxt.membuf.prepare c.ctxt.allocation }
         point := if ch.reset then .resetting [] else .reset
         inProgress := { c.inProgress with remapping := true } }, [])
  | .transmitting => ({ c with ctxt := ch.timer.apply c.ctxt }, sends ch [.heartbeat])
  | .snapcompleting | .deallocating | .deallocwait => (c, [])

/-- A word of the pass that reads. -/
def visitSnapshot (x : Stage × ℕ) (todo : List (Stage × ℕ)) : Client × List TxPacket :=
  if c.ctxt.allocation.validStages x.1 = false ∨ c.ctxt.allocation.syncmap x.1 = false ∨
      (c.ctxt.allocation.syncData x.1).valid x.2 = true then
    ({ c with point := .snapshotting todo }, [])
  else
    ({ c with
      point := .snapshotting todo
      inProgress := { c.inProgress with snapshotting := true } }, sends ch [.snapshot x.1 x.2])

/-- A word of the pass that invalidates. -/
def visitInvalidate (x : Stage × ℕ) (todo : List (Stage × ℕ)) : Client × List TxPacket :=
  if c.ctxt.allocation.validStages x.1 = false ∨
      (c.ctxt.allocation.syncData x.1).valid x.2 = true ∨ c.ctxt.allocation.syncmap x.1 = false then
    ({ c with point := .invalidating todo }, [])
  else
    ({ c with
      point := .invalidating todo
      inProgress := { c.inProgress with invalidating := true } },
      sends ch [.memremap x.1 x.2 ((c.ctxt.allocation.syncData x.1).data x.2)])

/-- A word of the pass that writes: it is the progress variable of the loop that reads that is
set. -/
def visitReset (x : Stage × ℕ) (todo : List (Stage × ℕ)) : Client × List TxPacket :=
  if c.ctxt.allocation.validStages x.1 = false ∨ (c.ctxt.membuf.syncData x.1).valid x.2 = true then
    ({ c with point := .resetting todo }, [])
  else
    ({ c with
      point := .resetting todo
      inProgress := { c.inProgress with snapshotting := true } },
      sends ch [.memremap x.1 x.2 ((c.ctxt.membuf.syncData x.1).data x.2)])

/-- The end of the loop that reads: `consume_memory_objects` and `memory_invalidate`. -/
def leaveSnapshot : Client :=
  let (allocation, invalidates) := ch.invalidation.apply c.ctxt.allocation
  { ctxt := { c.ctxt with allocation := allocation }
    point := if invalidates then .invalidating [] else .snapshotted
    inProgress :=
      { c.inProgress with invalidating := invalidates || c.inProgress.invalidating } }

/-- **A step of the control loop.** -/
def control : Client × List TxPacket :=
  match c.point with
  | .dispatch => c.dispatch ch
  | .snapshotting (x :: todo) => c.visitSnapshot ch x todo
  | .snapshotting [] =>
      if c.inProgress.snapshotting then
        ({ c with
          point := .snapshotting c.ctxt.allocation.words
          inProgress := { c.inProgress with snapshotting := false } }, [])
      else (c.leaveSnapshot ch, [])
  | .invalidating (x :: todo) => c.visitInvalidate ch x todo
  | .invalidating [] =>
      if c.inProgress.invalidating then
        ({ c with
          point := .invalidating c.ctxt.allocation.words
          inProgress := { c.inProgress with invalidating := false } }, [])
      else ({ c with point := .snapshotted }, [])
  | .snapshotted =>
      ({ c with
        ctxt := { c.ctxt with
          status := if c.ctxt.allocation.invalid then .reallocating else .remapping }
        point := .dispatch }, [])
  | .resetting (x :: todo) => c.visitReset ch x todo
  | .resetting [] =>
      if c.inProgress.remapping then
        ({ c with
          point := .resetting c.ctxt.allocation.words
          inProgress := { c.inProgress with remapping := false } }, [])
      else ({ c with point := .reset }, [])
  | .reset =>
      ({ c with ctxt := { c.ctxt with status := .transmitting }, point := .dispatch }, [])

end Client

/-- A step of one of the two cores. -/
inductive ClientEvent
  /-- The filter gets a packet. -/
  | receive (pkt : RxPacket)
  /-- The control loop makes a step. -/
  | control (ch : Choice)

/-- **A step of a client**, unless an assertion fails, with what it sends. -/
def Client.handle (c : Client) : ClientEvent → Option (Client × List TxPacket)
  | .receive pkt => (rxControl c.ctxt pkt).map fun ctxt => ({ c with ctxt := ctxt }, [])
  | .control ch => some (c.control ch)

/-! ### What both cores leave alone -/

/-- **What a client knows of its allocation**, and its programs. -/
def Context.view (c : Context) :
    BitVec 16 × (Stage → Bool) × (Stage → BitVec 32 × BitVec 32) ×
      (ℕ → ActiveProgramDef ActiveInstr) × ℕ :=
  (c.allocation.version, c.allocation.validStages,
    fun s => ((c.allocation.syncData s).memStart, (c.allocation.syncData s).memEnd),
    c.programs, c.currentPid)

/-- The view has the stages and their ranges. -/
theorem Context.stages_of_view {c c' : Context} (h : c'.view = c.view) :
    c'.allocation.validStages = c.allocation.validStages ∧
      ∀ s j, (c'.allocation.syncData s).InRange j ↔ (c.allocation.syncData s).InRange j := by
  simp only [Context.view, Prod.mk.injEq] at h
  obtain ⟨-, hvalid, hranges, -⟩ := h
  refine ⟨hvalid, fun s j => ?_⟩
  have hs := congrFun hranges s
  simp only [Prod.mk.injEq] at hs
  rw [MemoryStage.InRange, MemoryStage.InRange, hs.1, hs.2]

theorem view_recordReply (c : Context) (pkt : RxPacket) : (recordReply c pkt).view = c.view := by
  unfold recordReply
  split
  · rename_i s _
    simp only [Context.view, MemoryRegion.setStage, Prod.mk.injEq, true_and, and_true]
    funext t
    by_cases ht : t = s
    · subst ht
      simp [MemoryStage.record, MemoryStage.markValid]
    · simp [Function.update_of_ne ht]
  · rfl

theorem view_recordWrite (c : Context) (pkt : RxPacket) : (recordWrite c pkt).view = c.view := by
  unfold recordWrite
  split <;> rfl

theorem Received.view {c c' : Context} {pkt : RxPacket} (h : Received c pkt c')
    (hno : ¬ c.adopts pkt) : c'.view = c.view := by
  cases h with
  | granted => rfl
  | adopted h => exact absurd h hno
  | read => exact view_recordReply c pkt
  | written => exact view_recordWrite c pkt
  | remapped d hd =>
      rcases hd with rfl | rfl
      · rfl
      · exact view_recordWrite c pkt
  | ignored => rfl

theorem view_timer (c : Context) (t : Timer) :
    (t.apply c).view = c.view ∧ (t.apply c).allocation.invalid = c.allocation.invalid := by
  cases t <;> exact ⟨rfl, rfl⟩

theorem view_invalidation (c : Context) (i : Invalidation) :
    Context.view { c with allocation := (i.apply c.allocation).1 } = c.view ∧
      (i.apply c.allocation).1.invalid = c.allocation.invalid := by
  cases i <;> exact ⟨rfl, rfl⟩

/-- **The control loop leaves the allocation and the programs alone.** -/
theorem view_control (c : Client) (ch : Choice) :
    (c.control ch).1.ctxt.view = c.ctxt.view ∧
      (c.control ch).1.ctxt.allocation.invalid = c.ctxt.allocation.invalid := by
  unfold Client.control
  split
  · unfold Client.dispatch
    split
    all_goals first | exact ⟨rfl, rfl⟩ | exact view_timer c.ctxt ch.timer
  · unfold Client.visitSnapshot
    split_ifs <;> exact ⟨rfl, rfl⟩
  · split_ifs
    · exact ⟨rfl, rfl⟩
    · exact view_invalidation c.ctxt ch.invalidation
  · unfold Client.visitInvalidate
    split_ifs <;> exact ⟨rfl, rfl⟩
  · split_ifs <;> exact ⟨rfl, rfl⟩
  · exact ⟨rfl, rfl⟩
  · unfold Client.visitReset
    split_ifs <;> exact ⟨rfl, rfl⟩
  · split_ifs <;> exact ⟨rfl, rfl⟩
  · exact ⟨rfl, rfl⟩

end ActiveRmt
