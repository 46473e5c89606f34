/-
**The controller: requests, two-phase allocations and their hand-over.**

The controller owns the allocator and the tables.  A *malloc digest* from the switch asks for an
allocation, a deallocation or (identifier `255`) a reset; requests are queued for the monitor, which
takes them one at a time.  An arrival that moves other functions is not applied at once: the moved
functions are listed in `remoteDrainQueue`, told by the switch to save their memory, and their *remap
digests* take them off the list; the last one, or a timeout of the monitor, resumes the allocation.

A handler is a program that returns or raises an exception, and the state is kept in either case: an
exception in Python leaves everything that was done before it, locks included.  A thread that waits
for a lock nobody will release is one that raises `deadlock`.  The dictionaries `allocTiming` and
`remapTiming` hold time stamps, which matter here only as far as a missing one is an error.

Four fields have no counterpart in the source and are never read by it: `monitor` and `inFlight` are
the points that the monitor and a remap handler have reached, and `issued` and `applied` are the
history of the allocations that were queued, and of those that were applied, the latter with the
position of the former and with the arguments that `resumeAllocation` was called with.

Main definitions:

* `Controller`, `Controller.init` — the state;
* `Controller.resumeAllocation`, `Controller.updateAllocation` — applying a queued allocation;
* `Controller.allocate`, `Controller.deallocate`, `Controller.resetAllocation` — the requests;
* `Controller.onMallocRequest`, `Controller.onRemapAck` — the digest handlers;
* `Controller.Event`, `Controller.perform`, `Controller.Step` — the steps of all threads.
-/

import ActiveRmt.Switch

set_option relaxedAutoImplicit false
set_option autoImplicit false

namespace ActiveRmt

open Allocator (Remaps)

/-! ### The state -/

/-- The parameters of the controller. -/
structure ControllerConfig where
  /-- The parameters of its allocator. -/
  allocator : AllocatorConfig
  /-- Whether address translations are installed. -/
  vaddrSupport : Bool
  /-- Whether the ingress limit of a request is ignored and recirculations are allowed. -/
  leastConstrained : Bool
  deriving DecidableEq

/-- The size of a block in words. -/
def ControllerConfig.blockSize (cfg : ControllerConfig) : ℚ :=
  Switch.blockSize cfg.allocator.maxOccupancy

/-- A request of the monitor's queue. -/
structure Request where
  /-- The function. -/
  fid : Fid
  /-- The number of its instructions. -/
  progLen : ℕ
  /-- The last position that must run in the ingress pipeline, `255` when there is none. -/
  igLim : ℕ
  /-- The positions of its memory accesses. -/
  accessIdx : List ℕ
  /-- The number of blocks asked for, per access. -/
  minDemand : List ℕ
  /-- Whether it arrives or departs. -/
  allocate : Bool
  deriving DecidableEq

/-- Where the monitor thread is. -/
inductive Monitor
  /-- It waits for a request. -/
  | idle
  /-- It has started a request, and waits until the function has left `queue`. -/
  | waiting (req : Request)
  /-- It has left the waiting loop. -/
  | leaving (req : Request)
  /-- It has ended with an exception. -/
  | dead (req : Request)
  deriving DecidableEq

/-- The request that the monitor has taken and not finished. -/
def Monitor.current : Monitor → Option Request
  | .idle => none
  | .waiting req | .leaving req | .dead req => some req

/-- A remap handler that holds `digestMutex`: whose acknowledgement it handles, and the arguments of
`resumeAllocation` when it is the last one. -/
structure Ack where
  /-- The function. -/
  fid : Fid
  /-- The initiator and the remaps that it has read. -/
  resume : Option (Fid × Remaps)
  deriving DecidableEq

/-- **The controller state.** -/
structure Controller where
  /-- The allocator. -/
  allocator : Allocator
  /-- The tables. -/
  switch : Switch
  /-- The version of each function's allocation. -/
  allocVersion : Dict Fid ℕ
  /-- The functions whose allocation is in progress. -/
  queue : List Fid
  /-- The functions with a time stamp of their request. -/
  allocTiming : Finset Fid
  /-- The functions with a time stamp of their remap. -/
  remapTiming : Finset Fid
  /-- The functions with a request. -/
  enqueued : Finset Fid
  /-- The requests, first in first out. -/
  allocationRequests : List Request
  /-- The functions as they were requested. -/
  programDefs : Dict Fid ActiveFunction
  /-- The functions whose allocation is complete. -/
  active : List Fid
  /-- The remapped functions that have not acknowledged, with the remaps of their round. -/
  remoteDrainQueue : Dict Fid Remaps
  /-- The remapped functions that have not been heard of. -/
  remoteDrainInit : Finset Fid
  /-- The function whose allocation waits to be applied. -/
  remoteDrainInitiator : Option Fid
  /-- The remaps of the last round. -/
  remaps : Option Remaps
  /-- Whether there has been a round, and the timeout has a start. -/
  remoteDrainStartTs : Bool
  /-- The lock of `resumeAllocation` and of `resetAllocation`. -/
  mutex : Bool
  /-- The lock of `onRemapAck`. -/
  digestMutex : Bool
  /-- The number of reset threads that have not run yet. -/
  resetThreads : ℕ
  /-- Where the monitor is. -/
  monitor : Monitor
  /-- The remap handler that is between its two halves. -/
  inFlight : Option Ack
  /-- The allocations that were queued, with their remaps. -/
  issued : List (Fid × Remaps)
  /-- The allocations that were applied: which one, and as what. -/
  applied : List (ℕ × Fid × Remaps)

namespace Controller

variable (cfg : ControllerConfig)

/-- The controller when it has started. -/
def init : Controller :=
  { allocator := Allocator.init cfg.allocator
    switch := Switch.init
    allocVersion := Dict.empty
    queue := []
    allocTiming := ∅
    remapTiming := ∅
    enqueued := ∅
    allocationRequests := []
    programDefs := Dict.empty
    active := []
    remoteDrainQueue := Dict.empty
    remoteDrainInit := ∅
    remoteDrainInitiator := none
    remaps := none
    remoteDrainStartTs := false
    mutex := false
    digestMutex := false
    resetThreads := 0
    monitor := .idle
    inFlight := none
    issued := []
    applied := [] }

/-- An operation of the allocator. -/
def onAllocator {α : Type} : EStateM Exn Allocator α → EStateM Exn Controller α :=
  zoom (·.allocator) fun c s => { c with allocator := s }

/-- An operation on the tables. -/
def onSwitch {α : Type} : EStateM Exn Switch α → EStateM Exn Controller α :=
  zoom (·.switch) fun c sw => { c with switch := sw }

/-! ### Applying an allocation -/

/-- The new version of the allocation of a remapped function. -/
def renewVersion (tid : Fid) : EStateM Exn Controller Unit := do
  match (← get).allocVersion.get? tid with
  | none => throw .keyError
  | some v =>
      modify fun c => { c with allocVersion := c.allocVersion.set tid (v + 1) }
      onSwitch (Switch.renewAllocation tid (v + 1))

/-- **`updateAllocation`**: the tables after the allocation of `fid` has been applied. -/
def updateAllocation (fid : Fid) (allocation : Dict Stage (List ℕ)) (remaps : Remaps) :
    EStateM Exn Controller Unit := do
  let remapped := Switch.remappedStages remaps
  onSwitch (Switch.updateMemoryAccess cfg.blockSize remapped)
  onSwitch (Switch.updateVaddr cfg.blockSize cfg.vaddrSupport remapped)
  onSwitch (Switch.updateAllocationTables cfg.blockSize remapped)
  remaps.keys.forM renewVersion
  onSwitch (Switch.installAllocation cfg.blockSize cfg.vaddrSupport fid allocation)

/-- `applyQueuedAllocation`, with the history of what was applied. -/
def applyQueuedAllocation (fid : Fid) (remaps : Remaps) : EStateM Exn Controller Unit := do
  if ← onAllocator Allocator.applyQueuedAllocation then
    modify fun c => { c with applied := c.applied ++ [(c.issued.length - 1, fid, remaps)] }

/-- The version of a function whose allocation has been applied, and the reply to it. -/
def publishVersion (fid : Fid) : EStateM Exn Controller Unit := do
  let version := ((← get).allocVersion.get? fid).getD 0 + 1
  modify fun c => { c with allocVersion := c.allocVersion.set fid version }
  onSwitch (Switch.renewAllocation fid version)

/-- `self.queue.remove(fid)`. -/
def leaveQueue (fid : Fid) : EStateM Exn Controller Unit := do
  if fid ∈ (← get).queue then modify fun c => { c with queue := c.queue.erase fid }
  else throw .valueError

/-- `self.allocTiming.pop(fid)`. -/
def popAllocTiming (fid : Fid) : EStateM Exn Controller Unit := do
  if fid ∈ (← get).allocTiming then
    modify fun c => { c with allocTiming := c.allocTiming.erase fid }
  else throw .keyError

/-- What `resumeAllocation` does while it holds the lock. -/
def completeAllocation (fid : Fid) (remaps : Remaps) : EStateM Exn Controller Unit := do
  applyQueuedAllocation fid remaps
  updateAllocation cfg fid ((← get).allocator.getAllocationBlocks fid) remaps
  onSwitch (Switch.addQuotas fid)
  publishVersion fid
  modify fun c => { c with active := c.active ++ [fid] }
  leaveQueue fid
  popAllocTiming fid
  modify fun c => { c with remoteDrainInitiator := none, mutex := false }

/-- **`resumeAllocation`**: apply the queued allocation, unless nobody waits for one. -/
def resumeAllocation (fid : Fid) (remaps : Remaps) : EStateM Exn Controller Unit := do
  if (← get).mutex then throw .deadlock
  if (← get).remoteDrainInitiator = none then return
  modify fun c => { c with mutex := true }
  completeAllocation cfg fid remaps

/-! ### Requests -/

/-- The cost from which on an allocation is refused, `WT_OVERFLOW`. -/
def wtOverflow : ℚ := 1000000

/-- A refused allocation: everything but the time stamp is taken back. -/
def refuse (fid : Fid) : EStateM Exn Controller Unit := do
  onSwitch (Switch.changeAllocation fun d => Switch.tableDelete d fid)
  leaveQueue fid
  modify fun c => { c with programDefs := c.programDefs.erase fid }

/-- Telling one remapped function. -/
def queuePeer (remaps : Remaps) (tid : Fid) : EStateM Exn Controller Unit := do
  modify fun c => { c with
    remoteDrainInit := insert tid c.remoteDrainInit
    remoteDrainQueue := c.remoteDrainQueue.set tid remaps
    remapTiming := insert tid c.remapTiming }
  match (← get).allocVersion.get? tid with
  | none => throw .keyError
  | some v => onSwitch (Switch.changeRemapCheck fun d => Switch.tableAdd d tid v)

/-- Waiting for the remapped functions. -/
def waitForPeers (remaps : Remaps) : EStateM Exn Controller Unit := do
  modify fun c => { c with remoteDrainStartTs := true, remaps := some remaps }
  remaps.keys.forM (queuePeer remaps)

/-- A chosen variant: queue it, and apply it unless others have to move first. -/
def startAllocation (fid : Fid) (ch : Allocator.Choice) : EStateM Exn Controller Unit := do
  let (changes, remaps, _) ←
    onAllocator (Allocator.enqueueAllocation cfg.allocator ch.allocation ch.allocationMap)
  modify fun c => { c with
    issued := c.issued ++ [(fid, remaps)]
    remoteDrainInitiator := some fid }
  if changes.items.isEmpty then resumeAllocation cfg fid remaps
  else waitForPeers remaps

/-- The beginning of `allocate`: the function is in progress, and the switch replies so. -/
def beginAllocation (fid : Fid) : EStateM Exn Controller Unit := do
  modify fun c => { c with
    queue := c.queue ++ [fid]
    allocTiming := insert fid c.allocTiming }
  onSwitch (Switch.changeAllocation fun d => Switch.tableAdd d fid .pending)

/-- The function of a request; `255` and the least constrained mode stand for no ingress limit. -/
def activeFunction (req : Request) : Except Exn ActiveFunction :=
  ActiveFunction.init req.fid req.accessIdx
    (if req.igLim = 255 ∨ cfg.leastConstrained then -1 else req.igLim) req.progLen req.minDemand
    cfg.leastConstrained

/-- **`allocate`.**  A cost of exactly `WT_OVERFLOW` is neither queued nor refused, and the code then
uses a variable that was never assigned. -/
def allocate (req : Request) : EStateM Exn Controller Unit := do
  if req.fid ∈ (← get).queue ∨ req.fid ∈ (← get).active then return
  beginAllocation req.fid
  match activeFunction cfg req with
  | .error ex => throw ex
  | .ok af =>
      modify fun c => { c with programDefs := c.programDefs.set req.fid af }
      match ← onAllocator (Allocator.computeAllocation cfg.allocator af) with
      | none => refuse req.fid
      | some ch =>
          if ch.optCost < wtOverflow then startAllocation cfg req.fid ch
          else if wtOverflow < ch.optCost then refuse req.fid
          else
            modify fun c => { c with remoteDrainInitiator := some req.fid }
            throw .nameError

/-- **`deallocate`.** -/
def deallocate (fid : Fid) : EStateM Exn Controller Unit := do
  if fid ∈ (← get).active then
    if ← onSwitch (Switch.removeFunction fid) then
      let _ ← onAllocator (Allocator.deallocate fid)
      pure ()

/-- **`resetAllocation`**: deallocate all active functions, and forget them. -/
def resetAllocation : EStateM Exn Controller Unit := do
  if (← get).mutex then throw .deadlock
  modify fun c => { c with mutex := true }
  let completed := (← get).active
  completed.forM deallocate
  modify fun c => { c with active := completed.foldl (fun l fid => l.erase fid) c.active }
  modify fun c => { c with mutex := false }

/-! ### Digests -/

/-- A malloc digest: eight pairs of an access position and a demand. -/
structure MallocDigest where
  /-- The function. -/
  fid : Fid
  /-- The number of its instructions. -/
  progLen : ℕ
  /-- The ingress limit. -/
  igLim : ℕ
  /-- The accesses and their demands, up to the first demand that is zero. -/
  constraints : Fin 8 → ℕ × ℕ
  deriving DecidableEq

/-- The request of a digest: it is for an allocation when it has a demand. -/
def MallocDigest.request (d : MallocDigest) : Request :=
  let used := ((List.finRange 8).map d.constraints).takeWhile fun p => 0 < p.2
  { fid := d.fid
    progLen := d.progLen
    igLim := d.igLim
    accessIdx := used.map Prod.fst
    minDemand := used.map Prod.snd
    allocate := !used.isEmpty }

/-- The identifier that asks for a reset. -/
def resetFid : Fid := 255

/-- The identifier that the controller keeps for augmentations. -/
def augmentFid : Fid := 253

/-- **`onMallocRequest`.**  An allocation is ignored when the function is active or has a request, a
deallocation when it is not active. -/
def onMallocRequest (d : MallocDigest) : EStateM Exn Controller Unit := modify fun c =>
  let req := d.request
  if d.fid = resetFid then { c with resetThreads := c.resetThreads + 1 }
  else if (d.fid ∈ c.active ∨ d.fid ∈ c.enqueued) ∧ req.allocate then c
  else if d.fid ∉ c.active ∧ ¬req.allocate then c
  else { c with
    allocationRequests := c.allocationRequests ++ [req]
    enqueued := insert d.fid c.enqueued }

/-- A remap digest. -/
structure RemapDigest where
  /-- The function. -/
  fid : Fid
  /-- It is about a remap. -/
  flagRemapped : Bool
  /-- The function has saved its memory. -/
  flagAck : Bool
  /-- The function has started to. -/
  flagInitiated : Bool
  deriving DecidableEq

/-- `self.remapTiming[fid]`. -/
def checkRemapTiming (fid : Fid) : EStateM Exn Controller Unit := do
  if fid ∈ (← get).remapTiming then pure () else throw .keyError

/-- A function has been heard of: the switch need not tell it again. -/
def stopTelling (fid : Fid) : EStateM Exn Controller Unit :=
  onSwitch (Switch.changeRemapCheck fun d => Switch.tableDelete d fid)

/-- A function starts to save its memory. -/
def drainInitiated (fid : Fid) : EStateM Exn Controller Unit := do
  modify fun c => { c with remoteDrainInit := c.remoteDrainInit.erase fid }
  checkRemapTiming fid
  stopTelling fid

/-- A function has saved its memory: what comes before the lock. -/
def drainComplete (fid : Fid) : EStateM Exn Controller Unit := do
  checkRemapTiming fid
  modify fun c => { c with remapTiming := c.remapTiming.erase fid }
  if fid ∈ (← get).remoteDrainInit then
    modify fun c => { c with remoteDrainInit := c.remoteDrainInit.erase fid }
    stopTelling fid

/-- Under the lock, what there is to do is read. -/
def lockAck (fid : Fid) : EStateM Exn Controller (Option Ack) := do
  if (← get).digestMutex then throw .deadlock
  let c ← get
  match c.remoteDrainQueue.get? fid with
  | none => return none
  | some remaps =>
      set { c with digestMutex := true }
      return some ⟨fid, if c.remoteDrainQueue.keys.length = 1 then
        c.remoteDrainInitiator.map fun f => (f, remaps) else none⟩

/-- **The first half of `onRemapAck`**, up to what is read under the lock. -/
def readAck (d : RemapDigest) : EStateM Exn Controller (Option Ack) := do
  let c ← get
  if ¬d.flagRemapped ∨ (d.fid ∉ c.remoteDrainQueue.keys ∧ d.fid ∉ c.remoteDrainInit) then
    return none
  if d.flagInitiated ∧ d.fid ∈ c.remoteDrainInit then drainInitiated d.fid
  if d.flagAck ∧ d.fid ∈ c.remoteDrainQueue.keys then
    drainComplete d.fid
    lockAck d.fid
  else return none

/-- `self.remoteDrainQueue.pop(fid)`, and the lock is released. -/
def popDrainQueue (fid : Fid) : EStateM Exn Controller Unit := do
  if fid ∈ (← get).remoteDrainQueue.keys then
    modify fun c => { c with
      remoteDrainQueue := c.remoteDrainQueue.erase fid
      digestMutex := false }
  else throw .keyError

/-- **The second half of `onRemapAck`**: resume with what was read. -/
def finishAck (a : Ack) : EStateM Exn Controller Unit := do
  match a.resume with
  | some (fid, remaps) => resumeAllocation cfg fid remaps
  | none => pure ()
  popDrainQueue a.fid

/-- **`onRemapAck`.** -/
def onRemapAck (d : RemapDigest) : EStateM Exn Controller Unit := do
  match ← readAck d with
  | some a => finishAck cfg a
  | none => pure ()

/-! ### The monitor -/

/-- A function that has not acknowledged in time. -/
def dropPeer (tid : Fid) : EStateM Exn Controller Unit := do
  modify fun c => { c with remoteDrainQueue := c.remoteDrainQueue.erase tid }
  if tid ∈ (← get).remoteDrainInit then
    stopTelling tid
    modify fun c => { c with remoteDrainInit := c.remoteDrainInit.erase tid }

/-- **The timeout of the monitor**: the functions that have not acknowledged are given up, and the
allocation is resumed.  The message of a resumption without an initiator cannot be formatted; the
lock is held by then. -/
def onTimeout : EStateM Exn Controller Unit := do
  if (← get).remoteDrainStartTs = false then throw .typeError
  match (← get).remaps with
  | none => throw .typeError
  | some remaps =>
      remaps.keys.forM dropPeer
      match (← get).remoteDrainInitiator with
      | some fid => resumeAllocation cfg fid remaps
      | none =>
          if (← get).mutex then throw .deadlock
          modify fun c => { c with mutex := true }
          throw .typeError

/-- `self.active.remove(fid)`. -/
def leaveActive (fid : Fid) : EStateM Exn Controller Unit := do
  if fid ∈ (← get).active then modify fun c => { c with active := c.active.erase fid }
  else throw .valueError

/-- A part of the monitor loop that works on `req`: the thread goes on to `next`, or ends with an
exception. -/
def monitorStep (req : Request) (next : Monitor) (x : EStateM Exn Controller Unit) :
    EStateM Exn Controller Unit := fun c =>
  match x c with
  | .ok _ c => .ok () { c with monitor := next }
  | .error ex c => .error ex { c with monitor := .dead req }

/-- **The monitor takes a request.**  A request that is out of date is skipped, and stays listed in
`enqueued`. -/
def takeRequest : EStateM Exn Controller Unit := fun c =>
  match c.allocationRequests with
  | [] => .ok () c
  | req :: rest =>
      let c := { c with allocationRequests := rest }
      if req.allocate ∧ req.fid ∉ c.active then
        monitorStep req (.waiting req) (allocate cfg req) c
      else if ¬req.allocate ∧ req.fid ∈ c.active then
        monitorStep req (.waiting req) (do deallocate req.fid; leaveActive req.fid) c
      else .ok () c

/-- The monitor finishes its request. -/
def finishRequest (req : Request) : EStateM Exn Controller Unit := modify fun c =>
  { c with enqueued := c.enqueued.erase req.fid, monitor := .idle }

/-! ### Steps -/

/-- **The steps of the threads.** -/
inductive Event
  /-- A malloc digest is handled. -/
  | malloc (d : MallocDigest)
  /-- A remap digest is handled. -/
  | remapAck (d : RemapDigest)
  /-- A remap digest is handled up to what is read under the lock. -/
  | ackRead (d : RemapDigest)
  /-- The rest of its handling. -/
  | ackFinish
  /-- The monitor takes a request and starts it. -/
  | take
  /-- The waiting loop of the monitor times out. -/
  | timeout
  /-- The monitor finishes its request. -/
  | finish
  /-- A reset thread runs. -/
  | reset
  deriving DecidableEq

/-- When a step can be taken.  Functions do not use the identifier of augmentations, and a remap
handler waits for the one that holds the lock. -/
def Enabled (c : Controller) : Event → Prop
  | .malloc d => d.fid ≠ augmentFid
  | .remapAck _ | .ackRead _ => c.inFlight = none
  | .ackFinish => c.inFlight ≠ none
  | .take => c.monitor = .idle ∧ c.allocationRequests ≠ []
  | .timeout => ∃ req, c.monitor = .waiting req ∧ req.fid ∈ c.queue
  | .finish => ∃ req, (c.monitor = .waiting req ∧ req.fid ∉ c.queue) ∨ c.monitor = .leaving req
  | .reset => 0 < c.resetThreads

/-- What a step does. -/
def perform : Event → EStateM Exn Controller Unit
  | .malloc d => onMallocRequest d
  | .remapAck d => onRemapAck cfg d
  | .ackRead d => do
      let a ← readAck d
      modify fun c => { c with inFlight := a }
  | .ackFinish => fun c =>
      match c.inFlight with
      | some a => finishAck cfg a { c with inFlight := none }
      | none => .ok () c
  | .take => takeRequest cfg
  | .timeout => fun c =>
      match c.monitor with
      | .waiting req => monitorStep req (.leaving req) (onTimeout cfg) c
      | _ => .ok () c
  | .finish => fun c =>
      match c.monitor.current with
      | some req => finishRequest req c
      | none => .ok () c
  | .reset => fun c => resetAllocation { c with resetThreads := c.resetThreads - 1 }

/-- **One step**: a handler that may raise an exception, which keeps what was done before it. -/
def Step (c : Controller) (e : Event) (c' : Controller) : Prop :=
  Enabled c e ∧ ((∃ u, perform cfg e c = .ok u c') ∨ ∃ ex, perform cfg e c = .error ex c')

/-- **One step that raises no exception.** -/
def StepOk (c : Controller) (e : Event) (c' : Controller) : Prop :=
  Enabled c e ∧ ∃ u, perform cfg e c = .ok u c'

/-- Whether a step can be taken. -/
def enabled (c : Controller) : Event → Bool
  | .malloc d => decide (d.fid ≠ augmentFid)
  | .remapAck _ | .ackRead _ => c.inFlight.isNone
  | .ackFinish => c.inFlight.isSome
  | .take => decide (c.monitor = .idle) && !c.allocationRequests.isEmpty
  | .timeout =>
      match c.monitor with
      | .waiting req => decide (req.fid ∈ c.queue)
      | _ => false
  | .finish =>
      match c.monitor with
      | .waiting req => decide (req.fid ∉ c.queue)
      | .leaving _ => true
      | _ => false
  | .reset => decide (0 < c.resetThreads)

theorem enabled_of_eq_true {c : Controller} {e : Event} (h : enabled c e = true) : Enabled c e := by
  cases e with
  | malloc d =>
      rw [enabled, decide_eq_true_eq] at h
      exact h
  | remapAck d => exact Option.isNone_iff_eq_none.1 h
  | ackRead d => exact Option.isNone_iff_eq_none.1 h
  | ackFinish => exact Option.isSome_iff_ne_none.1 h
  | take =>
      rw [enabled, Bool.and_eq_true, decide_eq_true_eq, Bool.not_eq_true',
        List.isEmpty_eq_false_iff] at h
      exact h
  | timeout =>
      rw [enabled] at h
      cases hm : c.monitor with
      | waiting req =>
          rw [hm] at h
          exact ⟨req, hm, of_decide_eq_true h⟩
      | _ => rw [hm] at h; exact absurd h Bool.false_ne_true
  | finish =>
      rw [enabled] at h
      cases hm : c.monitor with
      | waiting req =>
          rw [hm] at h
          exact ⟨req, .inl ⟨hm, of_decide_eq_true h⟩⟩
      | leaving req => exact ⟨req, .inr hm⟩
      | idle => rw [hm] at h; exact absurd h Bool.false_ne_true
      | dead req => rw [hm] at h; exact absurd h Bool.false_ne_true
  | reset =>
      rw [enabled, decide_eq_true_eq] at h
      exact h

/-- **Taking steps one after the other**, as long as they can be taken and raise no exception. -/
def execute : List Event → Controller → Option Controller
  | [], c => some c
  | e :: es, c =>
      if enabled c e then
        match perform cfg e c with
        | .ok _ c' => execute es c'
        | .error _ _ => none
      else none

theorem run_of_execute {es : List Event} {c c' : Controller} (h : execute cfg es c = some c') :
    Run (StepOk cfg) c es c' := by
  induction es generalizing c with
  | nil =>
      obtain rfl := Option.some.inj h
      exact .nil c
  | cons e es ih =>
      unfold execute at h
      split_ifs at h with he
      cases hp : perform cfg e c with
      | error ex c₁ =>
          rw [hp] at h
          exact absurd h (Option.some_ne_none c').symm
      | ok u c₁ =>
          rw [hp] at h
          exact (Run.single ⟨enabled_of_eq_true he, u, hp⟩).append (ih h)

/-! ### Small examples -/

/-- Small memory: eight blocks a stage. -/
def smallConfig : ControllerConfig := ⟨⟨8, .cost, true, true⟩, false, false⟩

/-- A request for one access at the first stage. -/
def arrival (f : Fid) (d : ℕ) : MallocDigest := ⟨f, 19, 255, fun k => if k = 0 then (0, d) else (0, 0)⟩

/-- The request of a function that leaves. -/
def departure (f : Fid) : MallocDigest := ⟨f, 19, 255, fun _ => (0, 0)⟩

/-- The acknowledgement of a function that has moved its data. -/
def acknowledgement (f : Fid) : RemapDigest := ⟨f, true, true, false⟩

end Controller

end ActiveRmt
