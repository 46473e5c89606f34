/-
**The match-action tables of the switch, and the code that fills them.**

Every stage has an instruction table.  An entry matches a range of function identifiers, an opcode,
the control flags of the program, a prefix of the `mbr` register and a range of the address register
`mar`; it selects an action.  The entries that access memory are the ones that isolate functions from
each other: such an entry matches one identifier only, and its address range is the memory of that
function at the stage.  The controller mirrors the keys it has installed in a list per stage
(`params`), because that is where it looks when it removes entries.

The driver refuses to add an entry that is there and to delete one that is not.

Main definitions:

* `Pnemonic`, `Action`, `instructionSet` — the instruction set, row by row;
* `EntryKey`, `Switch` — the keys of an instruction table, and all tables;
* `Switch.installInstructionTableEntry`, `Switch.installMemoryAccessEntries`,
  `Switch.removeMemoryAccessEntries` — the entries of one function at one stage;
* `Switch.getMemoryRange` — the addresses of a list of blocks;
* `Switch.updateMemoryAccess`, `Switch.updateAllocationTables`, `Switch.installAllocation` — what a
  new allocation changes.
-/

import ActiveRmt.Allocator
import ActiveRmt.Programs

set_option relaxedAutoImplicit false
set_option autoImplicit false

namespace ActiveRmt

/-! ### The instruction set -/

/-- The instructions. -/
inductive Pnemonic
  | eof | nop | return_ | cret | creti | drop | fork | setDst | cjump | cjumpi | ujump | rts | crts
  | mbrLoad | mbr2Load | marLoad | mbrStore | mbrEqualsMbr2 | mbrEqualsData0 | mbrEqualsData1
  | mbrEqualsData2 | mbrEqualsData3 | max | min | revmin | swapMbrMbr2 | mbrNot | mbrSubtractMbr2
  | marAddMbr | marAddMbr2 | mbrAddMbr2 | marMbrAddMbr2 | bitAndMarMbr | bitOrMbrMbr2 | copyMbr2Mbr
  | copyMbrMbr2 | copyMarMbr | copyMbrMar | copyHashdataMbr | copyHashdataMbr2
  | memWrite | memRead | memIncrement | memMinread | memMinreadinc | memWriteCondzero
  | hash | loadSalt | loadTcp5tuple | loadQdelay | loadQueue | loadPktcount
  | addrMaskAt (memIdx : Stage) | addrOffsetAt (memIdx : Stage)
  | addrMask | addrOffset | mbrStoreAlt | mbrStoreAlt2
  deriving DecidableEq

/-- The actions of an instruction table. -/
inductive Action
  | markTermination | skip | complete | drop | fork | setPort | jump | rts
  | mbrLoad | mbr2Load | marLoad | mbrStore | mbr1EqualsMbr2 | mbrEqualsD0 | mbrEqualsD1
  | mbrEqualsD2 | mbrEqualsD3 | maxMbrMbr2 | minMbr1Mbr2 | minMbr2Mbr1 | swapMbrMbr2 | notMbr
  | mbrSubtractMbr2 | marAddMbr | marAddMbr2 | mbrAddMbr2 | marMbrAddMbr2 | bitAndMarMbr | mbrOrMbr2
  | copyMbr2Mbr1 | copyMbr1Mbr2 | copyMarMbr | copyMbrMar | copyHashDataMbr | copyHashDataMbr2
  | memoryWrite | memoryRead | memoryIncrement | memoryMinread | memoryMinreadinc | memoryWriteZero
  | hash | loadSalt | load5TupleTcp | fetchQdelay | fetchQueue | fetchPktcount
  | addrMaskApply | addrOffsetApply | mbrStoreAlt | mbrStoreAlt2
  /-- What a disabled program does at every instruction. -/
  | attemptRejoin
  deriving DecidableEq

/-- The actions that read or write the memory of a stage. -/
def Action.isMemory : Action → Bool
  | .memoryWrite | .memoryRead | .memoryIncrement | .memoryMinread | .memoryMinreadinc
  | .memoryWriteZero => true
  | _ => false

/-- A row of the opcode file.  No action stands for `NULL`. -/
structure OpcodeRow where
  /-- The instruction. -/
  pnemonic : Pnemonic
  /-- Its action. -/
  action : Option Action
  /-- Whether the action depends on the `mbr` register, and how. -/
  condition : Option Bool
  deriving DecidableEq

/-- The rows up to the address translations. -/
def plainRows : List OpcodeRow :=
  [⟨.eof, some .markTermination, none⟩, ⟨.nop, some .skip, none⟩,
    ⟨.return_, some .complete, none⟩, ⟨.cret, some .complete, some true⟩,
    ⟨.creti, some .complete, some false⟩, ⟨.drop, some .drop, none⟩, ⟨.fork, some .fork, none⟩,
    ⟨.setDst, some .setPort, none⟩, ⟨.cjump, some .jump, some true⟩,
    ⟨.cjumpi, some .jump, some false⟩, ⟨.ujump, some .jump, none⟩, ⟨.rts, some .rts, none⟩,
    ⟨.crts, some .rts, some true⟩, ⟨.mbrLoad, some .mbrLoad, none⟩,
    ⟨.mbr2Load, some .mbr2Load, none⟩, ⟨.marLoad, some .marLoad, none⟩,
    ⟨.mbrStore, some .mbrStore, none⟩, ⟨.mbrEqualsMbr2, some .mbr1EqualsMbr2, none⟩,
    ⟨.mbrEqualsData0, some .mbrEqualsD0, none⟩, ⟨.mbrEqualsData1, some .mbrEqualsD1, none⟩,
    ⟨.mbrEqualsData2, some .mbrEqualsD2, none⟩, ⟨.mbrEqualsData3, some .mbrEqualsD3, none⟩,
    ⟨.max, some .maxMbrMbr2, none⟩, ⟨.min, some .minMbr1Mbr2, none⟩,
    ⟨.revmin, some .minMbr2Mbr1, none⟩, ⟨.swapMbrMbr2, some .swapMbrMbr2, none⟩,
    ⟨.mbrNot, some .notMbr, none⟩, ⟨.mbrSubtractMbr2, some .mbrSubtractMbr2, none⟩,
    ⟨.marAddMbr, some .marAddMbr, none⟩, ⟨.marAddMbr2, some .marAddMbr2, none⟩,
    ⟨.mbrAddMbr2, some .mbrAddMbr2, none⟩, ⟨.marMbrAddMbr2, some .marMbrAddMbr2, none⟩,
    ⟨.bitAndMarMbr, some .bitAndMarMbr, none⟩, ⟨.bitOrMbrMbr2, some .mbrOrMbr2, none⟩,
    ⟨.copyMbr2Mbr, some .copyMbr2Mbr1, none⟩, ⟨.copyMbrMbr2, some .copyMbr1Mbr2, none⟩,
    ⟨.copyMarMbr, some .copyMarMbr, none⟩, ⟨.copyMbrMar, some .copyMbrMar, none⟩,
    ⟨.copyHashdataMbr, some .copyHashDataMbr, none⟩,
    ⟨.copyHashdataMbr2, some .copyHashDataMbr2, none⟩, ⟨.memWrite, some .memoryWrite, none⟩,
    ⟨.memRead, some .memoryRead, none⟩, ⟨.memIncrement, some .memoryIncrement, none⟩,
    ⟨.memMinread, some .memoryMinread, none⟩, ⟨.memMinreadinc, some .memoryMinreadinc, none⟩,
    ⟨.memWriteCondzero, some .memoryWriteZero, some true⟩, ⟨.hash, some .hash, none⟩,
    ⟨.loadSalt, some .loadSalt, none⟩, ⟨.loadTcp5tuple, some .load5TupleTcp, none⟩,
    ⟨.loadQdelay, some .fetchQdelay, none⟩, ⟨.loadQueue, some .fetchQueue, none⟩,
    ⟨.loadPktcount, some .fetchPktcount, none⟩]

/-- The two address translations of a stage. -/
def vaddrRows (k : Stage) : List OpcodeRow :=
  [⟨.addrMaskAt k, some .addrMaskApply, none⟩, ⟨.addrOffsetAt k, some .addrOffsetApply, none⟩]

/-- The rows after the address translations. -/
def lastRows : List OpcodeRow :=
  [⟨.addrMask, none, none⟩, ⟨.addrOffset, none, none⟩, ⟨.mbrStoreAlt, some .mbrStoreAlt, none⟩,
    ⟨.mbrStoreAlt2, some .mbrStoreAlt2, none⟩]

/-- The rows of the opcode file. -/
def opcodeActionMapping : List OpcodeRow :=
  plainRows ++ (List.finRange 20).flatMap vaddrRows ++ lastRows

/-- An instruction as the controller knows it: its row, whose number is the opcode. -/
structure Instruction extends OpcodeRow where
  /-- The opcode. -/
  opcode : ℕ
  deriving DecidableEq

/-- `opcode_action`. -/
def instructionSet : List Instruction :=
  opcodeActionMapping.zipIdx.map fun p => ⟨p.1, p.2⟩

/-- The name starts with `MEM`. -/
def Instruction.memory (act : Instruction) : Bool :=
  match act.pnemonic with
  | .memWrite | .memRead | .memIncrement | .memMinread | .memMinreadinc | .memWriteCondzero => true
  | _ => false

/-- The name starts with `ADDR_`, and the action is not `NULL`. -/
def Instruction.vaddr (act : Instruction) : Bool :=
  match act.pnemonic with
  | .addrMaskAt _ | .addrOffsetAt _ | .addrMask | .addrOffset => act.action.isSome
  | _ => false

/-- `opcodes_memaccess`. -/
def opcodesMemaccess : List ℕ := (instructionSet.filter (·.memory)).map (·.opcode)

/-- `opcodes_vaddr`. -/
def opcodesVaddr : List ℕ := (instructionSet.filter (·.vaddr)).map (·.opcode)

/-- The instructions that access memory. -/
def memoryInstructions : List Instruction := instructionSet.filter (·.memory)

/-- The instructions whose entries are the same for all functions. -/
def commonInstructions : List Instruction :=
  instructionSet.filter fun act => act.action.isSome && !act.memory && !act.vaddr

example : opcodesMemaccess = [40, 41, 42, 43, 44, 45] := by decide +kernel

/-! ### The tables -/

/-- The largest address, `MAR_MAX` and `REG_MAX`. -/
def regMax : ℚ := 0xFFFFF

/-- The number of memory words of a stage, `MEMSIZE`. -/
def memSize : ℕ := 94208

/-- **The key of an entry** of an instruction table. -/
structure EntryKey where
  /-- The first function it is for. -/
  fidStart : Fid
  /-- The last function it is for. -/
  fidEnd : Fid
  /-- The opcode. -/
  opcode : ℕ
  /-- Whether the program has completed. -/
  complete : ℕ
  /-- Whether the program is disabled. -/
  disabled : ℕ
  /-- The value of `mbr`. -/
  mbr : ℕ
  /-- How many of its bits are compared. -/
  mbrPfx : ℕ
  /-- The first address. -/
  marStart : ℚ
  /-- The last address. -/
  marEnd : ℚ
  deriving DecidableEq

/-- An action with its parameter, when it takes one. -/
abbrev BoundAction := Action × Option ℚ

/-- The reply to a function that asks for its allocation. -/
inductive Reply
  | pending
  | allocated (version : ℕ)
  deriving DecidableEq

/-- An entry of the allocation table of a pair of stages: offset and size, ingress and egress. -/
inductive AllocationEntry
  | default
  | get (offsetIg sizeIg offsetEg sizeEg : ℚ)
  deriving DecidableEq

/-- A stage within its pipeline. -/
abbrev GressStage := Fin 10

/-- The position of a stage in its pipeline. -/
def gressStage (i : Stage) : GressStage := ⟨i % 10, Nat.mod_lt _ (by decide)⟩

/-- The ingress stage at a position. -/
def ingress (k : GressStage) : Stage := ⟨k, by omega⟩

/-- The egress stage at a position. -/
def egress (k : GressStage) : Stage := ⟨k + 10, by omega⟩

/-- The stage is an ingress stage. -/
def isIngress (i : Stage) : Bool := i.val < numStageIg

/-- **All tables**, with the controller's mirror of the instruction tables. -/
structure Switch where
  /-- The instruction table of each stage. -/
  instruction : Stage → Dict EntryKey BoundAction
  /-- `instrTableEntryParams`: the keys the controller has installed, in order. -/
  params : Stage → List EntryKey
  /-- `allocation`: the reply to each function. -/
  allocation : Dict Fid Reply
  /-- `allocation_0`, …, `allocation_9`. -/
  allocations : GressStage → Dict Fid AllocationEntry
  /-- `remap_check`: the functions to be told that they are remapped, with their version. -/
  remapCheck : Dict Fid ℕ
  /-- `quota_recirc`: the functions that may recirculate. -/
  quotaRecirc : Dict Fid Unit
  deriving DecidableEq

namespace Switch

variable {κ α : Type} [DecidableEq κ]

/-- Adding an entry to a table. -/
def tableAdd (d : Dict κ α) (k : κ) (v : α) : Except Exn (Dict κ α) :=
  if d.contains k then .error .tableError else .ok (d.set k v)

/-- Deleting an entry of a table. -/
def tableDelete (d : Dict κ α) (k : κ) : Except Exn (Dict κ α) :=
  if d.contains k then .ok (d.erase k) else .error .tableError

/-- A change of a table; when the driver refuses it, nothing changes. -/
def change (f : Dict κ α → Except Exn (Dict κ α)) : EStateM Exn (Dict κ α) Unit := fun d =>
  match f d with
  | .error ex => .error ex d
  | .ok d => .ok () d

/-- The entries of the reply table. -/
def changeAllocation (f : Dict Fid Reply → Except Exn (Dict Fid Reply)) : EStateM Exn Switch Unit :=
  zoom (·.allocation) (fun sw d => { sw with allocation := d }) (change f)

/-- The entries of one allocation table. -/
def changeAllocations (k : GressStage)
    (f : Dict Fid AllocationEntry → Except Exn (Dict Fid AllocationEntry)) :
    EStateM Exn Switch Unit :=
  zoom (·.allocations k)
    (fun sw d => { sw with allocations := Function.update sw.allocations k d }) (change f)

/-- The entries of the remap table. -/
def changeRemapCheck (f : Dict Fid ℕ → Except Exn (Dict Fid ℕ)) : EStateM Exn Switch Unit :=
  zoom (·.remapCheck) (fun sw d => { sw with remapCheck := d }) (change f)

/-- The entries of the quota table. -/
def changeQuotaRecirc (f : Dict Fid Unit → Except Exn (Dict Fid Unit)) : EStateM Exn Switch Unit :=
  zoom (·.quotaRecirc) (fun sw d => { sw with quotaRecirc := d }) (change f)

/-- Adding an instruction entry, and its key to the mirror. -/
def addEntry (i : Stage) (e : EntryKey × BoundAction) : EStateM Exn Switch Unit := fun sw =>
  match tableAdd (sw.instruction i) e.1 e.2 with
  | .error ex => .error ex sw
  | .ok d => .ok ()
      { sw with
        instruction := Function.update sw.instruction i d
        params := Function.update sw.params i (sw.params i ++ [e.1]) }

/-- Deleting an instruction entry; the mirror is updated later. -/
def deleteEntry (i : Stage) (k : EntryKey) : EStateM Exn Switch Unit :=
  zoom (·.instruction i)
    (fun sw d => { sw with instruction := Function.update sw.instruction i d })
    (change fun d => tableDelete d k)

/-! ### Installing instruction entries -/

/-- The entries of one instruction for the addresses from `memStart` to `memEnd`, in the order in
which they are added: a conditional instruction is skipped when its condition fails, and a disabled
program attempts to rejoin. -/
def entriesOf (fid : Fid) (act : Instruction) (memStart memEnd : ℚ) :
    List (EntryKey × BoundAction) :=
  match act.action with
  | none => []
  | some action =>
      let fidStart := if act.memory then fid else 0
      let fidEnd := if act.memory then fid else 0xFF
      let key (complete disabled mbrPfx : ℕ) (marEnd : ℚ) : EntryKey :=
        ⟨fidStart, fidEnd, act.opcode, complete, disabled, 0, mbrPfx, memStart, marEnd⟩
      (match act.condition with
        | some true => [(key 0 0 32 regMax, (.skip, none)), (key 0 0 0 memEnd, (action, none))]
        | some false => [(key 0 0 32 memEnd, (action, none)), (key 0 0 0 regMax, (.skip, none))]
        | none =>
            (if act.opcode = 0 then [(key 1 0 0 memEnd, (action, none))] else []) ++
              [(key 0 0 0 memEnd, (action, none))]) ++
        [(key 0 1 0 regMax, (.attemptRejoin, none))]

/-- `installInstructionTableEntry`. -/
def installInstructionTableEntry (i : Stage) (fid : Fid) (act : Instruction)
    (memStart memEnd : ℚ) : EStateM Exn Switch Unit :=
  (entriesOf fid act memStart memEnd).forM (addEntry i)

/-- The entries that are installed at every stage when the controller starts. -/
def commonEntries : List (EntryKey × BoundAction) :=
  commonInstructions.flatMap fun act => entriesOf 0 act 0 regMax

/-- **The tables when the controller has started**: the entries common to all functions. -/
def init : Switch :=
  { instruction := fun _ => ⟨commonEntries, by decide +kernel⟩
    params := fun _ => commonEntries.map Prod.fst
    allocation := Dict.empty
    allocations := fun _ => Dict.empty
    remapCheck := Dict.empty
    quotaRecirc := Dict.empty }

/-! ### Memory access -/

/-- The size of a block in words, as a float. -/
def blockSize (maxOccupancy : ℕ) : ℚ := roundDouble ((memSize : ℚ) / maxOccupancy)

/-- **`getMemoryRange`**: the addresses of a list of blocks, from its first to its last. -/
def getMemoryRange (bs : ℚ) (blocks : List ℕ) : ℚ × ℚ :=
  match blocks.head?, blocks.getLast? with
  | some blockStart, some blockEnd =>
      (roundDouble (bs * blockStart), roundDouble (roundDouble (bs * (blockEnd + 1)) - 1))
  | _, _ => (0, 0)

/-- The entries of all memory instructions of a function at a stage where it has these blocks. -/
def memoryEntries (bs : ℚ) (fid : Fid) (blocks : List ℕ) : List (EntryKey × BoundAction) :=
  memoryInstructions.flatMap fun act =>
    entriesOf fid act (getMemoryRange bs blocks).1 (getMemoryRange bs blocks).2

/-- **`installMemoryAccessEntries`.** -/
def installMemoryAccessEntries (bs : ℚ) (i : Stage) (fid : Fid) (blocks : List ℕ) :
    EStateM Exn Switch Unit :=
  (memoryEntries bs fid blocks).forM (addEntry i)

/-- Removing the entries of the mirror that satisfy `p`, from the table and then from the mirror. -/
def removeEntries (p : EntryKey → Bool) (i : Stage) : EStateM Exn Switch Unit := fun sw =>
  match ((sw.params i).filter p).forM (deleteEntry i) sw with
  | .error ex sw => .error ex sw
  | .ok _ sw' => .ok ()
      { sw' with params := Function.update sw'.params i ((sw.params i).filter fun k => !p k) }

/-- The key is for this function. -/
def validFid (fid : Fid) (k : EntryKey) : Bool := k.fidStart ≤ fid && fid ≤ k.fidEnd

/-- The key is one of a memory instruction of this function. -/
def isMemaccess (fid : Fid) (k : EntryKey) : Bool := validFid fid k && k.opcode ∈ opcodesMemaccess

/-- The key is one of an address translation of this function. -/
def isVaddr (fid : Fid) (k : EntryKey) : Bool := validFid fid k && k.opcode ∈ opcodesVaddr

/-- **`removeMemoryAccessEntries`.** -/
def removeMemoryAccessEntries (i : Stage) (fid : Fid) : EStateM Exn Switch Unit :=
  removeEntries (isMemaccess fid) i

/-- `removeVaddrEntries`. -/
def removeVaddrEntries (fid : Fid) : EStateM Exn Switch Unit :=
  Allocator.stages.forM (removeEntries (isVaddr fid))

/-- The entries of one address translation for a function with these blocks: the mask is the size
of the range, the offset its start. -/
def vaddrEntries (bs : ℚ) (fid : Fid) (allocation : Dict Stage (List ℕ)) (act : Instruction) :
    List (EntryKey × BoundAction) :=
  let entry (memIdx : Stage) (action : Action) (arg : ℚ × ℚ → ℚ) :
      List (EntryKey × BoundAction) :=
    match allocation.get? memIdx with
    | none => []
    | some blocks =>
        [(⟨fid, fid, act.opcode, 0, 0, 0, 0, 0, regMax⟩,
            (action, some (arg (getMemoryRange bs blocks)))),
          (⟨fid, fid, act.opcode, 0, 1, 0, 0, 0, regMax⟩, (.attemptRejoin, none))]
  match act.pnemonic with
  | .addrMaskAt k => entry k .addrMaskApply fun r => roundDouble (r.2 - r.1)
  | .addrOffsetAt k => entry k .addrOffsetApply fun r => r.1
  | _ => []

/-- `installVirtualAddressEntries`. -/
def installVirtualAddressEntries (bs : ℚ) (vaddrSupport : Bool) (fid : Fid)
    (allocation : Dict Stage (List ℕ)) : EStateM Exn Switch Unit :=
  if vaddrSupport then
    Allocator.stages.forM fun i =>
      ((instructionSet.filter (·.vaddr)).flatMap (vaddrEntries bs fid allocation)).forM (addEntry i)
  else pure ()

/-! ### A new allocation -/

/-- `remappedStages`: the remaps of each stage, with the functions they are for. -/
def remappedStages (remaps : Allocator.Remaps) : Dict Stage (List (Fid × Allocator.Remap)) :=
  remaps.items.foldl (fun d p => p.2.foldl (fun d r =>
    d.set r.fromStage ((d.get? r.fromStage).getD [] ++ [(p.1, r)])) d) Dict.empty

/-- `vaddrAllocationMap`: the new blocks of each remapped function, at the stages of its remaps. -/
def vaddrAllocationMap (remapped : Dict Stage (List (Fid × Allocator.Remap))) :
    Dict Fid (Dict Stage (List ℕ)) :=
  remapped.items.foldl (fun d p => p.2.foldl (fun d q =>
    d.set q.1 (((d.get? q.1).getD Dict.empty).set p.1 q.2.newAlloc)) d) Dict.empty

/-- The memory access of one remapped function at one stage. -/
def remapMemoryAccess (bs : ℚ) (i : Stage) (fid : Fid) (newAlloc : List ℕ) :
    EStateM Exn Switch Unit := do
  removeMemoryAccessEntries i fid
  installMemoryAccessEntries bs i fid newAlloc

/-- **The memory access of the remapped functions**: their entries are replaced, stage by stage. -/
def updateMemoryAccess (bs : ℚ) (remapped : Dict Stage (List (Fid × Allocator.Remap))) :
    EStateM Exn Switch Unit :=
  remapped.items.forM fun p => p.2.forM fun q => remapMemoryAccess bs p.1 q.1 q.2.newAlloc

/-- The address translations of the remapped functions. -/
def updateVaddr (bs : ℚ) (vaddrSupport : Bool)
    (remapped : Dict Stage (List (Fid × Allocator.Remap))) : EStateM Exn Switch Unit :=
  (vaddrAllocationMap remapped).items.forM fun p => do
    removeVaddrEntries p.1
    installVirtualAddressEntries bs vaddrSupport p.1 p.2

/-- `staleAllocs`: the remapped functions of each pair of stages. -/
def staleAllocs (remapped : Dict Stage (List (Fid × Allocator.Remap))) :
    Dict GressStage (Dict Fid Unit) :=
  remapped.items.foldl (fun d p => p.2.foldl (fun d q =>
    d.set (gressStage p.1) (((d.get? (gressStage p.1)).getD Dict.empty).set q.1 ())) d) Dict.empty

/-- `allocRemapTable`: the new blocks of each remapped function at each pair of stages.  The half of
a pair that is not remapped stays empty. -/
def allocRemapTable (remapped : Dict Stage (List (Fid × Allocator.Remap))) :
    Dict Fid (Dict GressStage (List ℕ × List ℕ)) :=
  remapped.items.foldl (fun d p => p.2.foldl (fun d q =>
    let stages := (d.get? q.1).getD Dict.empty
    let blocks := (stages.get? (gressStage p.1)).getD ([], [])
    let blocks :=
      if isIngress q.2.toStage then (q.2.newAlloc, blocks.2) else (blocks.1, q.2.newAlloc)
    d.set q.1 (stages.set (gressStage p.1) blocks)) d) Dict.empty

/-- The allocation tables of the remapped functions: stale entries are purged, new ones added. -/
def updateAllocationTables (bs : ℚ) (remapped : Dict Stage (List (Fid × Allocator.Remap))) :
    EStateM Exn Switch Unit := do
  (staleAllocs remapped).items.forM fun p => p.2.keys.forM fun tid => do
    changeAllocations p.1 fun d => .ok (d.erase tid)
    match (allocRemapTable remapped).get? tid with
    | none => throw .keyError
    | some stages =>
        if stages.contains p.1 then pure ()
        else changeAllocations p.1 fun d => tableAdd d tid .default
  (allocRemapTable remapped).items.forM fun p => p.2.items.forM fun q =>
    let ig := getMemoryRange bs q.2.1
    let eg := getMemoryRange bs q.2.2
    changeAllocations q.1 fun d => tableAdd d p.1 (.get ig.1 ig.2 eg.1 eg.2)

/-- The entry of a new function in the allocation table of a pair of stages. -/
def allocationEntry (bs : ℚ) (allocation : Dict Stage (List ℕ)) (k : GressStage) :
    AllocationEntry :=
  let range (i : Stage) := ((allocation.get? i).map (getMemoryRange bs)).getD (0, 0)
  let ig := range (ingress k)
  let eg := range (egress k)
  let validity := roundDouble (roundDouble (roundDouble (ig.1 + ig.2) + eg.1) + eg.2)
  if 0 < validity then .get ig.1 ig.2 eg.1 eg.2 else .default

/-- **The entries of a new function**: memory access, address translation, allocation tables. -/
def installAllocation (bs : ℚ) (vaddrSupport : Bool) (fid : Fid)
    (allocation : Dict Stage (List ℕ)) : EStateM Exn Switch Unit := do
  allocation.items.forM fun p => installMemoryAccessEntries bs p.1 fid p.2
  installVirtualAddressEntries bs vaddrSupport fid allocation
  (List.finRange 10).forM fun k =>
    changeAllocations k fun d => tableAdd d fid (allocationEntry bs allocation k)

/-- A new version of the allocation of a function. -/
def renewAllocation (fid : Fid) (version : ℕ) : EStateM Exn Switch Unit := do
  changeAllocation fun d => tableDelete d fid
  changeAllocation fun d => tableAdd d fid (.allocated version)

/-- `addQuotas`, with recirculation. -/
def addQuotas (fid : Fid) : EStateM Exn Switch Unit := changeQuotaRecirc fun d => tableAdd d fid ()

/-- **The entries of a departing function**: egress first.  The reply table is dumped before its
entry is removed, and the dump of an empty table ends the removal. -/
def removeFunction (fid : Fid) : EStateM Exn Switch Bool := do
  removeVaddrEntries fid
  (List.finRange 10).forM fun k => removeMemoryAccessEntries (egress k) fid
  (List.finRange 10).forM fun k => do
    removeMemoryAccessEntries (ingress k) fid
    changeAllocations k fun d => .ok (d.erase fid)
  if (← get).allocation.items.isEmpty then return false
  changeAllocation fun d => .ok (d.erase fid)
  changeQuotaRecirc fun d => tableDelete d fid
  return true

end Switch

end ActiveRmt
