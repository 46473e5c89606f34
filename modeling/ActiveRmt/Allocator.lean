/-
**The memory allocator of the control plane.**

Every stage of the switch has a column of `maxOccupancy` blocks.  A resident function with demand
`d > 1` at a stage is *inelastic*: it holds exactly `d` consecutive blocks below the stage's
`elasticOffset` and is never moved.  A resident function with demand `1` is *elastic*: the blocks
from the offset on are divided among the elastic functions of the stage anew on every arrival.
`fragmentation` lists holes below the offset; it is rebuilt by every placement and appended to by
departures.

An arrival goes through `computeAllocation` (choose a variant by a cost metric),
`enqueueAllocation` (compute the new columns and what has to move) and `applyQueuedAllocation`
(make the queued columns the live ones); a departure is `deallocate`.  Note that the queue holds
the new maps and columns only: `elasticOffset` and `fragmentation` are changed in place while the
new columns are computed.

Every operation is a function from the state to a result and a state, also when it raises an
exception: the state is then the one the exception leaves behind.

Main definitions:

* `Allocator`, `AllocatorConfig`, `Allocator.init` — the state and its parameters;
* `Allocator.getCostFit`, `Allocator.getCostMoving`, … — the cost metrics, `-1` meaning *refused*;
* `Allocator.computeAllocation` — the choice of a variant;
* `Allocator.placeStage`, `Allocator.computeAllocationMatrix` — the new columns;
* `Allocator.enqueueAllocation`, `Allocator.applyQueuedAllocation`, `Allocator.deallocate`.
-/

import ActiveRmt.ActiveFunction
import ActiveRmt.Blocks

set_option relaxedAutoImplicit false
set_option autoImplicit false

namespace ActiveRmt

open Blocks

/-! ### The state -/

/-- The metrics by which variants are compared. -/
inductive Metric
  | cost | utility | utilization | sat | realloc
  deriving DecidableEq, Repr

/-- The parameters of an allocator. -/
structure AllocatorConfig where
  /-- The number of blocks of a column. -/
  maxOccupancy : ℕ
  /-- The metric. -/
  metric : Metric
  /-- Whether to look for the best variant, or take the first that fits. -/
  optimize : Bool
  /-- Whether the best variant is the one of least cost. -/
  minimize : Bool
  deriving DecidableEq

/-- A hole below the offset: its first block, and its length as the scan counts it. -/
structure Fragment where
  /-- The first block. -/
  start : ℕ
  /-- The length. -/
  size : ℤ
  deriving DecidableEq, Repr

/-- A stage number per resident function, a column per stage: what an arrival queues. -/
structure Plan where
  /-- The occupied stages. -/
  allocation : Finset Stage
  /-- The functions of each stage. -/
  allocationMap : Stage → Finset Fid
  /-- The stages of each function. -/
  revAllocationMap : Dict Fid (List Stage)
  /-- The columns. -/
  allocationMatrix : Stage → List ℕ
  deriving DecidableEq

/-- **The allocator state.** -/
structure Allocator where
  /-- The occupied stages. -/
  allocation : Finset Stage
  /-- The functions of each stage. -/
  allocationMap : Stage → Finset Fid
  /-- The stages of each function. -/
  revAllocationMap : Dict Fid (List Stage)
  /-- The resident functions. -/
  activeFuncs : Dict Fid ActiveFunction
  /-- The columns: the owner of each block of each stage. -/
  allocationMatrix : Stage → List ℕ
  /-- The first block that elastic functions may use. -/
  elasticOffset : Stage → ℕ
  /-- The recorded holes. -/
  fragmentation : Stage → List Fragment
  /-- The function whose arrival is in progress. -/
  queueFid : Option Fid
  /-- The queued allocation. -/
  queue : Option Plan
  deriving DecidableEq

namespace Allocator

variable (cfg : AllocatorConfig)

/-- All stages, in order. -/
def stages : List Stage := List.finRange 20

/-- The empty columns. -/
def zeros : Stage → List ℕ := fun _ => List.replicate cfg.maxOccupancy 0

/-- `reset`: forget all functions and columns.  Offsets and fragments are not touched. -/
def reset (s : Allocator) : Allocator :=
  { s with
    allocation := ∅
    allocationMap := fun _ => ∅
    revAllocationMap := Dict.empty
    activeFuncs := Dict.empty
    allocationMatrix := zeros cfg
    queueFid := none
    queue := none }

/-- A freshly constructed allocator.  The constructor makes all stages share one fragment list, but
a placement gives a stage its own list before a departure there can append to it. -/
def init : Allocator :=
  { allocation := ∅
    allocationMap := fun _ => ∅
    revAllocationMap := Dict.empty
    activeFuncs := Dict.empty
    allocationMatrix := zeros cfg
    elasticOffset := fun _ => 0
    fragmentation := fun _ => []
    queueFid := none
    queue := none }

/-- The demand of a resident function at one of its stages. -/
def getMinDemand (s : Allocator) (fid : Fid) (i : Stage) : Except Exn ℕ :=
  match s.activeFuncs.get? fid with
  | none => .error .assertionError
  | some af =>
      match af.allocation with
      | none => .error .typeError
      | some alloc =>
          match alloc.get? i with
          | none => .error .keyError
          | some k =>
              match af.minDemand[k]? with
              | none => .error .indexError
              | some d => .ok d

/-- The demands of the functions of a stage. -/
def demandsAt (s : Allocator) (i : Stage) : Except Exn (List ℕ) :=
  (ascending (s.allocationMap i)).mapM fun fid => s.getMinDemand fid i

/-- The fraction of all blocks that is in use. -/
def getUtilization (s : Allocator) : ℚ :=
  roundDouble (((stages.map fun i =>
    ((s.allocationMatrix i).filter fun x => 0 < x).length).sum : ℚ) / (cfg.maxOccupancy * 20))

/-! ### Costs -/

/-- The sum of two doubles. -/
def addDouble (a b : ℚ) : ℚ := roundDouble (a + b)

/-- The sum of a cost over the stages of a variant, the `k`-th stage having the `k`-th demand; integers
are added exactly and doubles with rounding.  `none` is a refusal, which the callers report as `-1`. -/
def sumStages (add : ℚ → ℚ → ℚ) (stageCost : Stage → ℕ → Except Exn (Option ℚ))
    (minDemand : List ℕ) : List Stage → ℕ → ℚ → Except Exn ℚ
  | [], _, sum => .ok sum
  | i :: memIdx, k, sum =>
      match minDemand[k]? with
      | none => .error .indexError
      | some d => do
          match ← stageCost i d with
          | none => .ok (-1)
          | some cost => sumStages add stageCost minDemand memIdx (k + 1) (add sum cost)

/-- `getCostFit` at one stage: refuse when the demands do not fit; for an elastic function compare
the number of elastic functions with the elastic region; for an inelastic one compare the demand
with the larger of the elastic region and the first recorded hole. -/
def costFitAt (s : Allocator) (i : Stage) (d : ℕ) : Except Exn (Option ℚ) := do
  let demands ← s.demandsAt i
  let cost := demands.sum + d
  let numElastic := demands.count 1
  let elasticRegion : ℤ := (cfg.maxOccupancy : ℤ) - s.elasticOffset i
  if cost > cfg.maxOccupancy then .ok none
  else if d = 1 then
    if (numElastic : ℤ) + 1 > elasticRegion then .ok none
    else .ok (some (roundDouble (numElastic *
      roundDouble ((cfg.maxOccupancy : ℚ) / (elasticRegion : ℚ)))))
  else
    match (s.fragmentation i).head? with
    | some frag =>
        if frag.size > elasticRegion then
          if frag.size < d then .ok none
          else if elasticRegion < numElastic then .error .assertionError
          else .ok (some cost)
        else if elasticRegion - d < numElastic then .ok none
        else if elasticRegion < d then .ok none
        else if elasticRegion < numElastic then .error .assertionError
        else .ok (some cost)
    | none =>
        if elasticRegion - d < numElastic then .ok none
        else if elasticRegion < d then .ok none
        else if elasticRegion < numElastic then .error .assertionError
        else .ok (some cost)

/-- The cost by which the best fit is chosen: the demands at the stages of the variant. -/
def getCostFit (s : Allocator) (memIdx : List Stage) (af : ActiveFunction) : Except Exn ℚ :=
  sumStages addDouble (s.costFitAt cfg) af.minDemand memIdx 0 0

/-- `getCostMoving` at one stage: the refusals of `costFitAt`, and the estimated number of elastic
functions that have to move. -/
def costMovingAt (s : Allocator) (i : Stage) (d : ℕ) : Except Exn (Option ℚ) := do
  let demands ← s.demandsAt i
  let numElastic := demands.count 1
  let inelasticRegion := (demands.filter (1 < ·)).sum
  let largestCluster : ℤ := (cfg.maxOccupancy : ℤ) - s.elasticOffset i
  let moved : ℚ :=
    if d = 1 ∧ 0 < numElastic then
      let region : ℤ := (cfg.maxOccupancy : ℤ) - inelasticRegion
      let x : ℤ := numElastic + 1
      if region / x < region / (x - 1) then ((x - 1 : ℤ) : ℚ) else ((x - region % x - 1 : ℤ) : ℚ)
    else numElastic
  if demands.sum + d > cfg.maxOccupancy then .ok none
  else if d = 1 then
    if (numElastic : ℤ) + 1 > largestCluster then .ok none else .ok (some moved)
  else
    match (s.fragmentation i).head? with
    | some frag =>
        if frag.size > largestCluster then
          if frag.size < d then .ok none else .ok (some moved)
        else if largestCluster - d < numElastic then .ok none
        else if largestCluster < d then .ok none
        else .ok (some moved)
    | none =>
        if largestCluster - d < numElastic then .ok none
        else if largestCluster < d then .ok none
        else .ok (some moved)

/-- The cost by which the least disruption is chosen. -/
def getCostMoving (s : Allocator) (memIdx : List Stage) (af : ActiveFunction) : Except Exn ℚ :=
  sumStages (· + ·) (s.costMovingAt cfg) af.minDemand memIdx 0 0

/-- `getUtilizationIncrease` at one stage. -/
def utilizationIncreaseAt (s : Allocator) (i : Stage) (d : ℕ) : Except Exn (Option ℚ) := do
  let demands ← s.demandsAt i
  let remaining : ℤ := (cfg.maxOccupancy : ℤ) - demands.sum - d
  if remaining < 0 then .ok none
  else if 1 ∈ demands then .ok (some 0)
  else if d > 1 then .ok (some d)
  else .ok (some remaining)

/-- The number of additional blocks in use. -/
def getUtilizationIncrease (s : Allocator) (memIdx : List Stage) (af : ActiveFunction) :
    Except Exn ℚ :=
  sumStages (· + ·) (s.utilizationIncreaseAt cfg) af.minDemand memIdx 0 0

/-- `getFeasibility` at one stage. -/
def feasibilityAt (s : Allocator) (i : Stage) (d : ℕ) : Except Exn (Option ℚ) := do
  let demands ← s.demandsAt i
  if demands.sum + d > cfg.maxOccupancy then .ok none else .ok (some 0)

/-- Whether the demands fit, as a cost of zero. -/
def getFeasibility (s : Allocator) (memIdx : List Stage) (af : ActiveFunction) : Except Exn ℚ :=
  sumStages (· + ·) (s.feasibilityAt cfg) af.minDemand memIdx 0 0

/-- The loop of `getUtility`, with the sums of the blocks obtained and of the blocks wanted. -/
def utilityLoop (s : Allocator) (minDemand : List ℕ) :
    List Stage → ℕ → ℤ → ℕ → Except Exn ℚ
  | [], _, sumMaxBlocks, sumMaxDemand => .ok (roundDouble ((sumMaxBlocks : ℚ) / sumMaxDemand))
  | i :: memIdx, k, sumMaxBlocks, sumMaxDemand =>
      match minDemand[k]? with
      | none => .error .indexError
      | some d => do
          let demands ← s.demandsAt i
          let fixed := (demands.filter (1 < ·)).sum
          let numVar := (demands.filter (¬1 < ·)).length
          let maxDemand := if d > 1 then d else cfg.maxOccupancy
          let maxBlocks : ℤ :=
            if d = 1 then ((cfg.maxOccupancy : ℤ) - fixed) / (numVar + 1)
            else min ((cfg.maxOccupancy : ℤ) - fixed - numVar) d
          if maxBlocks < d then .ok (-1)
          else
            utilityLoop s minDemand memIdx (k + 1) (sumMaxBlocks + maxBlocks)
              (sumMaxDemand + maxDemand)

/-- The fraction of its maximal demand that a function would get. -/
def getUtility (s : Allocator) (memIdx : List Stage) (af : ActiveFunction) : Except Exn ℚ :=
  utilityLoop cfg s af.minDemand memIdx 0 0 0

/-- The cost of a variant under the configured metric. -/
def getCost (s : Allocator) (memIdx : List Stage) (af : ActiveFunction) : Except Exn ℚ :=
  match cfg.metric with
  | .cost => s.getCostFit cfg memIdx af
  | .utility => s.getUtility cfg memIdx af
  | .utilization => s.getUtilizationIncrease cfg memIdx af
  | .realloc => s.getCostMoving cfg memIdx af
  | .sat => s.getFeasibility cfg memIdx af

/-! ### Choosing a variant -/

/-- One candidate: refused variants are skipped, and a better one replaces the best so far. -/
def better (best : Option (List Stage × ℚ)) (memIdx : List Stage) (cost : ℚ) :
    Option (List Stage × ℚ) :=
  match best with
  | none => some (memIdx, cost)
  | some (v, optCost) =>
      if (cfg.minimize ∧ cost < optCost) ∨ (¬cfg.minimize ∧ cost > optCost) then
        some (memIdx, cost)
      else some (v, optCost)

/-- The search over the variants. -/
def search (s : Allocator) (af : ActiveFunction) :
    List (List Stage) → Option (List Stage × ℚ) → Except Exn (Option (List Stage × ℚ))
  | [], best => .ok best
  | memIdx :: variants, best => do
      let cost ← s.getCost cfg memIdx af
      if cost < 0 then s.search af variants best
      else if cfg.optimize then s.search af variants (better cfg best memIdx cost)
      else .ok (some (memIdx, cost))

/-- What `computeAllocation` returns, without the timings. -/
structure Choice where
  /-- The variant chosen. -/
  optimal : List Stage
  /-- Its cost. -/
  optCost : ℚ
  /-- The fraction of blocks in use. -/
  utilization : ℚ
  /-- The occupied stages after the arrival. -/
  allocation : Finset Stage
  /-- The functions of each stage after the arrival. -/
  allocationMap : Stage → Finset Fid
  deriving DecidableEq

/-- The access served by each stage of a placement: the position of the stage in the variant. -/
def accessMap (memIdx : List Stage) : Dict Stage ℕ :=
  memIdx.zipIdx.foldl (fun d p => d.set p.1 p.2) Dict.empty

/-- **`computeAllocation`**, online: register the function, search its variants, and take it off
again when none fits. -/
def computeAllocation (af : ActiveFunction) : EStateM Exn Allocator (Option Choice) := fun s₀ =>
  let s := { s₀ with
    queueFid := some af.fid
    queue := none
    activeFuncs := s₀.activeFuncs.set af.fid af }
  match s.search cfg af af.getEnumeration none with
  | .error ex => .error ex s
  | .ok none => .ok none { s with activeFuncs := s.activeFuncs.erase af.fid }
  | .ok (some (optimal, optCost)) =>
      let placed := { af with allocation := some (accessMap optimal) }
      .ok (some
        { optimal := optimal
          optCost := optCost
          utilization := s.getUtilization cfg
          allocation := s.allocation ∪ optimal.toFinset
          allocationMap := fun i =>
            if i ∈ optimal then insert af.fid (s.allocationMap i) else s.allocationMap i })
        { s with activeFuncs := s.activeFuncs.set af.fid placed }

/-! ### Placing the functions of one stage -/

/-- The state of the scan for holes.  The markers are `-1` when unset; `fragEnd` keeps its value
from one hole to the next. -/
structure Scan where
  /-- The first block of the hole being scanned. -/
  fragStart : ℤ
  /-- The last block of the hole seen so far, when it has more than one. -/
  fragEnd : ℤ
  /-- The holes that an occupied block has closed. -/
  fragments : List Fragment
  /-- The functions met. -/
  inelastic : Finset Fid
  deriving DecidableEq

namespace Scan

/-- Before the first block. -/
def start : Scan := ⟨-1, -1, [], ∅⟩

/-- A free block. -/
def free (sc : Scan) (j : ℕ) : Scan :=
  if sc.fragStart < 0 then { sc with fragStart := j } else { sc with fragEnd := j }

/-- A block of the inelastic function `fid`. -/
def used (sc : Scan) (fid : Fid) : Scan :=
  let sc := { sc with inelastic := insert fid sc.inelastic }
  if 0 ≤ sc.fragStart then
    let fragEnd := if sc.fragEnd < 0 then sc.fragStart else sc.fragEnd
    { sc with
      fragStart := -1
      fragEnd := fragEnd
      fragments := sc.fragments ++ [⟨sc.fragStart.toNat, fragEnd - sc.fragStart + 1⟩] }
  else sc

end Scan

/-- The scan of the blocks below the offset, from block `j` on; it asserts that no function there
is elastic. -/
def scanLoop (demand : Fid → Except Exn ℕ) : ℕ → List ℕ → Scan → Scan × Except Exn Unit
  | _, [], sc => (sc, .ok ())
  | j, x :: xs, sc =>
      if x = 0 then scanLoop demand (j + 1) xs (sc.free j)
      else
        match demand x with
        | .error ex => (sc, .error ex)
        | .ok d =>
            if d ≤ 1 then (sc, .error .assertionError)
            else scanLoop demand (j + 1) xs (sc.used x)

/-- One hole of the search for the largest one of length at least `d`. -/
def holeStep (d : ℕ) (best : Option (Fragment × ℕ)) (p : Fragment × ℕ) : Option (Fragment × ℕ) :=
  if p.1.size < (d : ℤ) then best
  else
    match best with
    | none => some p
    | some b => if b.1.size < p.1.size then some p else best

/-- The largest hole of length at least `d`, the first one of equal length, with its index. -/
def bestHole (d : ℕ) (frags : List Fragment) : Option (Fragment × ℕ) :=
  frags.zipIdx.foldl (holeStep d) none

/-- What a stage changes in place. -/
structure StageState where
  /-- The holes of the stage. -/
  fragmentation : List Fragment
  /-- The offset of the stage. -/
  elasticOffset : ℕ
  deriving DecidableEq

/-- Placing the inelastic arrivals among `apps`: into the largest hole that is long enough, and at
the offset when there is none. -/
def placeInelastic : List (Fid × ℕ) → List ℕ → EStateM Exn StageState (List ℕ)
  | [], col => fun st => .ok col st
  | app :: apps, col => fun st =>
      if app.2 ≤ 1 then placeInelastic apps col st
      else
        match bestHole app.2 st.fragmentation with
        | none =>
            if col.length < st.elasticOffset + app.2 then .error .indexError st
            else placeInelastic apps (writeRange col st.elasticOffset app.2 app.1)
              { st with elasticOffset := st.elasticOffset + app.2 }
        | some (frag, k) =>
            if col.length < frag.start + app.2 then .error .indexError st
            else placeInelastic apps (writeRange col frag.start app.2 app.1)
              { st with fragmentation :=
                  if (app.2 : ℤ) = frag.size then st.fragmentation.eraseIdx k
                  else st.fragmentation.set k ⟨frag.start + app.2, frag.size - app.2⟩ }

/-- Packing shares into a region of `size` blocks: the shares that fit, the blocks left over, and
the shares that did not fit. -/
def pack : ℕ → List (Fid × ℕ) → List (Fid × ℕ) × ℕ × List (Fid × ℕ)
  | size, [] => ([], size, [])
  | size, p :: l =>
      if 0 < size ∧ p.2 ≤ size then
        let r := pack (size - p.2) l
        (p :: r.1, r.2)
      else ([], size, p :: l)

/-- Dividing the blocks from the offset on among the elastic functions: deal them out in rounds,
pack the shares, and give what is left over to a function that did not fit.  There is one region
to pack, the elastic one. -/
def fillElastic (e numElastic : ℕ) (apps : List (Fid × ℕ)) (col : List ℕ) :
    Except Exn (List ℕ) :=
  if numElastic = 0 then .ok col
  else
    let remaining := col.length - e
    if col.length < e + numElastic then .error .assertionError
    else
      let shares := deal remaining remaining
        ((apps.filter fun app => app.2 ≤ 1).map fun app => (app.1, 0))
      let packed := pack remaining (shares.take numElastic)
      let left := packed.2.1
      let rest := packed.2.2
      if (if 0 < left then 1 else 0) < rest.length then .error .assertionError
      else
        let clusters := packed.1 ++ (rest.take (if 0 < left then 1 else 0)).map fun p => (p.1, left)
        if col.length < e + total clusters then .error .indexError
        else .ok (writeRuns col e clusters)

/-- Fragments by decreasing length, in a stable order. -/
def sortFragments (frags : List Fragment) : List Fragment :=
  frags.insertionSort fun a b => b.size ≤ a.size

/-- The blocks below the offset of an otherwise empty column. -/
def copyBelow (e : ℕ) (col : List ℕ) : List ℕ := col.mapIdx fun j x => if j < e then x else 0

/-- **The new column of a stage** whose functions are `fids`, from its old column. -/
def placeStage (demand : Fid → Except Exn ℕ) (fids : Finset Fid) (old : List ℕ) :
    EStateM Exn StageState (List ℕ) := fun st =>
  let e := st.elasticOffset
  let scan := scanLoop demand 0 (old.take e) Scan.start
  let st : StageState := ⟨scan.1.fragments, e⟩
  match scan.2 with
  | .error ex => .error ex st
  | .ok () =>
      if old.length < e then .error .indexError st
      else
        match (old.drop e).filter (0 < ·) |>.mapM fun x => (demand x).map fun d => (x, d) with
        | .error ex => .error ex st
        | .ok above =>
            match (ascending fids).mapM fun fid => (demand fid).map fun d => (fid, d) with
            | .error ex => .error ex st
            | .ok apps =>
                let currentTenants := tenants old
                let currentElastic := ((above.filter fun p => p.2 = 1).map Prod.fst).toFinset
                let arrivals := apps.filter fun app => app.1 ∉ currentTenants
                let numElastic := (apps.filter fun app => app.2 = 1).length
                let pruned := apps.filter fun app => app.1 ∉ scan.1.inelastic
                let inelasticArrivals := pruned.filter fun app => 1 < app.2
                let elasticArrivals :=
                  pruned.filter fun app => app.2 = 1 ∧ app.1 ∉ currentElastic
                if 1 < arrivals.length ∨ 1 < inelasticArrivals.length ∨
                    1 < elasticArrivals.length ∨ old.length < e + numElastic then
                  .error .assertionError st
                else
                  let apps := pruned.insertionSort fun a b => a.1 ≤ b.1
                  match placeInelastic apps (copyBelow e old) st with
                  | .error ex st => .error ex st
                  | .ok col st =>
                      match fillElastic st.elasticOffset numElastic apps col with
                      | .error ex => .error ex st
                      | .ok col =>
                          .ok col { st with fragmentation := sortFragments st.fragmentation }

/-! ### The new columns -/

/-- The assertion that an inelastic function keeps block `k` of stage `j`. -/
def checkPinned (s : Allocator) (new : Stage → List ℕ) (j : Stage) (k : ℕ) : Except Exn Unit :=
  let fid := owner (s.allocationMatrix j) k
  if fid = 0 then .ok ()
  else
    match s.getMinDemand fid j with
    | .error ex => .error ex
    | .ok d => if 1 < d ∧ fid ≠ owner (new j) k then .error .assertionError else .ok ()

/-- `checkPinned` for all blocks of the given stages. -/
def verifyPinned (s : Allocator) (new : Stage → List ℕ) (js : List Stage) : Except Exn Unit :=
  (List.range cfg.maxOccupancy).forM fun k => js.forM fun j => s.checkPinned new j k

/-- What is verified after stage `i` is placed: pinned blocks, no function lost, the arrival
placed. -/
def verifyStage (s : Allocator) (new : Stage → List ℕ) (i : Stage) (fids : Finset Fid) :
    Except Exn Unit := do
  s.verifyPinned cfg new (stages.filter (· ≤ i))
  if ¬tenants (s.allocationMatrix i) ⊆ tenants (new i) then .error .assertionError
  else if ¬fids \ tenants (s.allocationMatrix i) ⊆ tenants (new i) then .error .assertionError
  else .ok ()

/-- One stage of `computeAllocationMatrix`: a stage without functions stays empty. -/
def placeAt (map : Stage → Finset Fid) (new : Stage → List ℕ) (i : Stage) :
    EStateM Exn Allocator (Stage → List ℕ) := fun s =>
  if map i = ∅ then .ok new s
  else
    match placeStage (fun fid => s.getMinDemand fid i) (map i) (s.allocationMatrix i)
        ⟨[], s.elasticOffset i⟩ with
    | .error ex st => .error ex { s with
        elasticOffset := Function.update s.elasticOffset i st.elasticOffset
        fragmentation := Function.update s.fragmentation i st.fragmentation }
    | .ok col st =>
        let s := { s with
          elasticOffset := Function.update s.elasticOffset i st.elasticOffset
          fragmentation := Function.update s.fragmentation i st.fragmentation }
        let new := Function.update new i col
        match s.verifyStage cfg new i (map i) with
        | .error ex => .error ex s
        | .ok () => .ok new s

/-- **The new columns**, stage by stage. -/
def computeAllocationMatrix (map : Stage → Finset Fid) :
    EStateM Exn Allocator (Stage → List ℕ) := do
  let new ← stages.foldlM (placeAt cfg map) (zeros cfg)
  if stages.all fun i => map i = ∅ then throw .assertionError
  return new

/-! ### Queueing and applying -/

/-- A resident function that has to move its data at a stage. -/
structure Remap where
  /-- The stage it is moved from. -/
  fromStage : Stage
  /-- Its blocks there. -/
  prevAlloc : List ℕ
  /-- The stage it is moved to. -/
  toStage : Stage
  /-- Its new blocks. -/
  newAlloc : List ℕ
  deriving DecidableEq, Repr

/-- The functions to be remapped, with their remaps. -/
abbrev Remaps := Dict Fid (List Remap)

/-- A function is elastic at a stage. -/
def isElastic (s : Allocator) (fid : Fid) (i : Stage) : Bool :=
  match s.getMinDemand fid i with
  | .ok d => d = 1
  | .error _ => false

/-- The elastic functions of the live columns, in the order the columns are read. -/
def elasticApps (s : Allocator) : List Fid :=
  (stages.flatMap fun i =>
    ((s.allocationMatrix i).filter fun x => 0 < x ∧ s.isElastic x i)).reverse.dedup.reverse

/-- The stages at which an elastic function loses a block. -/
def affectedStages (s : Allocator) (new : Stage → List ℕ) (fid : Fid) : List Stage :=
  stages.filter fun i => s.isElastic fid i ∧
    ∃ k ∈ blocksOf (s.allocationMatrix i) fid, owner (new i) k ≠ fid

/-- The functions that lose a block, with the stages `(old, new, resized)`. -/
def computeChanges (s : Allocator) (new : Stage → List ℕ) : Dict Fid (List (Stage × Stage × Bool)) :=
  s.elasticApps.foldl (fun d fid =>
    let affected := s.affectedStages new fid
    if affected = [] then d else d.set fid (affected.map fun i => (i, i, true))) Dict.empty

/-- The remaps of a function: its old and new blocks at the stages where it changes. -/
def remapsOf (s : Allocator) (new : Stage → List ℕ) (fid : Fid)
    (changed : List (Stage × Stage × Bool)) : List Remap :=
  (changed.map fun c =>
    (⟨c.1, blocksOf (s.allocationMatrix c.1) fid, c.2.1, blocksOf (new c.2.1) fid⟩ : Remap)).filter
    fun r => ¬(r.fromStage = r.toStage ∧ r.prevAlloc = r.newAlloc)

/-- The stages of each function of a map. -/
def reverseMap (map : Stage → Finset Fid) : Dict Fid (List Stage) :=
  stages.foldl (fun d i => (ascending (map i)).foldl
    (fun d fid => d.set fid ((d.get? fid).getD [] ++ [i])) d) Dict.empty

/-- The demands that the comparison of the columns looks up. -/
def verifyDemands (s : Allocator) (new : Stage → List ℕ) : Except Exn Unit :=
  stages.forM fun i => (new i).forM fun x =>
    if x = 0 then .ok () else (s.getMinDemand x i).map fun _ => ()

/-- **`enqueueAllocation`**: compute the new columns, find the functions that have to move, and
queue the result. -/
def enqueueAllocation (allocation : Finset Stage) (map : Stage → Finset Fid) :
    EStateM Exn Allocator (Dict Fid (List (Stage × Stage × Bool)) × Remaps × ℕ) := fun s =>
  match computeAllocationMatrix cfg map s with
  | .error ex s => .error ex s
  | .ok new s =>
      match s.verifyPinned cfg new stages with
      | .error ex => .error ex s
      | .ok () =>
          match s.verifyDemands new with
          | .error ex => .error ex s
          | .ok () =>
              let changes := s.computeChanges new
              let remaps : Remaps := changes.items.foldl
                (fun d p => d.set p.1 (s.remapsOf new p.1 p.2)) Dict.empty
              -- inelastic functions are not moved within a stage
              if remaps.items.any fun p => p.2.any fun r =>
                  r.fromStage = r.toStage ∧ ¬s.isElastic p.1 r.fromStage then
                .error .assertionError s
              else
                .ok (changes, remaps, s.elasticApps.length)
                  { s with queue := some ⟨allocation, map, reverseMap map, new⟩ }

/-- **`applyQueuedAllocation`**: the queued maps and columns become the live ones. -/
def applyQueuedAllocation : EStateM Exn Allocator Bool := fun s =>
  match s.queueFid, s.queue with
  | none, _ => .ok false s
  | some _, none => .error .typeError s
  | some _, some plan => .ok true
      { s with
        allocation := plan.allocation
        allocationMap := plan.allocationMap
        revAllocationMap := plan.revAllocationMap
        allocationMatrix := plan.allocationMatrix
        queueFid := none
        queue := none }

/-- The blocks of a function, by stage. -/
def getAllocationBlocks (s : Allocator) (fid : Fid) : Dict Stage (List ℕ) :=
  stages.foldl (fun d i =>
    let blocks := blocksOf (s.allocationMatrix i) fid
    if blocks = [] then d else d.set i blocks) Dict.empty

/-! ### Departures -/

/-- One past the last block of a function, `0` when it has none. -/
def endOf (col : List ℕ) (fid : Fid) : ℕ := ((blocksOf col fid).getLast?.map (· + 1)).getD 0

/-- `deallocate` at one stage. -/
def deallocateAt (fid : Fid) (i : Stage) : EStateM Exn Allocator Unit := fun s =>
  match s.getMinDemand fid i with
  | .error ex => .error ex s
  | .ok d =>
      if fid ∉ s.allocationMap i then .error .keyError s
      else
        let old := s.allocationMatrix i
        let numBlocksRemoved := (blocksOf old fid).length
        let s := { s with
          allocationMap := Function.update s.allocationMap i ((s.allocationMap i).erase fid)
          allocationMatrix := Function.update s.allocationMatrix i (release old fid) }
        let stageEmpty := tenants (release old fid) = ∅
        if stageEmpty ∧ i ∉ s.allocation then .error .assertionError s
        else
          let s := if stageEmpty then { s with allocation := s.allocation.erase i } else s
          if d = 1 then .ok () s
          else if endOf old fid = s.elasticOffset i then
            .ok () { s with elasticOffset :=
              Function.update s.elasticOffset i (s.elasticOffset i - numBlocksRemoved) }
          else
            .ok () { s with fragmentation :=
              Function.update s.fragmentation i (s.fragmentation i ++
                [⟨endOf old fid - numBlocksRemoved, numBlocksRemoved⟩]) }

/-- **`deallocate`**: take a function off all its stages. -/
def deallocate (fid : Fid) : EStateM Exn Allocator Bool := fun s =>
  if fid ∉ s.activeFuncs.keys then .ok false s
  else
    match s.revAllocationMap.get? fid with
    | none => .error .keyError s
    | some is =>
        match is.forM (deallocateAt fid) s with
        | .error ex s => .error ex s
        | .ok _ s => .ok true
            { s with
              revAllocationMap := s.revAllocationMap.erase fid
              activeFuncs := s.activeFuncs.erase fid }

end Allocator

end ActiveRmt
