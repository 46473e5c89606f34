/-
**Active functions: access constraints and the enumeration of their mutants.**

An active function is a program of `progLen` instructions, some of which access switch memory.  The
allocator may delay an access to a later pipeline stage by inserting no-ops, so each function comes
with the list of placements (*variants*) its constraints allow: per access a lower bound (its
position in the program), an upper bound (set by the program length and by the last instruction
that has to run in the ingress pipeline), and the distance to the access before it.  A position
past the ingress pipeline is executed in the egress pipeline, which the packet goes through again
and again, so that positions ten apart share a physical stage.

Main definitions:

* `Stage`, `stageOf` — the twenty physical stages, and the one a position is executed in;
* `ActiveFunction` — the object the allocator works on, built by `ActiveFunction.init`;
* `ActiveFunction.successor`, `ActiveFunction.enumerateLoop`, `ActiveFunction.prune` — the loop
  that lists all placements, and the pass that keeps those with the original sharing of stages;
* `ActiveFunction.getEnumeration` — the variants, each as its sorted set of stages.

Main results:

* `ActiveFunction.length_of_mem_enumeration` — a variant places every access of the program;
* `ActiveFunction.init_wellFormed` — **what the allocator may rely on**: a variant is a non-empty
  increasing list of stages, no longer than the list of demands.
-/

import ActiveRmt.PyValues

set_option relaxedAutoImplicit false
set_option autoImplicit false

namespace ActiveRmt

/-- An exception of the control plane, by its Python class. -/
inductive Exn
  | assertionError | indexError | keyError | typeError | valueError | nameError
  /-- A table operation refused by the driver. -/
  | tableError
  /-- A thread that waits for a lock nobody will release. -/
  | deadlock
  deriving DecidableEq, Repr

/-- The identifier of a function; `0` marks free memory. -/
abbrev Fid := ℕ

/-- The number of ingress stages. -/
def numStageIg : ℕ := 10

/-- The number of egress stages. -/
def numStageEg : ℕ := 10

/-- A physical stage: `0, …, 9` are the ingress stages, `10, …, 19` the egress stages. -/
abbrev Stage := Fin 20

instance instLawfulBEqStage : LawfulBEq Stage := inferInstance

instance instNeZeroStage : NeZero 20 := ⟨by decide⟩

/-- The stage that executes position `y` of a program: the egress stages are used again by every
further pass. -/
def stageOf (y : ℕ) : Stage :=
  if h : y < numStageIg then ⟨y, by unfold numStageIg at h; omega⟩
  else ⟨y % numStageEg + numStageIg, by unfold numStageEg numStageIg; omega⟩

/-- A function as the allocator sees it.  The fields follow the attributes of the object; the
constraint vectors are recomputed from them. -/
structure ActiveFunction where
  /-- The identifier. -/
  fid : Fid
  /-- The positions of the memory accesses. -/
  accessIdx : List ℕ
  /-- The last position that must run in the ingress pipeline, negative when there is none. -/
  igLim : ℤ
  /-- The number of instructions. -/
  progLen : ℕ
  /-- The number of blocks asked for, per access; `1` asks for an elastic share. -/
  minDemand : List ℕ
  /-- Whether a mutant may take one more pass than the program itself. -/
  allowRecirculations : Bool
  /-- The access that each stage of the placement serves, once the function is placed. -/
  allocation : Option (Dict Stage ℕ)
  /-- The placements kept by the enumeration, one position per access. -/
  enumeration : List (List ℕ)
  deriving DecidableEq

namespace ActiveFunction

/-! ### Constraints -/

/-- The length a mutant may grow to without needing another pass through the egress pipeline. -/
def maxProgLen (progLen : ℕ) (allowRecirculations : Bool) : ℕ :=
  let len := max
    (if progLen ≤ 20 then progLen
      else numStageIg + (progLen - numStageIg + (numStageEg - 1)) / numStageEg * numStageEg) 20
  if allowRecirculations then len + numStageEg else len

/-- The lower bounds: the access positions as 32-bit words. -/
def constrLB (accessIdx : List ℕ) : List ℕ := accessIdx.map (· % 2 ^ 32)

/-- The upper bound of the access with lower bound `lb`, in 32-bit arithmetic. -/
def upperBound (igLim : ℤ) (progLen : ℕ) (allowRecirculations : Bool) (lb : ℕ) : ℕ :=
  if 0 ≤ igLim ∧ igLim < numStageIg ∧ lb < igLim then
    ((lb + numStageIg - igLim - 1 : ℤ) % 2 ^ 32).toNat
  else ((lb + maxProgLen progLen allowRecirculations - progLen - 1 : ℤ) % 2 ^ 32).toNat

/-- The upper bounds. -/
def constrUB (igLim : ℤ) (progLen : ℕ) (allowRecirculations : Bool) (accessIdx : List ℕ) :
    List ℕ :=
  (constrLB accessIdx).map (upperBound igLim progLen allowRecirculations)

/-- The distances of a vector of bounds, the first one from zero: the product of the vector with
the difference matrix, in 64-bit arithmetic. -/
def deltas : ℕ → List ℕ → List ℕ
  | _, [] => []
  | prev, lb :: lbs => (((lb : ℤ) - prev) % 2 ^ 64).toNat :: deltas lb lbs

/-- The distance of each access to the one before it. -/
def constrDelta (accessIdx : List ℕ) : List ℕ := deltas 0 (constrLB accessIdx)

/-! ### Enumeration -/

/-- The positions after `prev` that keep the original distances; the sum is taken in 64 bits and
stored in 32. -/
def refill : ℕ → List ℕ → List ℕ
  | _, [] => []
  | prev, d :: ds =>
      let x := (prev + d) % 2 ^ 64 % 2 ^ 32
      x :: refill x ds

/-- The next placement: the last position that can still move does so, and the positions after it
are reset to the original distances.  `none` when no position can move. -/
def successor : List ℕ → List ℕ → List ℕ → Option (List ℕ)
  | x :: xs, u :: us, _ :: ds =>
      match successor xs us ds with
      | some xs' => some (x :: xs')
      | none => if x + 1 > u then none else some ((x + 1) :: refill (x + 1) ds)
  | _, _, _ => none

/-- The enumeration loop from the placement `current`; `fuel` bounds the number of rounds. -/
def enumerateLoop (ub delta : List ℕ) : ℕ → List ℕ → List (List ℕ)
  | 0, _ => []
  | fuel + 1, current =>
      current :: (match successor current ub delta with
        | none => []
        | some next => enumerateLoop ub delta fuel next)

/-- The accesses of each stage of the original placement, in program order. -/
def reuses (orig : List Stage) : Dict Stage (List ℕ) :=
  orig.zipIdx.foldl (fun d p => d.set p.1 ((d.get? p.1).getD [] ++ [p.2])) Dict.empty

/-- Neighbouring members of a class of accesses are on one stage. -/
def agree (x : List Stage) : List ℕ → Bool
  | i :: j :: l => x[j]? == x[i]? && agree x (j :: l)
  | _ => true

/-- The pruning pass: accesses that shared a stage still do, and the number of stages is the
same. -/
def prune (lb : List ℕ) (candidates : List (List ℕ)) : List (List ℕ) :=
  let orig := lb.map stageOf
  let classes := reuses orig
  candidates.filter fun x =>
    let x := x.map stageOf
    decide (x.toFinset.card = classes.keys.length) &&
      (classes.items.filter fun c => 1 < c.2.length).all fun c => agree x c.2

/-- All placements within the bounds, pruned.  A placement is a vector of 32-bit words and the loop
visits them in increasing order, so `2 ^ (32 * n)` rounds are enough for `n` accesses. -/
def enumerate (accessIdx : List ℕ) (igLim : ℤ) (progLen : ℕ) (allowRecirculations : Bool) :
    List (List ℕ) :=
  prune (constrLB accessIdx)
    (enumerateLoop (constrUB igLim progLen allowRecirculations accessIdx) (constrDelta accessIdx)
      (2 ^ (32 * accessIdx.length)) (constrLB accessIdx))

/-- The constructor, with `enumerate` set: it fails when the accesses and the demands differ in
number, and when there is no access. -/
def init (fid : Fid) (accessIdx : List ℕ) (igLim : ℤ) (progLen : ℕ) (minDemand : List ℕ)
    (allowFilling : Bool) : Except Exn ActiveFunction :=
  if accessIdx.length ≠ minDemand.length then .error .assertionError
  else if accessIdx = [] then .error .indexError
  else .ok
    { fid := fid
      accessIdx := accessIdx
      igLim := igLim
      progLen := progLen
      minDemand := minDemand
      allowRecirculations := allowFilling
      allocation := none
      enumeration := enumerate accessIdx igLim progLen allowFilling }

/-- The variants, each as the sorted set of its stages. -/
def getEnumeration (af : ActiveFunction) : List (List Stage) :=
  af.enumeration.map fun x => ascending (x.map stageOf).toFinset

/-- A function whose only access is at stage `i` and cannot be delayed: its program fills the
pipeline up to one instruction. -/
def singleAccess (fid : Fid) (i : Stage) (d : ℕ) : ActiveFunction :=
  { fid := fid
    accessIdx := [i]
    igLim := -1
    progLen := 19
    minDemand := [d]
    allowRecirculations := false
    allocation := none
    enumeration := enumerate [i] (-1) 19 false }

theorem init_singleAccess (fid : Fid) (i : Stage) (d : ℕ) :
    init fid [i] (-1) 19 [d] false = .ok (singleAccess fid i d) := rfl

/-- Its only variant is the stage itself. -/
theorem getEnumeration_singleAccess (fid : Fid) (i : Stage) (d : ℕ) :
    (singleAccess fid i d).getEnumeration = [[i]] := by
  have key : ∀ i : Stage, (enumerate [(i : ℕ)] (-1) 19 false).map
      (fun x => ascending (x.map stageOf).toFinset) = [[i]] := by decide +kernel
  exact key i

/-! ### What the allocator may rely on -/

/-- **A well-formed function**: its variants are non-empty increasing lists of stages, no longer
than the list of demands. -/
structure WellFormed (af : ActiveFunction) : Prop where
  /-- A variant has a stage. -/
  ne_nil : ∀ v ∈ af.getEnumeration, v ≠ []
  /-- A variant has no stage twice. -/
  nodup : ∀ v ∈ af.getEnumeration, v.Nodup
  /-- Every stage of a variant has a demand. -/
  length_le : ∀ v ∈ af.getEnumeration, v.length ≤ af.minDemand.length

@[simp] theorem length_constrLB (accessIdx : List ℕ) :
    (constrLB accessIdx).length = accessIdx.length := by
  simp [constrLB]

@[simp] theorem length_refill (prev : ℕ) (ds : List ℕ) : (refill prev ds).length = ds.length := by
  induction ds generalizing prev with
  | nil => rfl
  | cons d ds ih => simp [refill, ih]

/-- The next placement has a position for every access, as long as the vector of distances does. -/
theorem length_successor {cur ub delta next : List ℕ} (h : successor cur ub delta = some next)
    (hd : delta.length = cur.length) : next.length = cur.length := by
  induction cur generalizing ub delta next with
  | nil => simp [successor] at h
  | cons x xs ih =>
      match ub, delta with
      | [], _ => simp [successor] at h
      | u :: us, [] => simp [successor] at h
      | u :: us, d :: ds =>
          have hds : ds.length = xs.length := by simpa using hd
          simp only [successor] at h
          cases hs : successor xs us ds with
          | some xs' =>
              rw [hs] at h
              obtain rfl : x :: xs' = next := by simpa using h
              simpa using ih hs hds
          | none =>
              rw [hs] at h
              split_ifs at h
              obtain rfl : (x + 1) :: refill (x + 1) ds = next := by simpa using h
              simp [hds]

theorem length_of_mem_enumerateLoop {ub delta : List ℕ} {n : ℕ} (hd : delta.length = n) :
    ∀ (fuel : ℕ) (cur : List ℕ), cur.length = n → ∀ x ∈ enumerateLoop ub delta fuel cur,
      x.length = n := by
  intro fuel
  induction fuel with
  | zero => intro cur _ x hx; simp [enumerateLoop] at hx
  | succ fuel ih =>
      intro cur hcur x hx
      rw [enumerateLoop, List.mem_cons] at hx
      rcases hx with rfl | hx
      · exact hcur
      · cases hs : successor cur ub delta with
        | none => simp [hs] at hx
        | some next =>
            rw [hs] at hx
            exact ih next ((length_successor hs (hd.trans hcur.symm)).trans hcur) x hx

@[simp] theorem length_deltas (prev : ℕ) (lbs : List ℕ) : (deltas prev lbs).length = lbs.length := by
  induction lbs generalizing prev with
  | nil => rfl
  | cons lb lbs ih => simp [deltas, ih]

/-- A kept placement has a position for every access. -/
theorem length_of_mem_enumerate {accessIdx : List ℕ} {igLim : ℤ} {progLen : ℕ} {b : Bool}
    {x : List ℕ} (hx : x ∈ enumerate accessIdx igLim progLen b) : x.length = accessIdx.length := by
  have hdelta : (constrDelta accessIdx).length = accessIdx.length := by simp [constrDelta]
  exact length_of_mem_enumerateLoop hdelta _ _ (by simp) x (List.mem_filter.1 hx).1

/-- **A function built by the constructor is well formed.** -/
theorem init_wellFormed {fid : Fid} {accessIdx : List ℕ} {igLim : ℤ} {progLen : ℕ}
    {minDemand : List ℕ} {allowFilling : Bool} {af : ActiveFunction}
    (h : init fid accessIdx igLim progLen minDemand allowFilling = .ok af) :
    af.WellFormed ∧ af.fid = fid ∧ af.minDemand = minDemand := by
  unfold init at h
  split_ifs at h with hlen hne
  obtain rfl := (Except.ok.inj h)
  refine ⟨?_, rfl, rfl⟩
  have key : ∀ v ∈ (enumerate accessIdx igLim progLen allowFilling).map
      (fun x => ascending (x.map stageOf).toFinset), v ≠ [] ∧ v.Nodup ∧
        v.length ≤ minDemand.length := by
    intro v hv
    obtain ⟨x, hx, rfl⟩ := List.mem_map.1 hv
    have hxl : x.length = accessIdx.length := length_of_mem_enumerate hx
    refine ⟨?_, nodup_ascending _, ?_⟩
    · intro hnil
      have hpos : 0 < accessIdx.length := List.length_pos_of_ne_nil hne
      obtain ⟨y, hy⟩ : ∃ y, y ∈ x := List.exists_mem_of_length_pos (by omega)
      have hmem : stageOf y ∈ ascending (x.map stageOf).toFinset := by
        rw [mem_ascending, List.mem_toFinset]
        exact List.mem_map_of_mem hy
      rw [hnil] at hmem
      exact absurd hmem List.not_mem_nil
    · rw [length_ascending]
      calc (x.map stageOf).toFinset.card ≤ (x.map stageOf).length := List.toFinset_card_le _
        _ = accessIdx.length := by rw [List.length_map, hxl]
        _ ≤ minDemand.length := (not_not.1 hlen).le
  exact ⟨fun v hv => (key v hv).1, fun v hv => (key v hv).2.1, fun v hv => (key v hv).2.2⟩

end ActiveFunction

end ActiveRmt
