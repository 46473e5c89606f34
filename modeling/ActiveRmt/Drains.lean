/-
**Who has saved its memory when it is handed over.**

An allocation that moves others waits until each of them has acknowledged.  An acknowledgement carries the
function and nothing about the round, and the client repeats it, so one that is late is taken for the
answer to the round that has begun since.

Main definitions:

* `Controller.Poised` — **a round can be announced and given up** without an exception;
* `DrainSystem` — the controller, and all remap digests sent so far; each of them may be handled at any
  time, any number of times, or never;
* `DrainSystem.AckedNow` — a function has acknowledged in the round that was queued last;
* `DrainSystem.Timely` — no acknowledgement of an earlier round counts.

Main results:

* `Allocator.mem_computeAllocationMatrix` — who can own a block of the new columns;
* `Controller.moves_of_step`, `Controller.able_of_step` — every step keeps the rounds in order, exceptions
  and resets included;
* `Controller.acks_of_step` — what a remap digest can do;
* `DrainSystem.drained_acked` — **when an allocation is applied by an acknowledgement, everyone it moves
  has acknowledged in its round**;
* `DrainSystem.drained_unacked` — late acknowledgements hand over memory that was not saved.
-/

import ActiveRmt.Residents

set_option relaxedAutoImplicit false
set_option autoImplicit false

namespace Blocks

theorem mem_writeRange {c : List ℕ} {a l f x : ℕ} (h : x ∈ writeRange c a l f) : x ∈ c ∨ x = f := by
  obtain ⟨j, hj, rfl⟩ := List.mem_mapIdx.1 h
  split_ifs
  · exact Or.inr rfl
  · exact Or.inl (List.getElem_mem hj)

theorem mem_writeRuns {c : List ℕ} {a : ℕ} {l : List (ℕ × ℕ)} {x : ℕ} (h : x ∈ writeRuns c a l) :
    x ∈ c ∨ x ∈ l.map Prod.fst := by
  induction l generalizing c a with
  | nil => exact Or.inl h
  | cons p l ih =>
      rcases ih h with h | h
      · refine (mem_writeRange h).imp_right fun heq => ?_
        rw [heq]
        exact List.mem_cons_self
      · exact Or.inr (List.mem_cons_of_mem _ h)

end Blocks

namespace ActiveRmt

open Allocator (Remaps)
open Blocks

/-! ### Who can be placed -/

namespace Allocator

variable {cfg : AllocatorConfig} {s t : Allocator} {f : Fid}

theorem mem_placeInelastic {apps : List (Fid × ℕ)} {col col' : List ℕ} {st st' : StageState} {x : ℕ}
    (h : placeInelastic apps col st = .ok col' st') (hx : x ∈ col') : x ∈ col ∨ x ∈ apps.map Prod.fst := by
  induction apps generalizing col st with
  | nil =>
      obtain ⟨rfl, -⟩ := EStateM.Result.ok.inj h
      exact Or.inl hx
  | cons app apps ih =>
      have hlater : ∀ {a l : ℕ} {st₁ : StageState},
          placeInelastic apps (writeRange col a l app.1) st₁ = .ok col' st' →
            x ∈ col ∨ x ∈ (app :: apps).map Prod.fst := by
        intro a l st₁ h₁
        rcases ih h₁ with h | h
        · refine (mem_writeRange h).imp_right fun heq => ?_
          rw [heq]
          exact List.mem_cons_self
        · exact Or.inr (List.mem_cons_of_mem _ h)
      unfold placeInelastic at h
      by_cases hd : app.2 ≤ 1
      · rw [if_pos hd] at h
        exact (ih h).imp_right (List.mem_cons_of_mem _)
      · rw [if_neg hd] at h
        cases hbest : bestHole app.2 st.fragmentation with
        | none =>
            simp only [hbest] at h
            split_ifs at h
            exact hlater h
        | some p =>
            simp only [hbest] at h
            split_ifs at h
            all_goals exact hlater h

theorem pack_subset {size : ℕ} {l : List (Fid × ℕ)} {p : Fid × ℕ}
    (hp : p ∈ (pack size l).1 ∨ p ∈ (pack size l).2.2) : p ∈ l := by
  induction l generalizing size with
  | nil => simp [pack] at hp
  | cons q l ih =>
      unfold pack at hp
      split_ifs at hp
      · rcases hp with hp | hp
        · exact (List.mem_cons.1 hp).elim (fun h => h ▸ List.mem_cons_self)
            fun h => List.mem_cons_of_mem _ (ih (Or.inl h))
        · exact List.mem_cons_of_mem _ (ih (Or.inr hp))
      · exact hp.resolve_left List.not_mem_nil

theorem mem_fillElastic {e n : ℕ} {apps : List (Fid × ℕ)} {col col' : List ℕ} {x : ℕ}
    (h : fillElastic e n apps col = .ok col') (hx : x ∈ col') : x ∈ col ∨ x ∈ apps.map Prod.fst := by
  unfold fillElastic at h
  dsimp only at h
  split_ifs at h
  · obtain rfl := Except.ok.inj h
    exact Or.inl hx
  all_goals
    obtain rfl := Except.ok.inj h
    refine (mem_writeRuns hx).imp_right fun hmem => ?_
    obtain ⟨p, hp, rfl⟩ := List.mem_map.1 hmem
    have hshare : ∃ q ∈ (deal (col.length - e) (col.length - e)
        ((apps.filter fun app => app.2 ≤ 1).map fun app => (app.1, 0))).take n, q.1 = p.1 := by
      rcases List.mem_append.1 hp with hp | hp
      · exact ⟨p, pack_subset (Or.inl hp), rfl⟩
      · obtain ⟨q, hq, rfl⟩ := List.mem_map.1 hp
        exact ⟨q, pack_subset (Or.inr (List.mem_of_mem_take hq)), rfl⟩
    obtain ⟨q, hq, hqp⟩ := hshare
    have hfst := List.mem_map_of_mem (f := Prod.fst) (List.mem_of_mem_take hq)
    rw [map_fst_deal, hqp, List.map_map] at hfst
    obtain ⟨app, happ, happp⟩ := List.mem_map.1 hfst
    exact List.mem_map.2 ⟨app, List.mem_of_mem_filter happ, happp⟩

/-- **The new column of a stage** has no other owners than the functions of the stage and the owners of
the old column. -/
theorem mem_placeStage {demand : Fid → Except Exn ℕ} {fids : Finset Fid} {old col : List ℕ}
    {st st' : StageState} {x : ℕ} (h : placeStage demand fids old st = .ok col st') (hx : x ∈ col) :
    x ∈ old ∨ x = 0 ∨ x ∈ fids := by
  obtain ⟨apps, base, mid, n, happs, -, -, hbase, hfill, -⟩ := placeStage_inv h
  have hmem : x ∈ apps.map Prod.fst → x ∈ fids := by
    intro hx
    obtain ⟨app, happ, rfl⟩ := List.mem_map.1 hx
    exact happs app happ
  rcases mem_fillElastic hfill hx with hx | hx
  · rcases mem_placeInelastic hbase hx with hx | hx
    · obtain ⟨j, hj, rfl⟩ := List.mem_mapIdx.1 hx
      split_ifs
      · exact Or.inl (List.getElem_mem hj)
      · exact Or.inr (Or.inl rfl)
    · exact Or.inr (Or.inr (hmem hx))
  · exact Or.inr (Or.inr (hmem hx))

/-- **The new columns** have no other owners than the functions of the stages and the owners of the old
columns. -/
theorem mem_computeAllocationMatrix {map : Stage → Finset Fid} {new : Stage → List ℕ}
    (h : computeAllocationMatrix cfg map s = .ok new t) {i : Stage} {x : ℕ} (hx : x ∈ new i) :
    x = 0 ∨ x ∈ map i ∨ x ∈ s.allocationMatrix i := by
  have hplace : ∀ (new : Stage → List ℕ) (i : Stage) (u : Allocator),
      ((∃ e fr, u = s.reshaped e fr) ∧ ∀ j, ∀ x ∈ new j, x = 0 ∨ x ∈ map j ∨ x ∈ s.allocationMatrix j) →
        Ends (placeAt cfg map new i) u (fun new u => (∃ e fr, u = s.reshaped e fr) ∧
          ∀ j, ∀ x ∈ new j, x = 0 ∨ x ∈ map j ∨ x ∈ s.allocationMatrix j) fun _ => True := by
    rintro new i u ⟨⟨e, fr, rfl⟩, hnew⟩
    refine ⟨fun a v hv => ?_, fun _ _ _ => trivial⟩
    unfold placeAt at hv
    split_ifs at hv
    · obtain ⟨rfl, rfl⟩ := EStateM.Result.ok.inj hv
      exact ⟨⟨e, fr, rfl⟩, hnew⟩
    · split at hv
      · cases hv
      · rename_i col st hcol
        dsimp only at hv
        split at hv
        · cases hv
        · obtain ⟨rfl, rfl⟩ := EStateM.Result.ok.inj hv
          refine ⟨⟨_, _, rfl⟩, fun j x hx => ?_⟩
          by_cases hj : j = i
          · subst hj
            rw [Function.update_self] at hx
            rcases mem_placeStage hcol hx with hold | h0 | hmem
            · exact Or.inr (Or.inr hold)
            · exact Or.inl h0
            · exact Or.inr (Or.inl hmem)
          · rw [Function.update_of_ne hj] at hx
            exact hnew j x hx
  have hends : Ends (computeAllocationMatrix cfg map) s
      (fun new _ => ∀ i, ∀ x ∈ new i, x = 0 ∨ x ∈ map i ∨ x ∈ s.allocationMatrix i) fun _ => True := by
    unfold computeAllocationMatrix
    refine ends_bind.2 ((ends_foldlM _ hplace stages (zeros cfg) s ⟨⟨_, _, rfl⟩, ?_⟩).mono
      (fun new u hu => ?_) fun _ h => h)
    · exact fun j x hx => Or.inl (List.eq_of_mem_replicate hx)
    · exact ends_ite (fun _ => ends_bind.2 (ends_throw.2 trivial)) fun _ => ends_pure.2 hu.2
  exact hends.1 new t h i x hx

/-- A function is placed, or owns a block. -/
def Present (s : Allocator) (f : Fid) : Prop :=
  ∃ i, f ∈ s.allocationMap i ∨ f ∈ tenants (s.allocationMatrix i)

/-- **A departure places nobody**, whether or not it raises an exception. -/
theorem ends_deallocate_present (f : Fid) (s : Allocator) :
    Ends (deallocate f) s (fun _ t => ∀ g, t.Present g → s.Present g)
      fun t => ∀ g, t.Present g → s.Present g := by
  have hat : ∀ i (s : Allocator), Ends (deallocateAt f i) s (fun _ t => ∀ g, t.Present g → s.Present g)
      fun t => ∀ g, t.Present g → s.Present g := by
    intro i s
    have hless : ∀ t : Allocator,
        t.allocationMap = Function.update s.allocationMap i ((s.allocationMap i).erase f) →
        t.allocationMatrix = Function.update s.allocationMatrix i (release (s.allocationMatrix i) f) →
          ∀ g, t.Present g → s.Present g := by
      rintro t hmap hmatrix g ⟨j, hg⟩
      refine ⟨j, ?_⟩
      rw [hmap, hmatrix] at hg
      by_cases hij : j = i
      · subst hij
        rw [Function.update_self, Function.update_self, tenants_release] at hg
        exact hg.imp Finset.mem_of_mem_erase Finset.mem_of_mem_erase
      · rwa [Function.update_of_ne hij, Function.update_of_ne hij] at hg
    refine ⟨fun a t h => ?_, fun ex t h => ?_⟩
    all_goals
      unfold deallocateAt at h
      cases hd : s.getMinDemand f i with
      | error ex' =>
          simp only [hd] at h
          first
          | (obtain ⟨-, rfl⟩ := EStateM.Result.error.inj h; exact fun g hg => hg)
          | simp at h
      | ok d =>
          simp only [hd] at h
          split_ifs at h <;>
            first
            | (obtain ⟨-, rfl⟩ := EStateM.Result.ok.inj h; exact hless _ rfl rfl)
            | (obtain ⟨-, rfl⟩ := EStateM.Result.error.inj h; exact hless _ rfl rfl)
            | (obtain ⟨-, rfl⟩ := EStateM.Result.error.inj h; exact fun g hg => hg)
  by_cases hf : f ∈ s.activeFuncs.keys
  · cases hrev : s.revAllocationMap.get? f with
    | none =>
        have hx : deallocate f s = .error .keyError s := by simp [deallocate, hf, hrev]
        exact ends_of_error hx fun g hg => hg
    | some is =>
        have hloop : Ends (is.forM (deallocateAt f)) s (fun _ t => ∀ g, t.Present g → s.Present g)
            fun t => ∀ g, t.Present g → s.Present g := by
          refine ends_forM_const (fun t => ∀ g, Present t g → s.Present g) ?_ fun g hg => hg
          intro i _ t ht
          exact (hat i t).mono (fun _ u hu g hg => ht g (hu g hg)) fun u hu g hg => ht g (hu g hg)
        cases h : is.forM (deallocateAt f) s with
        | error ex t =>
            have hx : deallocate f s = .error ex t := by simp [deallocate, hf, hrev, h]
            exact ends_of_error hx (hloop.2 ex t h)
        | ok u t =>
            have hx : deallocate f s = .ok true { t with
                revAllocationMap := t.revAllocationMap.erase f
                activeFuncs := t.activeFuncs.erase f } := by
              simp [deallocate, hf, hrev, h]
            exact ends_of_ok hx (hloop.1 u t h)
  · exact ends_of_ok (deallocate_of_notMem hf) fun g hg => hg

end Allocator
namespace Controller

variable {cfg : ControllerConfig} {c c' : Controller} {d : RemapDigest}

/-! ### Announcing a round -/

/-- **A round can be announced and given up**: the switch tells exactly the functions that have not been
heard of, these are waited for, and whoever is placed has a version. -/
structure Poised (c : Controller) : Prop where
  lock : c.digestMutex = false
  told : ∀ t, t ∈ c.switch.remapCheck.keys ↔ t ∈ c.remoteDrainInit
  waited : ∀ t ∈ c.remoteDrainInit, t ∈ c.remoteDrainQueue.keys
  timed : ∀ t ∈ c.remoteDrainQueue.keys, t ∈ c.remapTiming
  placed : ∀ t, c.allocator.Present t → t ∈ c.allocVersion.keys ∨ t ∈ c.queue
  plan : ∀ plan, c.allocator.queue = some plan → ∀ t, (c.allocator.applied plan).Present t →
    t ∈ c.allocVersion.keys ∨ t ∈ c.queue

theorem poised_init : Poised (init cfg) := by
  refine ⟨rfl, fun t => ?_, fun t ht => ?_, fun t ht => ?_, fun t ht => ?_, fun plan hplan => ?_⟩
  · simp [init, Switch.init, Dict.keys, Dict.empty]
  · simp [init] at ht
  · simp [init, Dict.keys, Dict.empty] at ht
  · obtain ⟨i, ht⟩ := ht
    simp [init, Allocator.init, Allocator.zeros, tenants, List.mem_replicate] at ht
    exact absurd ht.2.2 ht.1
  · simp [init, Allocator.init] at hplan

/-- What the invariant does not mention. -/
theorem Poised.congr (h : Poised c) (hlock : c'.digestMutex = c.digestMutex)
    (hcheck : c'.switch.remapCheck = c.switch.remapCheck) (hinit : c'.remoteDrainInit = c.remoteDrainInit)
    (hdrain : c'.remoteDrainQueue = c.remoteDrainQueue) (htiming : c'.remapTiming = c.remapTiming)
    (hplaced : ∀ t, c'.allocator.Present t → c.allocator.Present t)
    (hplan : c'.allocator.queue = c.allocator.queue) (hversions : c'.allocVersion = c.allocVersion)
    (hqueue : c'.queue = c.queue) : Poised c' := by
  refine ⟨hlock.trans h.lock, ?_, ?_, ?_, ?_, ?_⟩
  · rw [hcheck, hinit]
    exact h.told
  · rw [hinit, hdrain]
    exact h.waited
  · rw [hdrain, htiming]
    exact h.timed
  · rw [hversions, hqueue]
    exact fun t ht => h.placed t (hplaced t ht)
  · rw [hplan, hversions, hqueue]
    exact fun plan hp t ht => h.plan plan hp t ht

/-- A function has been heard of. -/
theorem Poised.heard (h : Poised c) {f : Fid} {I : Finset Fid} {m : Dict Fid ℕ} (hI : Heard c f I m) :
    Poised (c.telling I c.remapTiming m) := by
  rcases hI with ⟨rfl, rfl⟩ | ⟨-, rfl, rfl⟩
  · exact h.congr rfl rfl rfl rfl rfl (fun _ h => h) rfl rfl rfl
  · refine ⟨h.lock, fun t => ?_, fun t ht => ?_, h.timed, h.placed, h.plan⟩
    · show t ∈ (c.switch.remapCheck.erase f).keys ↔ t ∈ c.remoteDrainInit.erase f
      rw [Dict.mem_keys_erase, Finset.mem_erase, h.told t]
    · exact h.waited t (Finset.mem_of_mem_erase ht)

/-- A function has acknowledged. -/
theorem Poised.acked (h : Poised c) {f : Fid} {m : Dict Fid ℕ}
    (hm : Heard c f (c.remoteDrainInit.erase f) m) : Poised ((c.locked f m).unlocked f) := by
  refine ⟨rfl, fun t => ?_, fun t ht => ?_, fun t ht => ?_, h.placed, h.plan⟩
  · exact (h.heard hm).told t
  · have ht : t ∈ c.remoteDrainInit.erase f := ht
    rw [Finset.mem_erase] at ht
    exact (Dict.mem_keys_erase ..).2 ⟨ht.1, h.waited t ht.2⟩
  · have ht : t ∈ (c.remoteDrainQueue.erase f).keys := ht
    rw [Dict.mem_keys_erase] at ht
    exact Finset.mem_erase.2 ⟨ht.1, h.timed t ht.2⟩

/-- An allocation has been applied. -/
theorem Poised.completed (h : Poised c) {plan : Plan} {f : Fid} {r : Remaps} {sw : Switch}
    {v : Dict Fid ℕ} (hplan : c.allocator.queue = some plan) (hq : c.queue = [f])
    (hren : Renewed c f sw v) : Poised (c.completed plan f r sw v) := by
  refine ⟨h.lock, fun t => ?_, h.waited, h.timed, fun t ht => Or.inl ?_, fun plan' hplan' => ?_⟩
  · show t ∈ sw.remapCheck.keys ↔ t ∈ c.remoteDrainInit
    rw [hren.remapCheck]
    exact h.told t
  · refine (hren.versions t).2 ?_
    rcases h.plan plan hplan t ht with hv | hmem
    · exact Or.inr hv
    · rw [hq] at hmem
      exact Or.inl (List.mem_singleton.1 hmem)
  · exact absurd hplan' (Option.some_ne_none plan').symm

theorem mem_keys_foldl_erase (fs : List Fid) (d : Dict Fid Remaps) (k : Fid) :
    k ∈ (fs.foldl (fun d f => d.erase f) d).keys ↔ k ∉ fs ∧ k ∈ d.keys := by
  induction fs generalizing d with
  | nil => simp
  | cons f fs ih =>
      rw [List.foldl_cons, ih, Dict.mem_keys_erase, List.mem_cons, not_or, ← and_assoc,
        and_comm (a := k ∉ fs)]

/-- A round has been given up. -/
theorem Poised.dropped (h : Poised c) {fs : List Fid} {m : Dict Fid ℕ} (hm : Silenced c fs m) :
    Poised (c.dropped fs m) := by
  refine ⟨h.lock, fun t => ?_, fun t ht => ?_, fun t ht => ?_, h.placed, h.plan⟩
  · show t ∈ m.keys ↔ t ∈ c.remoteDrainInit \ fs.toFinset
    rw [hm t, h.told t, Finset.mem_sdiff, List.mem_toFinset]
    exact ⟨fun hk => ⟨hk.1, fun hf => hk.2 ⟨hf, hk.1⟩⟩, fun hk => ⟨hk.1, fun hf => hk.2 hf.1⟩⟩
  · have ht : t ∈ c.remoteDrainInit \ fs.toFinset := ht
    rw [Finset.mem_sdiff, List.mem_toFinset] at ht
    exact (mem_keys_foldl_erase ..).2 ⟨ht.2, h.waited t ht.1⟩
  · exact h.timed t ((mem_keys_foldl_erase ..).1 ht).2

theorem mem_keys_foldl_set {r : Remaps} (fs : List Fid) (d : Dict Fid Remaps) (k : Fid) :
    k ∈ (fs.foldl (fun d f => d.set f r) d).keys ↔ k ∈ fs ∨ k ∈ d.keys := by
  induction fs generalizing d with
  | nil => simp
  | cons f fs ih =>
      rw [List.foldl_cons, ih, Dict.mem_keys_set, List.mem_cons, or_left_comm, or_assoc]

/-- A round has been announced. -/
theorem Poised.queued (h : Poised c) {r : Remaps} {fs : List Fid} {m : Dict Fid ℕ} (hm : Told c fs m) :
    Poised (c.queued r fs m) := by
  refine ⟨h.lock, fun t => ?_, fun t ht => ?_, fun t ht => ?_, h.placed, h.plan⟩
  · show t ∈ m.keys ↔ t ∈ c.remoteDrainInit ∪ fs.toFinset
    rw [hm t, h.told t, Finset.mem_union, List.mem_toFinset, or_comm]
  · have ht : t ∈ c.remoteDrainInit ∪ fs.toFinset := ht
    rw [Finset.mem_union, List.mem_toFinset] at ht
    exact (mem_keys_foldl_set ..).2 (ht.symm.imp_right (h.waited t))
  · show t ∈ c.remapTiming ∪ fs.toFinset
    rw [Finset.mem_union, List.mem_toFinset]
    exact ((mem_keys_foldl_set ..).1 ht).symm.imp_left (h.timed t)

/-! ### One step -/

/-- **What the monitor, the malloc handler and a reset do to a round**: nobody is waited for, or nothing
has changed, or a round has begun in which everyone it moves is waited for. -/
def KeepsRound (c c' : Controller) : Prop :=
  c'.remoteDrainQueue.keys = [] ∨
    (c'.issued = c.issued ∧ c'.remoteDrainQueue = c.remoteDrainQueue) ∨
    ∀ f r, c'.issued.getLast? = some (f, r) → ∀ t ∈ r.keys, t ∈ c'.remoteDrainQueue.keys

/-- Unless the lock of allocations is held for ever, the next round can be announced. -/
def Able (c c' : Controller) : Prop :=
  c'.inFlight = c.inFlight ∧ (c'.mutex = false → c.mutex = false ∧ Poised c')

/-- **A step that keeps rounds in order.** -/
def Moves (c c' : Controller) : Prop := Able c c' ∧ (c'.mutex = false → KeepsRound c c')

theorem Moves.same (hp : c.mutex = false → Poised c) (hfly : c'.inFlight = c.inFlight)
    (hmutex : c'.mutex = c.mutex) (hpoised : Poised c → Poised c') (hissued : c'.issued = c.issued)
    (hdrain : c'.remoteDrainQueue = c.remoteDrainQueue) : Moves c c' := by
  refine ⟨⟨hfly, fun hm => ?_⟩, fun _ => Or.inr (Or.inl ⟨hissued, hdrain⟩)⟩
  rw [hmutex] at hm
  exact ⟨hm, hpoised (hp hm)⟩

/-- The lock is held for ever. -/
theorem Moves.blocked (hfly : c'.inFlight = c.inFlight) (hmutex : c'.mutex = true) : Moves c c' := by
  have hno : c'.mutex ≠ false := by rw [hmutex]; decide
  exact ⟨⟨hfly, fun hm => absurd hm hno⟩, fun hm => absurd hm hno⟩

theorem Moves.monitor {c₁ : Controller} (h : Moves c c₁) (mon : Monitor) :
    Moves c { c₁ with monitor := mon } := by
  refine ⟨⟨h.1.1, fun hm => ?_⟩, h.2⟩
  obtain ⟨hc, hp⟩ := h.1.2 hm
  exact ⟨hc, hp.congr rfl rfl rfl rfl rfl (fun _ h => h) rfl rfl rfl⟩

/-- **A departure**, whether or not it raises an exception. -/
theorem ends_deallocate_poised (f : Fid) (c : Controller) :
    Ends (deallocate f) c
      (fun _ c' => ∃ sw s, c' = { c with switch := sw, allocator := s } ∧ (Poised c → Poised c'))
      fun c' => ∃ sw s, c' = { c with switch := sw, allocator := s } ∧ (Poised c → Poised c') := by
  have hremove := Switch.ends_removeFunction f c.switch
  have hpresent := Allocator.ends_deallocate_present f c.allocator
  have hframe := Allocator.leaves_deallocate f c.allocator
  by_cases hf : f ∈ c.active
  · refine (ends_deallocate hf).mono ?_ ?_
    · intro _ c' h
      rcases h with ⟨sw, hsw, rfl⟩ | ⟨sw, b, s, hsw, hs, rfl⟩
      · exact ⟨sw, c.allocator, rfl, fun hp =>
          hp.congr rfl (hremove.1 _ _ hsw).1 rfl rfl rfl (fun _ h => h) rfl rfl rfl⟩
      · exact ⟨sw, s, rfl, fun hp => hp.congr rfl (hremove.1 _ _ hsw).1 rfl rfl rfl
          (hpresent.1 b s hs) (Prod.ext_iff.1 (hframe.1 b s hs)).2 rfl rfl⟩
    · intro c' h
      rcases h with ⟨ex, sw, hsw, rfl⟩ | ⟨sw, ex, s, hsw, hs, rfl⟩
      · exact ⟨sw, c.allocator, rfl, fun hp =>
          hp.congr rfl (hremove.2 _ _ hsw).1 rfl rfl rfl (fun _ h => h) rfl rfl rfl⟩
      · exact ⟨sw, s, rfl, fun hp => hp.congr rfl (hremove.1 _ _ hsw).1 rfl rfl rfl
          (hpresent.2 ex s hs) (Prod.ext_iff.1 (hframe.2 ex s hs)).2 rfl rfl⟩
  · unfold deallocate
    exact ends_bind.2 (ends_get.2 (ends_ite_neg hf (ends_pure.2 ⟨c.switch, c.allocator, rfl, id⟩)))

/-- **A reset.** -/
theorem moves_resetAllocation (hp : c.mutex = false → Poised c) :
    Ends resetAllocation c (fun _ => Moves c) (Moves c) := by
  unfold resetAllocation
  refine ends_bind.2 (ends_get.2 (ends_ite (fun hm => ?_) fun hm => ?_))
  · exact ends_bind.2 (ends_throw.2 (Moves.blocked rfl hm))
  · have hm : c.mutex = false := by simpa using hm
    have hstart : ∃ sw s, { c with mutex := true } =
        { c with switch := sw, allocator := s, mutex := true } ∧ Poised { c with mutex := true } :=
      ⟨c.switch, c.allocator, rfl, (hp hm).congr rfl rfl rfl rfl rfl (fun _ h => h) rfl rfl rfl⟩
    refine ends_bind.2 (ends_modify.2 (ends_bind.2 (ends_get.2 (ends_bind.2 ?_))))
    refine Ends.mono (Q := fun _ c' => ∃ sw s,
        c' = { c with switch := sw, allocator := s, mutex := true } ∧ Poised c')
      (E := fun c' => ∃ sw s, c' = { c with switch := sw, allocator := s, mutex := true } ∧ Poised c')
      ?_ ?_ ?_
    · refine ends_forM_const (fun c' => ∃ sw s,
        c' = { c with switch := sw, allocator := s, mutex := true } ∧ Poised c') ?_ hstart
      rintro f - c₁ ⟨sw₁, s₁, rfl, h₁⟩
      refine (ends_deallocate_poised f _).mono ?_ ?_
      · rintro _ c₂ ⟨sw, s, rfl, h₂⟩
        exact ⟨sw, s, rfl, h₂ h₁⟩
      · rintro c₂ ⟨sw, s, rfl, h₂⟩
        exact ⟨sw, s, rfl, h₂ h₁⟩
    · rintro _ c₁ ⟨sw, s, rfl, h₁⟩
      refine ends_bind.2 (ends_modify.2 (ends_modify.2 ?_))
      refine ⟨⟨rfl, fun _ => ⟨hm, ?_⟩⟩, fun _ => Or.inr (Or.inl ⟨rfl, rfl⟩)⟩
      exact h₁.congr rfl rfl rfl rfl rfl (fun _ h => h) rfl rfl rfl
    · rintro c₁ ⟨sw, s, rfl, -⟩
      exact Moves.blocked rfl rfl

/-- **The monitor starts a departure.** -/
theorem moves_departs (hp : c.mutex = false → Poised c) (f : Fid) :
    Ends (do deallocate f; leaveActive f) c (fun _ => Moves c) (Moves c) := by
  refine ends_bind.2 ((ends_deallocate_poised f c).mono ?_ ?_)
  · rintro _ c₁ ⟨sw, s, rfl, h₁⟩
    unfold leaveActive
    refine ends_bind.2 (ends_get.2 (ends_ite (fun _ => ends_modify.2 ?_) fun _ => ends_throw.2 ?_))
    · refine Moves.same hp rfl rfl (fun h => ?_) rfl rfl
      exact (h₁ h).congr rfl rfl rfl rfl rfl (fun _ h => h) rfl rfl rfl
    · exact Moves.same hp rfl rfl h₁ rfl rfl
  · rintro c₁ ⟨sw, s, rfl, h₁⟩
    exact Moves.same hp rfl rfl h₁ rfl rfl

/-- **An allocation has been queued**: the functions that it moves have a version. -/
theorem Poised.issues (h : Poised c) (hq : c.queue = []) {req : Request} {r : Remaps} {c₁ : Controller}
    (hissue : Issues cfg req c r c₁) :
    Poised c₁ ∧ c₁.queue = [req.fid] ∧ ∀ t ∈ r.keys, t ∈ c.allocVersion.keys := by
  have hplaced : ∀ t, c.allocator.Present t → t ∈ c.allocVersion.keys := by
    intro t ht
    refine (h.placed t ht).resolve_right ?_
    rw [hq]
    exact List.not_mem_nil
  cases hissue with
  | @intro af ch s₁ s₂ changes n p hfun hchoice hqueue =>
      have hfid := activeFunction_fid hfun
      obtain ⟨d, hs₁, -⟩ := (Allocator.ends_computeAllocation _ _).1 _ _ hchoice
      obtain ⟨new, e, fr, -, hr, hmatrix, hs₂⟩ := (Allocator.ends_enqueueAllocation _ _ _).1 _ _ hqueue
      obtain ⟨⟨-, -, -, hmap⟩, -⟩ := Allocator.computeAllocation_some hchoice
      have hqueue' : c.queue ++ [req.fid] = [req.fid] := by rw [hq]; rfl
      have hnew : ∀ i, ∀ t ∈ ch.allocationMap i, c.allocator.Present t ∨ t = req.fid := by
        intro i t ht
        rw [hmap, Allocator.arrivalMap] at ht
        split_ifs at ht
        · rcases Finset.mem_insert.1 ht with rfl | ht
          · exact Or.inr hfid
          · exact Or.inl ⟨i, Or.inl ht⟩
        · exact Or.inl ⟨i, Or.inl ht⟩
      refine ⟨⟨h.lock, h.told, h.waited, h.timed, fun t ht => Or.inl (hplaced t ?_), ?_⟩, hqueue', ?_⟩
      · have ht : s₂.Present t := ht
        rw [hs₂, hs₁] at ht
        exact ht
      · intro plan hplan t ht
        have hplan : s₂.queue = some plan := hplan
        rw [hs₂] at hplan
        obtain rfl := Option.some.inj hplan
        show t ∈ c.allocVersion.keys ∨ t ∈ c.queue ++ [req.fid]
        rw [hqueue', List.mem_singleton]
        obtain ⟨i, ht | ht⟩ := ht
        · exact (hnew i t ht).imp_left (hplaced t)
        · have ht : t ∈ tenants (new i) := ht
          rw [tenants, Finset.mem_erase, List.mem_toFinset] at ht
          rcases Allocator.mem_computeAllocationMatrix hmatrix ht.2 with h0 | hmem | hold
          · exact absurd h0 ht.1
          · exact (hnew i t hmem).imp_left (hplaced t)
          · rw [hs₁] at hold
            refine Or.inl (hplaced t ⟨i, Or.inr ?_⟩)
            rw [tenants, Finset.mem_erase, List.mem_toFinset]
            exact ⟨ht.1, hold⟩
      · intro t ht
        have hr : r = s₁.remapsFor new := hr
        obtain ⟨l, hl⟩ := (Dict.mem_keys_iff _ _).1 ht
        rw [hr] at hl
        obtain ⟨i, hi, -⟩ := Allocator.mem_elasticApps.1 (Allocator.get?_remapsFor.1 hl).1
        rw [hs₁] at hi
        exact hplaced t ⟨i, Or.inr hi⟩

/-- **The monitor starts an arrival.** -/
theorem moves_allocate (ho : Orderly c) (hq : c.queue = []) (hp : c.mutex = false → Poised c)
    {req : Request} (ha : req.fid ∉ c.active) :
    Ends (allocate cfg req) c (fun _ => Moves c) (Moves c) := by
  obtain ⟨-, hdrain, hnone, -⟩ := ho.quiet hq
  have hnotq : req.fid ∉ c.queue := by
    rw [hq]
    exact List.not_mem_nil
  refine (ends_allocate hnotq ha).mono ?_ ?_
  · intro _ c' hreturns
    cases hreturns with
    | refused hfun hchoice =>
        obtain ⟨d, rfl, -⟩ := (Allocator.ends_computeAllocation _ _).1 _ _ hchoice
        refine Moves.same hp rfl rfl (fun h => ?_) rfl rfl
        exact h.congr rfl rfl rfl rfl rfl (fun _ h => h) hnone.symm rfl rfl
    | @applied r c₁ plan sw v hissue hr hm hplan hren =>
        obtain ⟨h₁, hq₁, -⟩ := (hp hm).issues hq hissue
        cases hissue
        exact ⟨⟨rfl, fun _ => ⟨hm, h₁.completed hplan hq₁ hren⟩⟩, fun _ => Or.inl hdrain⟩
    | @waits r c₁ m hissue hr htold =>
        by_cases hm : c.mutex = true
        · cases hissue
          exact Moves.blocked rfl hm
        · have hm : c.mutex = false := by simpa using hm
          obtain ⟨h₁, -, -⟩ := (hp hm).issues hq hissue
          have h₂ : Poised (c₁.awaiting r) := h₁.congr rfl rfl rfl rfl rfl (fun _ h => h) rfl rfl rfl
          cases hissue
          refine ⟨⟨rfl, fun _ => ⟨hm, h₂.queued htold⟩⟩, fun _ => Or.inr (Or.inr ?_)⟩
          intro f r' hlast t ht
          have hlast := (List.getLast?_concat ..).symm.trans hlast
          obtain ⟨rfl, rfl⟩ : req.fid = f ∧ r = r' := by simpa using hlast
          exact (mem_keys_foldl_set ..).2 (Or.inl ht)
  · intro c' hraises
    cases hraises with
    | @early d p s i hs hi hd =>
        refine ⟨⟨rfl, fun hm => ⟨hm, ?_⟩⟩, fun _ => Or.inl hdrain⟩
        have h := hp hm
        refine ⟨h.lock, h.told, h.waited, h.timed, fun t ht => ?_, fun plan hplan => ?_⟩
        · have ht : c.allocator.Present t := by
            rcases hs with rfl | ⟨d, e, fr, rfl, -⟩ <;> exact ht
          exact (h.placed t ht).imp_right fun hmem => List.mem_append_left _ hmem
        · exact absurd ((hs.queue_eq_none hnone).symm.trans hplan) (Option.some_ne_none plan).symm
    | blocked hissue hr hm =>
        cases hissue
        exact Moves.blocked rfl hm
    | stuck hissue hr hm hplan hsw =>
        cases hissue
        exact Moves.blocked rfl rfl
    | @partway r c₁ ps rest f m hissue hr hwhy =>
        by_cases hm : c.mutex = true
        · cases hissue
          exact Moves.blocked rfl hm
        · -- nobody who is moved lacks a version, and nobody is being told
          have h := hp (by simpa using hm)
          obtain ⟨-, -, hversions⟩ := h.issues hq hissue
          have hf : f ∈ r.keys := by
            rw [hr]
            exact List.mem_append_right _ List.mem_cons_self
          rcases hwhy with hwhy | hwhy
          · exact absurd (hversions f hf) hwhy
          · have hmem := h.waited f ((h.told f).1 hwhy)
            rw [hdrain] at hmem
            exact absurd hmem List.not_mem_nil

/-- **The timeout of the monitor.** -/
theorem moves_onTimeout (ho : Orderly c) (hp : c.mutex = false → Poised c) {req : Request}
    (hm : c.monitor = .waiting req) (hreq : req.fid ∈ c.queue) :
    Ends (onTimeout cfg) c (fun _ => Moves c) (Moves c) := by
  obtain ⟨f, r, hi, hlast, hremaps, hts, hplan⟩ := ho.waiting req hm (List.ne_nil_of_mem hreq)
  unfold onTimeout
  refine ends_bind.2 (ends_get.2 (ends_ite_neg (by rw [hts]; decide) ?_))
  refine ends_bind.2 (ends_get.2 ?_)
  rw [hremaps]
  refine ends_bind.2 ((ends_dropPeers r.keys c).mono ?_ ?_)
  · rintro _ c₁ ⟨m, rfl, hsilenced⟩
    refine ends_bind.2 (ends_get.2 ?_)
    rw [show (c.dropped r.keys m).remoteDrainInitiator = some f from hi]
    by_cases hmut : c.mutex = true
    · refine (ends_resumeAllocation_idle (c := c.dropped r.keys m) f r (.inl hmut)).mono ?_ ?_
      · rintro _ c' ⟨rfl, -⟩
        exact Moves.blocked rfl hmut
      · rintro c' ⟨rfl, -⟩
        exact Moves.blocked rfl hmut
    · have hmut : c.mutex = false := by simpa using hmut
      have hpending : Pending c f r := ho.pending_of_last hlast (hplan hmut)
      obtain ⟨plan, hplan⟩ := Option.ne_none_iff_exists'.1 (hplan hmut)
      obtain ⟨g, hg⟩ := hpending.queueFid
      have hqueue := ho.queue_of_pending hpending
      have hq : f ∈ c.queue := by rw [hqueue]; exact List.mem_singleton_self f
      have hi' : (c.dropped r.keys m).remoteDrainInitiator ≠ none := by
        rw [show (c.dropped r.keys m).remoteDrainInitiator = some f from hi]
        exact Option.some_ne_none f
      refine (ends_resumeAllocation (c := c.dropped r.keys m) r hmut hi' hg hplan hq
        (ho.queue_new f hq).1).mono ?_ ?_
      · rintro _ c' ⟨sw, v, rfl, hren⟩
        have h := ((hp hmut).dropped hsilenced).completed (r := r) hplan hqueue hren
        refine ⟨⟨rfl, fun _ => ⟨hmut, h⟩⟩, fun _ => Or.inl ?_⟩
        -- only functions of the round were waited for
        refine List.eq_nil_iff_forall_not_mem.2 fun k hk => ?_
        obtain ⟨hnot, hmem⟩ := (mem_keys_foldl_erase ..).1 hk
        obtain ⟨rs, hrs⟩ := (Dict.mem_keys_iff _ _).1 hmem
        exact hnot (hpending.drain k rs hrs).2
      · rintro c' ⟨sw, v, rfl, -⟩
        exact Moves.blocked rfl rfl
  · rintro c₁ ⟨Q, I, m, rfl, -, t, ht, hnot⟩
    by_cases hmut : c.mutex = true
    · exact Moves.blocked rfl hmut
    · exact absurd (((hp (by simpa using hmut)).told t).2 ht) hnot

/-- **A remap digest.** -/
theorem able_onRemapAck (ho : Orderly c) (hp : c.mutex = false → Poised c) (d : RemapDigest) :
    Ends (onRemapAck cfg d) c (fun _ => Able c) (Able c) := by
  unfold onRemapAck
  refine ends_bind.2 ((Ends.and (ho.readAck d) (ends_readAck d c)).mono ?_ ?_)
  · rintro a c₁ ⟨⟨-, -, hres⟩, hread⟩
    rcases hread with ⟨rfl, I, m, rfl, hI⟩ | ⟨rs, m, rfl, hrs, -, -, -, rfl, hI⟩
    · exact ends_pure.2 ⟨rfl, fun hm => ⟨hm, (hp hm).heard hI⟩⟩
    · dsimp only
      by_cases hidle : (c.ackOf d.fid rs).resume = none ∨ (c.locked d.fid m).mutex = true ∨
          (c.locked d.fid m).remoteDrainInitiator = none
      · refine (ends_finishAck_idle hidle).mono ?_ ?_
        · rintro _ c₂ ⟨rfl, -⟩
          exact ⟨rfl, fun hm => ⟨hm, (hp hm).acked hI⟩⟩
        · rintro c₂ ⟨rfl, hwhy⟩
          refine ⟨rfl, fun hm => ?_⟩
          rcases hwhy with hmut | hnot
          · exact absurd (hmut.symm.trans hm) (by decide)
          · exact absurd ((Dict.mem_keys_iff _ _).2 ⟨rs, hrs⟩) hnot
      · rw [not_or, not_or, ← ne_eq, Option.ne_none_iff_exists'] at hidle
        obtain ⟨⟨⟨f, r⟩, hr⟩, hm, hi⟩ := hidle
        obtain ⟨-, hresumable⟩ := hres _ f r rfl hr
        obtain ⟨-, hlast, hplan⟩ := (hresumable.resolve_left hm).resolve_left hi
        have hm : (c.locked d.fid m).mutex = false := by simpa using hm
        have hpending := ho.pending_of_last hlast hplan
        obtain ⟨plan, hplan⟩ := Option.ne_none_iff_exists'.1 hplan
        obtain ⟨g, hg⟩ := hpending.queueFid
        have hqueue := ho.queue_of_pending hpending
        have hq : f ∈ (c.locked d.fid m).queue := by
          show f ∈ c.queue
          rw [hqueue]
          exact List.mem_singleton_self f
        refine (ends_finishAck hr hm hi hg hplan hq (ho.queue_new f hq).1).mono ?_ ?_
        · rintro _ c₂ ⟨sw, v, rfl, hren⟩
          refine ⟨rfl, fun _ => ⟨hm, ?_⟩⟩
          have hren' : Renewed ((c.locked d.fid m).unlocked d.fid) f sw v :=
            ⟨hren.remapCheck, hren.quota, hren.reply, hren.replies, hren.versions⟩
          exact ((hp hm).acked hI).completed (r := r) hplan hqueue hren'
        · rintro c₂ ⟨sw, v, ⟨rfl, -⟩ | ⟨rfl, -, hnot⟩⟩
          · exact ⟨rfl, fun hmut => absurd hmut (by simp [stuck])⟩
          · exact absurd ((Dict.mem_keys_iff _ _).2 ⟨rs, hrs⟩) hnot
  · rintro c₁ ⟨-, ⟨I, T, m, rfl⟩, hfor, hwhy⟩
    refine ⟨rfl, fun hm => ?_⟩
    -- it is timed, it is told, and the lock is free
    have h := hp hm
    have hmem : d.fid ∈ c.remoteDrainQueue.keys := hfor.elim id (h.waited _)
    rcases hwhy with (htiming | ⟨hinit, hcheck⟩) | hlock
    · exact absurd (h.timed _ hmem) htiming
    · exact absurd ((h.told _).2 hinit) hcheck
    · exact absurd (hlock.symm.trans h.lock) (by decide)

theorem able_of_step (ho : Orderly c) (hp : c.mutex = false → Poised c)
    (hstep : Step cfg c (.remapAck d) c') : Able c c' := by
  have hends : Ends (onRemapAck cfg d) c (fun _ => Able c) (Able c) := able_onRemapAck ho hp d
  rcases hstep.2 with ⟨u, hu⟩ | ⟨ex, hex⟩
  · exact hends.1 u c' hu
  · exact hends.2 ex c' hex

/-! ### One remap digest -/

/-- **A remap digest that applies nothing**: at most its function is no longer waited for. -/
structure Noted (c : Controller) (d : RemapDigest) (c' : Controller) : Prop where
  applied : c'.applied = c.applied
  issued : c'.issued = c.issued
  drain : c'.remoteDrainQueue = c.remoteDrainQueue ∨
    (d.flagRemapped = true ∧ d.flagAck = true ∧ d.fid ∈ c.remoteDrainQueue.keys ∧
      c'.remoteDrainQueue = c.remoteDrainQueue.erase d.fid)

/-- **A remap digest that applies the queued allocation**: it acknowledges for the last function that is
waited for. -/
structure Finishes (c : Controller) (d : RemapDigest) (c' : Controller) (f : Fid) (r : Remaps) : Prop where
  applied : c'.applied = c.applied ++ [(c.issued.length - 1, f, r)]
  lock : c.mutex = false
  last : c.issued.getLast? = some (f, r)
  acks : d.flagRemapped = true ∧ d.flagAck = true ∧ d.fid ∈ c.remoteDrainQueue.keys
  alone : ∀ k ∈ c.remoteDrainQueue.keys, k = d.fid
  rest : c'.remoteDrainInitiator = none ∨ c'.mutex = true

/-- **What a remap digest can do.** -/
theorem acks_of_step (h : Orderly c) (hstep : Step cfg c (.remapAck d) c') :
    Noted c d c' ∨ ∃ f r, Finishes c d c' f r := by
  obtain ⟨-, hc⟩ := hstep
  suffices hends : Ends (onRemapAck cfg d) c (fun _ c' => Noted c d c' ∨ ∃ f r, Finishes c d c' f r)
      fun c' => Noted c d c' ∨ ∃ f r, Finishes c d c' f r by
    rcases hc with ⟨u, hu⟩ | ⟨ex, hex⟩
    · exact hends.1 u c' hu
    · exact hends.2 ex c' hex
  unfold onRemapAck
  refine ends_bind.2 ((Ends.and (h.readAck d) (ends_readAck d c)).mono ?_ ?_)
  · rintro a c₁ ⟨⟨ho, -, hres⟩, hread⟩
    rcases hread with ⟨rfl, I, m, rfl, -⟩ | ⟨rs, m, rfl, hrs, hremapped, hack, -, rfl, -⟩
    · exact ends_pure.2 (Or.inl ⟨rfl, rfl, Or.inl rfl⟩)
    · have hmem : d.fid ∈ c.remoteDrainQueue.keys := (Dict.mem_keys_iff _ _).2 ⟨rs, hrs⟩
      dsimp only
      by_cases hidle : (c.ackOf d.fid rs).resume = none ∨ (c.locked d.fid m).mutex = true ∨
          (c.locked d.fid m).remoteDrainInitiator = none
      · refine (ends_finishAck_idle hidle).mono ?_ ?_
        · rintro _ c₂ ⟨rfl, -⟩
          exact Or.inl ⟨rfl, rfl, Or.inr ⟨hremapped, hack, hmem, rfl⟩⟩
        · rintro c₂ ⟨rfl, -⟩
          exact Or.inl ⟨rfl, rfl, Or.inl rfl⟩
      · rw [not_or, not_or, ← ne_eq, Option.ne_none_iff_exists'] at hidle
        obtain ⟨⟨⟨f, r⟩, hr⟩, hm, hi⟩ := hidle
        obtain ⟨halone, hresumable⟩ := hres _ f r rfl hr
        obtain ⟨-, hlast, hplan⟩ := (hresumable.resolve_left hm).resolve_left hi
        have hm : (c.locked d.fid m).mutex = false := by simpa using hm
        have hp := ho.pending_of_last hlast hplan
        obtain ⟨plan, hplan⟩ := Option.ne_none_iff_exists'.1 hplan
        obtain ⟨g, hg⟩ := hp.queueFid
        have hq : f ∈ (c.locked d.fid m).queue := by
          rw [ho.queue_of_pending hp]
          exact List.mem_singleton_self f
        refine (ends_finishAck hr hm hi hg hplan hq (ho.queue_new f hq).1).mono ?_ ?_
        · rintro _ c₂ ⟨sw, v, rfl, -⟩
          exact Or.inr ⟨f, r, rfl, hm, hlast, ⟨hremapped, hack, hmem⟩, halone, Or.inl rfl⟩
        · rintro c₂ ⟨sw, v, ⟨rfl, -⟩ | ⟨rfl, -⟩⟩
          · exact Or.inr ⟨f, r, rfl, hm, hlast, ⟨hremapped, hack, hmem⟩, halone, Or.inr rfl⟩
          · exact Or.inr ⟨f, r, rfl, hm, hlast, ⟨hremapped, hack, hmem⟩, halone, Or.inl rfl⟩
  · rintro c₁ ⟨-, ⟨I, T, m, rfl⟩, -⟩
    exact Or.inl ⟨rfl, rfl, Or.inl rfl⟩

/-- The steps of the threads that are not remap handlers. -/
def Event.drives : Event → Bool
  | .malloc _ | .take | .timeout | .finish | .reset => true
  | .remapAck _ | .ackRead _ | .ackFinish => false

/-- **A step of the monitor, of the malloc handler or of a reset.** -/
theorem moves_of_step {e : Event} (he : e.drives = true) (ho : Orderly c)
    (hp : c.mutex = false → Poised c) (hstep : Step cfg c e c') : Moves c c' := by
  obtain ⟨hen, hperform⟩ := hstep
  suffices hends : Ends (perform cfg e) c (fun _ => Moves c) (Moves c) by
    rcases hperform with ⟨u, hu⟩ | ⟨ex, hex⟩
    · exact hends.1 u c' hu
    · exact hends.2 ex c' hex
  -- the requests and the threads that wait are not part of it
  have hsame : ∀ (enqueued : Finset Fid) (requests : List Request) (threads : ℕ) (mon : Monitor),
      Moves c { c with
        enqueued := enqueued
        allocationRequests := requests
        resetThreads := threads
        monitor := mon } := fun _ _ _ _ =>
    Moves.same hp rfl rfl (fun h => h.congr rfl rfl rfl rfl rfl (fun _ h => h) rfl rfl rfl) rfl rfl
  cases e with
  | malloc d =>
      show Ends (onMallocRequest d) c (fun _ => Moves c) (Moves c)
      unfold onMallocRequest
      refine ends_modify.2 ?_
      dsimp only
      split_ifs
      all_goals exact hsame _ _ _ _
  | take =>
      show Ends (takeRequest cfg) c (fun _ => Moves c) (Moves c)
      have hq := ho.queue_of_idle hen.1
      cases hreq : c.allocationRequests with
      | nil => exact absurd hreq hen.2
      | cons req rest =>
          have ho₁ : Orderly { c with allocationRequests := rest } :=
            ho.irrelevant _ _ _ _ _ rest _ _ _ _ rfl rfl
          have hp₁ : c.mutex = false → Poised { c with allocationRequests := rest } := fun hm =>
            (hp hm).congr rfl rfl rfl rfl rfl (fun _ h => h) rfl rfl rfl
          have hmoves : ∀ {c₁ : Controller}, Moves { c with allocationRequests := rest } c₁ →
              Moves c c₁ := fun h => ⟨⟨h.1.1, h.1.2⟩, h.2⟩
          refine ends_takeRequest hreq (fun hal ha => ?_) ?_ (hsame _ _ _ _)
          · exact ends_monitorStep ((moves_allocate ho₁ hq hp₁ ha).mono
              (fun _ _ h => (hmoves h).monitor _) fun _ h => (hmoves h).monitor _)
          · exact ends_monitorStep ((moves_departs hp₁ req.fid).mono
              (fun _ _ h => (hmoves h).monitor _) fun _ h => (hmoves h).monitor _)
  | timeout =>
      obtain ⟨req, hm, hreq⟩ := hen
      have heq : perform cfg .timeout c =
          monitorStep req (.leaving req) (onTimeout cfg) c := by
        simp only [perform, hm]
      have hends : Ends (monitorStep req (.leaving req) (onTimeout cfg)) c (fun _ => Moves c) (Moves c) :=
        ends_monitorStep ((moves_onTimeout ho hp hm hreq).mono (fun _ _ h => h.monitor _)
          fun _ h => h.monitor _)
      exact ⟨fun u t ht => hends.1 u t (heq.symm.trans ht),
        fun ex t ht => hends.2 ex t (heq.symm.trans ht)⟩
  | finish =>
      obtain ⟨req, hreq⟩ := hen
      have hcur : c.monitor.current = some req := by
        rcases hreq with ⟨hm, -⟩ | hm <;> rw [hm] <;> rfl
      have heq : perform cfg .finish c =
          .ok () { c with enqueued := c.enqueued.erase req.fid, monitor := .idle } := by
        simp only [perform, hcur]
        rfl
      exact ends_of_ok heq (hsame _ _ _ _)
  | reset =>
      have hp₁ : c.mutex = false → Poised { c with resetThreads := c.resetThreads - 1 } := fun hm =>
        (hp hm).congr rfl rfl rfl rfl rfl (fun _ h => h) rfl rfl rfl
      exact moves_resetAllocation hp₁
  | remapAck d | ackRead d | ackFinish => cases he

end Controller

/-! ### The controller and its clients -/

/-- **The controller, and all remap digests sent so far**, each with the number of allocations that had
been queued when it was sent. -/
structure DrainSystem where
  /-- The controller. -/
  controller : Controller
  /-- The digests. -/
  sent : List (Controller.RemapDigest × ℕ)

/-- A step of the system. -/
inductive DrainEvent
  /-- A malloc digest is handled, or the monitor or a reset makes a step. -/
  | controller (e : Controller.Event)
  /-- A client sends a remap digest. -/
  | send (d : Controller.RemapDigest)
  /-- A remap digest that was sent is handled. -/
  | deliver (i : ℕ)

namespace DrainSystem

open Controller

variable {cfg : ControllerConfig} {y y' : DrainSystem} {e : DrainEvent}

/-- **A step of the system.** -/
def Step (cfg : ControllerConfig) (y : DrainSystem) : DrainEvent → DrainSystem → Prop
  | .controller e, y' =>
      e.drives = true ∧ Controller.Step cfg y.controller e y'.controller ∧ y'.sent = y.sent
  | .send d, y' =>
      y'.controller = y.controller ∧ y'.sent = y.sent ++ [(d, y.controller.issued.length)]
  | .deliver i, y' => ∃ p, y.sent[i]? = some p ∧
      Controller.Step cfg y.controller (.remapAck p.1) y'.controller ∧ y'.sent = y.sent

/-- The acknowledgement of a function that was sent in the round that was queued last. -/
def acknowledges (y : DrainSystem) (t : Fid) (p : RemapDigest × ℕ) : Bool :=
  p.1.fid = t && p.1.flagRemapped && p.1.flagAck && p.2 = y.controller.issued.length

/-- **A function has acknowledged in the round that was queued last.** -/
def AckedNow (y : DrainSystem) (t : Fid) : Prop := ∃ p ∈ y.sent, y.acknowledges t p = true

/-- **No acknowledgement of an earlier round counts**: one that comes from a function that is waited for
was sent in this round. -/
def Timely (y : DrainSystem) : DrainEvent → Prop
  | .deliver i => ∀ p, y.sent[i]? = some p → p.1.flagRemapped = true → p.1.flagAck = true →
      p.1.fid ∈ y.controller.remoteDrainQueue.keys → p.2 = y.controller.issued.length
  | .controller _ | .send _ => True

/-- The system when the controller has started. -/
def start (cfg : ControllerConfig) : DrainSystem := ⟨init cfg, []⟩

/-- **Everyone that the last allocation moves is waited for or has acknowledged.** -/
structure Accounted (y : DrainSystem) : Prop where
  orderly : Orderly y.controller
  /-- No remap handler is between its two halves. -/
  atomic : y.controller.inFlight = none
  poised : y.controller.mutex = false → Poised y.controller
  drain : y.controller.mutex = false → y.controller.remoteDrainQueue.keys = [] ∨
    ∀ f r, y.controller.issued.getLast? = some (f, r) → ∀ t ∈ r.keys,
      t ∈ y.controller.remoteDrainQueue.keys ∨ y.AckedNow t

theorem AckedNow.mono {t : Fid} (h : y.AckedNow t) (hsent : ∀ p ∈ y.sent, p ∈ y'.sent)
    (hissued : y'.controller.issued = y.controller.issued) : y'.AckedNow t := by
  obtain ⟨p, hp, hack⟩ := h
  refine ⟨p, hsent p hp, ?_⟩
  rw [acknowledges, hissued]
  exact hack

/-- The acknowledgement that is handled was sent in this round. -/
theorem ackedNow_of_timely {i : ℕ} {p : RemapDigest × ℕ} (hp : y.sent[i]? = some p)
    (htimely : y.Timely (.deliver i)) (hremapped : p.1.flagRemapped = true)
    (hack : p.1.flagAck = true) (hmem : p.1.fid ∈ y.controller.remoteDrainQueue.keys) :
    y.AckedNow p.1.fid := by
  refine ⟨p, List.mem_of_getElem? hp, ?_⟩
  simp [acknowledges, hremapped, hack, htimely p hp hremapped hack hmem]

theorem accounted_start (cfg : ControllerConfig) : Accounted (start cfg) :=
  ⟨orderly_init cfg, rfl, fun _ => poised_init, fun _ => Or.inl rfl⟩

/-- The same functions are waited for in the same round. -/
theorem Accounted.same (h : Accounted y) (ho : Orderly y'.controller)
    (hable : Able y.controller y'.controller) (hissued : y'.controller.issued = y.controller.issued)
    (hdrain : y'.controller.remoteDrainQueue = y.controller.remoteDrainQueue)
    (hsent : ∀ p ∈ y.sent, p ∈ y'.sent) : Accounted y' := by
  refine ⟨ho, hable.1.trans h.atomic, fun hm => (hable.2 hm).2, fun hm => ?_⟩
  rw [hdrain, hissued]
  refine (h.drain (hable.2 hm).1).imp_right fun hall f r hlast t ht => ?_
  exact (hall f r hlast t ht).imp_right fun hacked => hacked.mono hsent hissued

/-- **A timely step keeps the account.** -/
theorem Accounted.step (h : Accounted y) (hstep : y.Step cfg e y') (htimely : y.Timely e) :
    Accounted y' := by
  cases e with
  | send d =>
      obtain ⟨hcontroller, hsent⟩ := hstep
      have hkeep : ∀ p ∈ y.sent, p ∈ y'.sent := fun p hp => by
        rw [hsent]
        exact List.mem_append_left _ hp
      have hable : Able y.controller y'.controller := by
        rw [hcontroller]
        exact ⟨rfl, fun hm => ⟨hm, h.poised hm⟩⟩
      exact h.same (hcontroller ▸ h.orderly) hable (by rw [hcontroller]) (by rw [hcontroller]) hkeep
  | deliver i =>
      obtain ⟨p, hp, hstep, hsent⟩ := hstep
      have ho := h.orderly.step_of_free hstep Controller.Event.noConfusion
      have hable := able_of_step h.orderly h.poised hstep
      have hkeep : ∀ q ∈ y.sent, q ∈ y'.sent := fun q hq => hsent ▸ hq
      rcases acks_of_step h.orderly hstep with hnoted | ⟨f, r, hfinishes⟩
      · rcases hnoted.drain with hsame | ⟨hremapped, hack, hmem, herase⟩
        · exact h.same ho hable hnoted.issued hsame hkeep
        · refine ⟨ho, hable.1.trans h.atomic, fun hm => (hable.2 hm).2, fun hm => ?_⟩
          have hacked := ackedNow_of_timely hp htimely hremapped hack hmem
          have hall := (h.drain (hable.2 hm).1).resolve_left (List.ne_nil_of_mem hmem)
          refine Or.inr fun f r hlast t ht => ?_
          rw [hnoted.issued] at hlast
          rw [herase, Dict.mem_keys_erase]
          by_cases htp : t = p.1.fid
          · subst htp
            exact Or.inr (hacked.mono hkeep hnoted.issued)
          · exact (hall f r hlast t ht).imp (fun hq => ⟨htp, hq⟩) fun h => h.mono hkeep hnoted.issued
      · refine ⟨ho, hable.1.trans h.atomic, fun hm => (hable.2 hm).2, fun hm => Or.inl ?_⟩
        rcases hfinishes.rest with hnone | hmutex
        · exact ho.drained hnone
        · exact absurd (hmutex.symm.trans hm) (by decide)
  | controller e =>
      obtain ⟨hdrives, hstep, hsent⟩ := hstep
      have ho := h.orderly.step_of_free hstep fun _ => h.atomic
      have hkeep : ∀ q ∈ y.sent, q ∈ y'.sent := fun q hq => hsent ▸ hq
      obtain ⟨hable, hround⟩ := moves_of_step hdrives h.orderly h.poised hstep
      refine ⟨ho, hable.1.trans h.atomic, fun hm => (hable.2 hm).2, fun hm => ?_⟩
      rcases hround hm with hnil | ⟨hissued, hdrain⟩ | hall
      · exact Or.inl hnil
      · exact (h.same ho hable hissued hdrain hkeep).drain hm
      · exact Or.inr fun f r hlast t ht => Or.inl (hall f r hlast t ht)

/-- **When an allocation is applied by an acknowledgement, everyone it moves has acknowledged in its
round**: in every run in which no acknowledgement of an earlier round counts. -/
theorem drained_acked {es : List DrainEvent}
    (h : Run (fun y e y' => Step cfg y e y' ∧ Timely y e) (start cfg) es y) {i : ℕ}
    (hstep : y.Step cfg (.deliver i) y') (htimely : y.Timely (.deliver i)) {k : ℕ} {f : Fid}
    {r : Remaps} (happlied : y'.controller.applied = y.controller.applied ++ [(k, f, r)]) :
    y.controller.issued.getLast? = some (f, r) ∧ ∀ t ∈ r.keys, y.AckedNow t := by
  have hall := h.invariant (I := Accounted) (fun _ _ _ h he => h.step he.1 he.2) (accounted_start cfg)
  obtain ⟨p, hp, hack, -⟩ := hstep
  rcases acks_of_step hall.orderly hack with hnoted | ⟨f', r', hfinishes⟩
  · rw [hnoted.applied] at happlied
    exact absurd happlied (by simp)
  · have heq := hfinishes.applied.symm.trans happlied
    obtain ⟨-, rfl, rfl⟩ : y.controller.issued.length - 1 = k ∧ f' = f ∧ r' = r := by simpa using heq
    refine ⟨hfinishes.last, fun t ht => ?_⟩
    obtain ⟨hremapped, hflag, hmem⟩ := hfinishes.acks
    have hwaited := (hall.drain hfinishes.lock).resolve_left (List.ne_nil_of_mem hmem)
    rcases hwaited f' r' hfinishes.last t ht with hqueue | hacked
    · rw [hfinishes.alone t hqueue]
      exact ackedNow_of_timely hp htimely hremapped hflag hmem
    · exact hacked

/-! ### Late acknowledgements -/

/-- The system after a step that raises no exception. -/
def next (cfg : ControllerConfig) (y : DrainSystem) : DrainEvent → Option DrainSystem
  | .controller e =>
      if e.drives then (execute cfg [e] y.controller).map fun c => { y with controller := c } else none
  | .send d => some { y with sent := y.sent ++ [(d, y.controller.issued.length)] }
  | .deliver i => y.sent[i]?.bind fun p =>
      (execute cfg [.remapAck p.1] y.controller).map fun c => { y with controller := c }

theorem step_of_next (h : y.next cfg e = some y') : y.Step cfg e y' := by
  cases e with
  | controller e =>
      rw [next] at h
      split_ifs at h with hdrives
      obtain ⟨c, hc, rfl⟩ := Option.map_eq_some_iff.1 h
      exact ⟨hdrives, step_of_execute hc, rfl⟩
  | send d =>
      obtain rfl := Option.some.inj h
      exact ⟨rfl, rfl⟩
  | deliver i =>
      obtain ⟨p, hp, h⟩ := Option.bind_eq_some_iff.1 h
      obtain ⟨c, hc, rfl⟩ := Option.map_eq_some_iff.1 h
      exact ⟨p, hp, step_of_execute hc, rfl⟩

/-- The step is timely. -/
def timely (y : DrainSystem) : DrainEvent → Bool
  | .controller _ | .send _ => true
  | .deliver i => y.sent[i]?.all fun p => p.2 = y.controller.issued.length

theorem timely_of_eq_true (h : y.timely e = true) : y.Timely e := by
  cases e with
  | controller e => exact trivial
  | send d => exact trivial
  | deliver i =>
      intro p hp _ _ _
      rw [timely, hp] at h
      exact of_decide_eq_true h

/-- A function arrives, and another one that moves it, which it acknowledges. -/
def firstRound : List DrainEvent :=
  [.controller (.malloc (arrival 1 1)), .controller .take, .controller .finish,
    .controller (.malloc (arrival 2 2)), .controller .take, .send (acknowledgement 1)]

/-- A round that ends with the acknowledgement of the function that is moved. -/
theorem drained_acked_round :
    ∃ y y' f r, Run (fun y e y' => Step smallConfig y e y' ∧ Timely y e)
        (start smallConfig) firstRound y ∧ y.Step smallConfig (.deliver 0) y' ∧ 1 ∈ r.keys ∧
      y.controller.issued.getLast? = some (f, r) ∧ ∀ t ∈ r.keys, y.AckedNow t := by
  have hcheck : ((firstRound.foldlM (fun y e => if DrainSystem.timely y e = true then next smallConfig y e
      else none) (start smallConfig)).any fun y => y.timely (.deliver 0) &&
        (next smallConfig y (.deliver 0)).any fun y' => y'.controller.applied.getLast?.any fun p =>
          decide (y'.controller.applied = y.controller.applied ++ [(p.1, p.2.1, p.2.2)] ∧
            1 ∈ p.2.2.keys)) = true := by decide +kernel
  obtain ⟨y, hy, hcheck⟩ := (Option.any_eq_true _ _).1 hcheck
  rw [Bool.and_eq_true] at hcheck
  obtain ⟨y', hy', hcheck'⟩ := (Option.any_eq_true _ _).1 hcheck.2
  obtain ⟨p, -, hp⟩ := (Option.any_eq_true _ _).1 hcheck'
  obtain ⟨happlied, hmem⟩ := of_decide_eq_true hp
  have hrun := (run_of_foldlM hy).mono fun _ _ _ h =>
    (⟨step_of_next h.1, timely_of_eq_true h.2⟩ : _ ∧ _)
  have hstep := step_of_next hy'
  obtain ⟨hlast, hacked⟩ := drained_acked hrun hstep (timely_of_eq_true hcheck.1) happlied
  exact ⟨y, y', p.2.1, p.2.2, hrun, hstep, hmem, hlast, hacked⟩

/-- The round ends, and a third function moves the first one again. -/
def secondRound : List DrainEvent :=
  firstRound ++ [.deliver 0, .controller .finish, .controller (.malloc (arrival 3 2)), .controller .take]

/-- **A late acknowledgement hands over memory that was not saved.** -/
theorem drained_unacked :
    ∃ y y' k f r, Run (Step smallConfig) (start smallConfig) secondRound y ∧
      y.Step smallConfig (.deliver 0) y' ∧
      y'.controller.applied = y.controller.applied ++ [(k, f, r)] ∧ ∃ t ∈ r.keys, ¬ y.AckedNow t := by
  have hcheck : ((secondRound.foldlM (next smallConfig) (start smallConfig)).any fun y =>
      (next smallConfig y (.deliver 0)).any fun y' =>
        y'.controller.applied.getLast?.any fun p =>
          decide (y'.controller.applied = y.controller.applied ++ [(p.1, p.2.1, p.2.2)] ∧
            1 ∈ p.2.2.keys ∧ ∀ q ∈ y.sent, y.acknowledges 1 q = false)) = true := by decide +kernel
  obtain ⟨y, hy, hcheck⟩ := (Option.any_eq_true _ _).1 hcheck
  obtain ⟨y', hy', hcheck'⟩ := (Option.any_eq_true _ _).1 hcheck
  obtain ⟨p, -, hp⟩ := (Option.any_eq_true _ _).1 hcheck'
  obtain ⟨happlied, hmem, hnone⟩ := of_decide_eq_true hp
  refine ⟨y, y', p.1, p.2.1, p.2.2, (Run.of_foldlM hy).mono fun _ _ _ h => step_of_next h,
    step_of_next hy', happlied, 1, hmem, ?_⟩
  rintro ⟨q, hq, hack⟩
  rw [hnone q hq] at hack
  cases hack

end DrainSystem

end ActiveRmt
