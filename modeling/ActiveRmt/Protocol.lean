/-
**The two-phase protocol: one allocation in progress, resumed once.**

The monitor works on one request at a time, and while it waits its allocation is the only one that is
queued.  A remap handler reads the initiator and the remaps in one step and resumes in another;
`resumeAllocation` tests that somebody waits, and not that it is the one the handler has seen.  So a
handler that is between its two halves while the monitor goes on to the next arrival resumes that
arrival with the remaps of the last one.

Main definitions:

* `Controller.Orderly` — **the invariant of the protocol**, in any state that any thread can leave
  behind;
* `Controller.NoOverlap` — no arrival is taken while a handler that is about to resume is between its
  two halves.

Main results:

* `Controller.Orderly.step` — every step without an overlap keeps the invariant, exceptions included;
* `Controller.resumed_once` — **every allocation is applied once, as it was queued**;
* `Controller.resumed_with_stale_remaps` — with an overlap it is not.
-/

import ActiveRmt.Handlers

set_option relaxedAutoImplicit false
set_option autoImplicit false

namespace ActiveRmt

/-! ### Departures and the queued allocation -/

namespace Allocator

/-- A departure leaves the queued allocation alone. -/
theorem leaves_deallocate (f : Fid) :
    Leaves (fun s : Allocator => (s.queueFid, s.queue)) (deallocate f) := by
  have hat : ∀ i, Leaves (fun s : Allocator => (s.queueFid, s.queue)) (deallocateAt f i) := by
    intro i s
    refine ⟨fun a t h => ?_, fun ex t h => ?_⟩
    all_goals
      unfold deallocateAt at h
      cases hd : s.getMinDemand f i with
      | error ex' =>
          simp only [hd] at h
          first
          | (obtain ⟨-, rfl⟩ := EStateM.Result.error.inj h; rfl)
          | simp at h
      | ok d =>
          simp only [hd] at h
          split_ifs at h <;>
            first
            | (obtain ⟨-, rfl⟩ := EStateM.Result.ok.inj h; rfl)
            | (obtain ⟨-, rfl⟩ := EStateM.Result.error.inj h; rfl)
  intro s
  by_cases hf : f ∈ s.activeFuncs.keys
  · cases hrev : s.revAllocationMap.get? f with
    | none =>
        have hx : deallocate f s = .error .keyError s := by simp [deallocate, hf, hrev]
        exact ends_of_error hx rfl
    | some is =>
        have hloop := Leaves.forM (l := is) (fun i _ => hat i) s
        cases h : is.forM (deallocateAt f) s with
        | error ex t =>
            have hx : deallocate f s = .error ex t := by simp [deallocate, hf, hrev, h]
            exact ends_of_error hx (hloop.2 ex t h)
        | ok u t =>
            have hx : deallocate f s = .ok true { t with
                revAllocationMap := t.revAllocationMap.erase f
                activeFuncs := t.activeFuncs.erase f } := by
              simp [deallocate, hf, hrev, h]
            exact ends_of_ok hx (hloop.1 u t h)
  · have hx : deallocate f s = .ok false s := by simp [deallocate, hf]
    exact ends_of_ok hx rfl

end Allocator

namespace Controller

open Allocator (Remaps)

variable {cfg : ControllerConfig} {c c' : Controller}

/-- The state after a departure, whether or not it has raised an exception: tables and allocator are
others, and the queued allocation is the same. -/
theorem ends_deallocate_frame (f : Fid) (c : Controller) :
    Ends (deallocate f) c
      (fun _ c' => ∃ sw s, c' = { c with switch := sw, allocator := s } ∧
        s.queueFid = c.allocator.queueFid ∧ s.queue = c.allocator.queue)
      fun c' => ∃ sw s, c' = { c with switch := sw, allocator := s } ∧
        s.queueFid = c.allocator.queueFid ∧ s.queue = c.allocator.queue := by
  have hframe := Allocator.leaves_deallocate f c.allocator
  by_cases hf : f ∈ c.active
  · refine (ends_deallocate hf).mono ?_ ?_
    · intro _ c' h
      rcases h with ⟨sw, -, rfl⟩ | ⟨sw, b, s, -, hs, rfl⟩
      · exact ⟨sw, c.allocator, rfl, rfl, rfl⟩
      · exact ⟨sw, s, rfl, Prod.ext_iff.1 (hframe.1 b s hs)⟩
    · intro c' h
      rcases h with ⟨ex, sw, -, rfl⟩ | ⟨sw, ex, s, -, hs, rfl⟩
      · exact ⟨sw, c.allocator, rfl, rfl, rfl⟩
      · exact ⟨sw, s, rfl, Prod.ext_iff.1 (hframe.2 ex s hs)⟩
  · unfold deallocate
    refine ends_bind.2 (ends_get.2 (ends_ite_neg hf (ends_pure.2 ?_)))
    exact ⟨c.switch, c.allocator, rfl, rfl, rfl⟩

theorem foldl_erase_eq_nil (l : List Fid) : l.foldl (fun l f => l.erase f) l = [] := by
  induction l with
  | nil => rfl
  | cons f l ih => simpa using ih

/-- **A reset**: the active functions are forgotten, or the lock is held for ever. -/
theorem ends_resetAllocation (c : Controller) :
    Ends resetAllocation c
      (fun _ c' => c.mutex = false ∧ ∃ sw s, c' = { c with switch := sw, allocator := s, active := [] } ∧
        s.queueFid = c.allocator.queueFid ∧ s.queue = c.allocator.queue)
      fun c' => ∃ sw s, c' = { c with switch := sw, allocator := s, mutex := true } ∧
        s.queueFid = c.allocator.queueFid ∧ s.queue = c.allocator.queue := by
  unfold resetAllocation
  refine ends_bind.2 (ends_get.2 (ends_ite (fun hm => ?_) fun hm => ?_))
  · refine ends_bind.2 (ends_throw.2 ⟨c.switch, c.allocator, ?_, rfl, rfl⟩)
    cases c
    simp_all
  · refine ends_bind.2 (ends_modify.2 (ends_bind.2 (ends_get.2 (ends_bind.2 ?_))))
    have hmut : c.mutex = false := by simpa using hm
    refine Ends.mono (Q := fun _ c' => ∃ sw s,
      c' = { c with switch := sw, allocator := s, mutex := true } ∧
        s.queueFid = c.allocator.queueFid ∧ s.queue = c.allocator.queue) ?_ ?_ fun _ h => h
    · refine ends_forM_const (fun c' => ∃ sw s,
        c' = { c with switch := sw, allocator := s, mutex := true } ∧
          s.queueFid = c.allocator.queueFid ∧ s.queue = c.allocator.queue) ?_
        ⟨c.switch, c.allocator, rfl, rfl, rfl⟩
      intro f _ c₁ h₁
      obtain ⟨sw₁, s₁, rfl, hf₁, hq₁⟩ := h₁
      refine (ends_deallocate_frame f _).mono ?_ ?_
      · intro _ c₂ h₂
        obtain ⟨sw, s, rfl, hf, hq⟩ := h₂
        exact ⟨sw, s, rfl, hf.trans hf₁, hq.trans hq₁⟩
      · intro c₂ h₂
        obtain ⟨sw, s, rfl, hf, hq⟩ := h₂
        exact ⟨sw, s, rfl, hf.trans hf₁, hq.trans hq₁⟩
    · intro _ c₁ h₁
      obtain ⟨sw, s, rfl, hf, hq⟩ := h₁
      refine ends_bind.2 (ends_modify.2 (ends_modify.2 ⟨hmut, sw, s, ?_, hf, hq⟩))
      simp only [foldl_erase_eq_nil, hmut]

/-! ### The invariant -/

/-- **An allocation waits to be applied**: it is the last one that was queued, and the functions that
have not acknowledged are those of its round. -/
structure Pending (c : Controller) (f : Fid) (r : Remaps) : Prop where
  /-- It is the initiator. -/
  initiator : c.remoteDrainInitiator = some f
  /-- It was queued last. -/
  last : c.issued.getLast? = some (f, r)
  /-- The functions that are waited for are told of this round. -/
  drain : ∀ k rs, c.remoteDrainQueue.get? k = some rs → rs = r ∧ k ∈ r.keys
  /-- It has not been applied. -/
  fresh : c.issued.length - 1 ∉ c.applied.map Prod.fst
  /-- The allocator knows that an arrival is in progress. -/
  queueFid : ∃ g, c.allocator.queueFid = some g

/-- Resuming as `f` with the remaps `r` does no harm: it is what waits, or it has no effect. -/
def Resumable (c : Controller) (f : Fid) (r : Remaps) : Prop :=
  c.mutex = true ∨ c.remoteDrainInitiator = none ∨
    (c.remoteDrainInitiator = some f ∧ c.issued.getLast? = some (f, r) ∧ c.allocator.queue ≠ none)

/-- **The invariant of the protocol.** -/
structure Orderly (c : Controller) : Prop where
  /-- No function is active twice. -/
  active_nodup : c.active.Nodup
  /-- At most one allocation is in progress, the one that the monitor works on. -/
  queue_eq : c.queue = [] ∨ ∃ req, (c.monitor = .waiting req ∨ c.monitor = .dead req) ∧
    req.allocate = true ∧ c.queue = [req.fid]
  /-- It is timed, and not active yet. -/
  queue_new : ∀ f ∈ c.queue, f ∈ c.allocTiming ∧ f ∉ c.active
  /-- The initiator is in progress. -/
  initiator_queue : ∀ f, c.remoteDrainInitiator = some f → c.queue = [f]
  /-- While the monitor waits, its allocation is the last one queued, and can be applied. -/
  waiting : ∀ req, c.monitor = .waiting req → c.queue ≠ [] →
    ∃ f r, c.remoteDrainInitiator = some f ∧ c.issued.getLast? = some (f, r) ∧
      c.remaps = some r ∧ c.remoteDrainStartTs = true ∧
      (c.mutex = false → c.allocator.queue ≠ none)
  /-- Nobody is waited for without an initiator. -/
  drained : c.remoteDrainInitiator = none → c.remoteDrainQueue.keys = []
  /-- Whoever is waited for can end the round. -/
  draining : c.mutex = false → c.remoteDrainQueue.keys ≠ [] → c.allocator.queue ≠ none
  /-- A queued allocation waits. -/
  pending : c.allocator.queue ≠ none → ∃ f r, Pending c f r
  /-- No allocation is applied twice. -/
  applied_nodup : (c.applied.map Prod.fst).Nodup
  /-- An allocation is applied as it was queued. -/
  applied_match : ∀ p ∈ c.applied, c.issued[p.1]? = some p.2
  /-- Only an allocation in progress has not been applied. -/
  unapplied : ∀ k < c.issued.length, k ∈ c.applied.map Prod.fst ∨
    (k + 1 = c.issued.length ∧ c.queue ≠ [])
  /-- A handler that is about to resume has read the allocation that waits, or nobody waits. -/
  inFlight : ∀ a f r, c.inFlight = some a → a.resume = some (f, r) →
    (∀ k ∈ c.remoteDrainQueue.keys, k = a.fid) ∧ Resumable c f r

theorem orderly_init (cfg : ControllerConfig) : Orderly (init cfg) := by
  refine ⟨List.nodup_nil, Or.inl rfl, ?_, ?_, ?_, fun _ => rfl, ?_, ?_, List.nodup_nil, ?_, ?_, ?_⟩
  all_goals simp [init, Allocator.init, Dict.keys, Dict.empty]

/-- What the invariant does not mention. -/
theorem Orderly.irrelevant (h : Orderly c) (sw : Switch) (v : Dict Fid ℕ) (T I E : Finset Fid)
    (rq : List Request) (pd : Dict Fid ActiveFunction) (dm : Bool) (n : ℕ) (s : Allocator)
    (hf : s.queueFid = c.allocator.queueFid) (hq : s.queue = c.allocator.queue) :
    Orderly { c with
      switch := sw
      allocVersion := v
      remapTiming := T
      remoteDrainInit := I
      enqueued := E
      allocationRequests := rq
      programDefs := pd
      digestMutex := dm
      resetThreads := n
      allocator := s } := by
  refine ⟨h.active_nodup, h.queue_eq, h.queue_new, h.initiator_queue, ?_, h.drained, ?_, ?_,
    h.applied_nodup, h.applied_match, h.unapplied, ?_⟩
  · intro req hreq hne
    obtain ⟨f, r, h1, h2, h3, h4, h5⟩ := h.waiting req hreq hne
    exact ⟨f, r, h1, h2, h3, h4, fun hm => hq ▸ h5 hm⟩
  · intro hm hne
    exact hq ▸ h.draining hm hne
  · intro hplan
    obtain ⟨f, r, hp⟩ := h.pending (hq ▸ hplan)
    exact ⟨f, r, hp.initiator, hp.last, hp.drain, hp.fresh, hf ▸ hp.queueFid⟩
  · intro a f r ha hr
    obtain ⟨h1, h2⟩ := h.inFlight a f r ha hr
    exact ⟨h1, h2.imp id (Or.imp id fun h3 => ⟨h3.1, h3.2.1, hq ▸ h3.2.2⟩)⟩

/-- The monitor works on one request. -/
theorem current_inj {mon : Monitor} {req req' : Request} (h : mon = .waiting req ∨ mon = .dead req)
    (h' : mon = .waiting req' ∨ mon = .dead req') : req = req' := by
  have hcur : ∀ {req : Request}, mon = .waiting req ∨ mon = .dead req →
      mon.current = some req := by
    intro req h
    rcases h with h | h <;> rw [h] <;> rfl
  exact Option.some.inj ((hcur h).symm.trans (hcur h'))

/-- The monitor ends with an exception. -/
theorem Orderly.dies (h : Orderly c) {req : Request}
    (hreq : c.queue = [] ∨ c.monitor = .waiting req ∨ c.monitor = .dead req) :
    Orderly { c with monitor := .dead req } := by
  refine ⟨h.active_nodup, ?_, h.queue_new, h.initiator_queue, ?_, h.drained, h.draining, ?_,
    h.applied_nodup, h.applied_match, h.unapplied, h.inFlight⟩
  · rcases hreq with hnil | hreq
    · exact Or.inl hnil
    · refine h.queue_eq.imp id ?_
      rintro ⟨req', hreq', hal, hq⟩
      obtain rfl : req = req' := current_inj hreq hreq'
      exact ⟨req, Or.inr rfl, hal, hq⟩
  · intro req' hreq'
    simp at hreq'
  · intro hplan
    obtain ⟨f, r, hp⟩ := h.pending hplan
    exact ⟨f, r, hp.initiator, hp.last, hp.drain, hp.fresh, hp.queueFid⟩

/-- The monitor goes on when nothing is in progress. -/
theorem Orderly.moves (h : Orderly c) (hq : c.queue = []) (mon : Monitor) :
    Orderly { c with monitor := mon } := by
  refine ⟨h.active_nodup, Or.inl hq, h.queue_new, h.initiator_queue, ?_, h.drained, h.draining, ?_,
    h.applied_nodup, h.applied_match, h.unapplied, h.inFlight⟩
  · intro req _ hne
    exact absurd hq hne
  · intro hplan
    obtain ⟨f, r, hp⟩ := h.pending hplan
    exact ⟨f, r, hp.initiator, hp.last, hp.drain, hp.fresh, hp.queueFid⟩

/-- Fewer functions are waited for. -/
theorem Orderly.drains (h : Orderly c) (Q : Dict Fid Remaps)
    (hQ : ∀ k rs, Q.get? k = some rs → c.remoteDrainQueue.get? k = some rs) :
    Orderly { c with remoteDrainQueue := Q } := by
  have hkeys : ∀ k ∈ Q.keys, k ∈ c.remoteDrainQueue.keys := by
    intro k hk
    obtain ⟨rs, hrs⟩ := (Dict.mem_keys_iff _ _).1 hk
    exact (Dict.mem_keys_iff _ _).2 ⟨rs, hQ k rs hrs⟩
  refine ⟨h.active_nodup, h.queue_eq, h.queue_new, h.initiator_queue, h.waiting, ?_, ?_, ?_,
    h.applied_nodup, h.applied_match, h.unapplied, ?_⟩
  · intro hi
    refine List.eq_nil_iff_forall_not_mem.2 fun k hk => ?_
    have := hkeys k hk
    rw [h.drained hi] at this
    exact absurd this (List.not_mem_nil)
  · intro hm hne
    obtain ⟨k, hk⟩ := List.exists_mem_of_ne_nil _ hne
    exact h.draining hm (List.ne_nil_of_mem (hkeys k hk))
  · intro hplan
    obtain ⟨f, r, hp⟩ := h.pending hplan
    exact ⟨f, r, hp.initiator, hp.last, fun k rs hk => hp.drain k rs (hQ k rs hk), hp.fresh,
      hp.queueFid⟩
  · intro a f r ha hr
    obtain ⟨h1, h2⟩ := h.inFlight a f r ha hr
    exact ⟨fun k hk => h1 k (hkeys k hk), h2⟩

theorem Orderly.queue_of_pending (h : Orderly c) {f : Fid} {r : Remaps} (hp : Pending c f r) :
    c.queue = [f] := h.initiator_queue f hp.initiator

/-- Applying what waits extends the history by one allocation, as it was queued. -/
theorem Orderly.history (h : Orderly c) {f : Fid} {r : Remaps} (hp : Pending c f r) :
    ((c.applied ++ [(c.issued.length - 1, f, r)]).map Prod.fst).Nodup ∧
      (∀ p ∈ c.applied ++ [(c.issued.length - 1, f, r)], c.issued[p.1]? = some p.2) ∧
      ∀ k < c.issued.length, k ∈ (c.applied ++ [(c.issued.length - 1, f, r)]).map Prod.fst := by
  refine ⟨?_, ?_, ?_⟩
  · rw [List.map_append, List.map_singleton, List.nodup_append]
    refine ⟨h.applied_nodup, List.nodup_singleton _, fun k hk k' hk' => ?_⟩
    rw [List.mem_singleton] at hk'
    intro heq
    rw [heq, hk'] at hk
    exact hp.fresh hk
  · intro p hmem
    rcases List.mem_append.1 hmem with hmem | hmem
    · exact h.applied_match p hmem
    · rw [List.mem_singleton] at hmem
      rw [hmem, ← List.getLast?_eq_getElem?]
      exact hp.last
  · intro k hk
    rw [List.map_append, List.mem_append]
    refine (h.unapplied k hk).imp id fun hlast => ?_
    simp only [List.map_cons, List.map_nil, List.mem_singleton]
    omega

/-- **An allocation that waits is applied.** -/
theorem Orderly.completed (h : Orderly c) {plan : Plan} {f : Fid} {r : Remaps}
    (hp : Pending c f r) (sw : Switch) (v : Dict Fid ℕ) {Q : Dict Fid Remaps} (hQ : Q.keys = [])
    (dm : Bool) (a : Option Ack) (mon : Monitor) :
    Orderly { c.completed plan f r sw v with
      remoteDrainQueue := Q
      digestMutex := dm
      inFlight := a
      monitor := mon } := by
  have hq := h.queue_of_pending hp
  have hnil : c.queue.erase f = [] := by rw [hq]; simp
  obtain ⟨h1, h2, h3⟩ := h.history hp
  have hnew := h.queue_new f (by rw [hq]; exact List.mem_singleton_self f)
  refine ⟨?_, Or.inl hnil, ?_, ?_, ?_, fun _ => hQ, ?_, ?_, h1, h2, fun k hk => Or.inl (h3 k hk), ?_⟩
  · change (c.active ++ [f]).Nodup
    rw [List.nodup_append]
    refine ⟨h.active_nodup, List.nodup_singleton f, fun k hk k' hk' => ?_⟩
    rw [List.mem_singleton] at hk'
    rw [hk']
    exact fun heq => hnew.2 (heq ▸ hk)
  · intro g hg
    have hg : g ∈ c.queue.erase f := hg
    rw [hnil] at hg
    exact absurd hg List.not_mem_nil
  · intro g hg
    exact absurd hg (by simp [Controller.completed])
  · intro req _ hne
    exact absurd hnil hne
  · intro _ hne
    exact absurd hQ hne
  · intro hplan
    exact absurd rfl hplan
  · intro b g rs _ _
    refine ⟨fun k hk => ?_, Or.inr (Or.inl rfl)⟩
    have hk : k ∈ Q.keys := hk
    rw [hQ] at hk
    exact absurd hk List.not_mem_nil

/-- **An exception while an allocation is applied.** -/
theorem Orderly.stuck (h : Orderly c) {plan : Plan} {f : Fid} {r : Remaps} (hp : Pending c f r)
    (sw : Switch) (v : Dict Fid ℕ) : Orderly (c.stuck plan f r sw v) := by
  obtain ⟨h1, h2, h3⟩ := h.history hp
  refine ⟨h.active_nodup, h.queue_eq, h.queue_new, h.initiator_queue, ?_, h.drained, ?_, ?_, h1, h2,
    fun k hk => Or.inl (h3 k hk), ?_⟩
  · intro req hreq hne
    obtain ⟨g, rs, h1, h2, h3, h4, -⟩ := h.waiting req hreq hne
    exact ⟨g, rs, h1, h2, h3, h4, fun hm => absurd hm (by simp [Controller.stuck])⟩
  · intro hm
    exact absurd hm (by simp [Controller.stuck])
  · intro hplan
    exact absurd rfl hplan
  · intro a g rs ha hr
    exact ⟨(h.inFlight a g rs ha hr).1, Or.inl rfl⟩

/-- What waits is what was queued last. -/
theorem Orderly.pending_of_last (h : Orderly c) {f : Fid} {r : Remaps}
    (hlast : c.issued.getLast? = some (f, r)) (hplan : c.allocator.queue ≠ none) :
    Pending c f r := by
  obtain ⟨g, rs, hp⟩ := h.pending hplan
  obtain ⟨rfl, rfl⟩ : f = g ∧ r = rs := by simpa using hlast.symm.trans hp.last
  exact hp

/-! ### Remap digests -/

/-- **The first half of a remap handler** keeps the invariant, and what it reads can be resumed. -/
theorem Orderly.readAck (h : Orderly c) (d : RemapDigest) :
    Ends (readAck d) c
      (fun a c' => Orderly c' ∧ c'.inFlight = c.inFlight ∧
        ∀ b f r, a = some b → b.resume = some (f, r) →
          (∀ k ∈ c'.remoteDrainQueue.keys, k = b.fid) ∧ Resumable c' f r)
      Orderly := by
  refine (ends_readAck d c).mono ?_ ?_
  · intro a c' hread
    rcases hread with ⟨rfl, I, m, rfl, -⟩ | ⟨rs, m, rfl, hrs, -, -, -, rfl, -⟩
    · refine ⟨h.irrelevant _ _ _ _ _ _ _ _ _ _ rfl rfl, rfl, ?_⟩
      intro b f r hb
      simp at hb
    · refine ⟨h.irrelevant _ _ _ _ _ _ _ _ _ _ rfl rfl, rfl, ?_⟩
      intro b f r hb hr
      obtain rfl := Option.some.inj hb
      have hmem : d.fid ∈ c.remoteDrainQueue.keys := (Dict.mem_keys_iff _ _).2 ⟨rs, hrs⟩
      have hr : (if c.remoteDrainQueue.keys.length = 1 then
          c.remoteDrainInitiator.map fun g => (g, rs) else none) = some (f, r) := hr
      split_ifs at hr with hlen
      obtain ⟨g, hg, hgr⟩ := Option.map_eq_some_iff.1 hr
      obtain ⟨rfl, rfl⟩ : g = f ∧ rs = r := by simpa using hgr
      obtain ⟨x, hx⟩ := List.length_eq_one_iff.1 hlen
      refine ⟨fun k hk => ?_, ?_⟩
      · have hk : k ∈ c.remoteDrainQueue.keys := hk
        rw [hx, List.mem_singleton] at hk hmem
        rw [hk, ← hmem]
        rfl
      · by_cases hm : c.mutex = true
        · exact Or.inl hm
        · have hm : c.mutex = false := by simpa using hm
          have hplan := h.draining hm (List.ne_nil_of_mem hmem)
          obtain ⟨f', r', hp⟩ := h.pending hplan
          obtain rfl : g = f' := Option.some.inj (hg.symm.trans hp.initiator)
          obtain rfl := (hp.drain d.fid rs hrs).1
          exact Or.inr (Or.inr ⟨hg, hp.last, hplan⟩)
  · intro c' hfail
    obtain ⟨⟨I, T, m, rfl⟩, -⟩ := hfail
    exact h.irrelevant _ _ _ _ _ _ _ _ _ _ rfl rfl

/-- **The second half of a remap handler** keeps the invariant when it has read what can be
resumed. -/
theorem Orderly.finishAck (h : Orderly c) {a : Ack}
    (hres : ∀ f r, a.resume = some (f, r) →
      (∀ k ∈ c.remoteDrainQueue.keys, k = a.fid) ∧ Resumable c f r) :
    Ends (finishAck cfg a) c (fun _ => Orderly) Orderly := by
  by_cases hidle : a.resume = none ∨ c.mutex = true ∨ c.remoteDrainInitiator = none
  · refine (ends_finishAck_idle hidle).mono ?_ ?_
    · intro _ c' hc'
      rw [hc'.1]
      refine (h.drains (c.remoteDrainQueue.erase a.fid) ?_).irrelevant _ _ _ _ _ _ _ false _ _ rfl rfl
      intro k rs hk
      rw [Dict.get?_erase] at hk
      split_ifs at hk
      exact hk
    · intro c' hc'
      rw [hc'.1]
      exact h
  · rw [not_or, not_or, ← ne_eq, Option.ne_none_iff_exists'] at hidle
    obtain ⟨⟨⟨f, r⟩, hr⟩, hm, hi⟩ := hidle
    obtain ⟨hkeys, hres⟩ := hres f r hr
    obtain ⟨hf, hlast, hplan⟩ := (hres.resolve_left hm).resolve_left hi
    have hm : c.mutex = false := by simpa using hm
    have hp := h.pending_of_last hlast hplan
    obtain ⟨plan, hplan⟩ := Option.ne_none_iff_exists'.1 hplan
    obtain ⟨g, hg⟩ := hp.queueFid
    have hq : f ∈ c.queue := by rw [h.queue_of_pending hp]; exact List.mem_singleton_self f
    refine (ends_finishAck hr hm hi hg hplan hq (h.queue_new f hq).1).mono ?_ ?_
    · intro _ c' hc'
      obtain ⟨sw, v, rfl, -⟩ := hc'
      refine h.completed hp sw v (Q := c.remoteDrainQueue.erase a.fid) ?_ false c.inFlight c.monitor
      refine List.eq_nil_iff_forall_not_mem.2 fun k hk => ?_
      rw [Dict.mem_keys_erase] at hk
      exact hk.1 (hkeys k hk.2)
    · intro c' hc'
      obtain ⟨sw, v, ⟨rfl, -⟩ | ⟨rfl, -, hnot⟩⟩ := hc'
      · exact h.stuck hp sw v
      · refine h.completed hp sw v (Q := c.remoteDrainQueue) ?_ c.digestMutex c.inFlight c.monitor
        refine List.eq_nil_iff_forall_not_mem.2 fun k hk => ?_
        exact hnot (hkeys k hk ▸ hk)

/-- What is in flight may be replaced by an acknowledgement that can be resumed. -/
theorem Orderly.flies (h : Orderly c) {a : Option Ack}
    (ha : ∀ b f r, a = some b → b.resume = some (f, r) →
      (∀ k ∈ c.remoteDrainQueue.keys, k = b.fid) ∧ Resumable c f r) :
    Orderly { c with inFlight := a } := by
  refine ⟨h.active_nodup, h.queue_eq, h.queue_new, h.initiator_queue, h.waiting, h.drained,
    h.draining, ?_, h.applied_nodup, h.applied_match, h.unapplied, fun b f r hb hr => ha b f r hb hr⟩
  intro hplan
  obtain ⟨f, r, hp⟩ := h.pending hplan
  exact ⟨f, r, hp.initiator, hp.last, hp.drain, hp.fresh, hp.queueFid⟩

/-! ### The monitor -/

/-- When nothing is in progress, nothing waits. -/
theorem Orderly.quiet (h : Orderly c) (hq : c.queue = []) :
    c.remoteDrainInitiator = none ∧ c.remoteDrainQueue.keys = [] ∧ c.allocator.queue = none ∧
      ∀ k < c.issued.length, k ∈ c.applied.map Prod.fst := by
  have hi : c.remoteDrainInitiator = none := by
    rw [Option.eq_none_iff_forall_not_mem]
    intro f hf
    have := h.initiator_queue f hf
    rw [hq] at this
    exact absurd this (List.cons_ne_nil f []).symm
  refine ⟨hi, h.drained hi, ?_, fun k hk => ?_⟩
  · by_contra hplan
    obtain ⟨f, r, hp⟩ := h.pending hplan
    exact absurd (hi.symm.trans hp.initiator) (Option.some_ne_none f).symm
  · exact (h.unapplied k hk).resolve_right fun hlast => hlast.2 hq

theorem Orderly.queue_of_idle (h : Orderly c) (hm : c.monitor = .idle) : c.queue = [] := by
  rcases h.queue_eq with hq | ⟨req, hreq, _⟩
  · exact hq
  · rw [hm] at hreq
    rcases hreq with hreq | hreq <;> exact Monitor.noConfusion hreq

/-- **The timeout of the monitor.** -/
theorem Orderly.onTimeout (h : Orderly c) {req : Request} (hm : c.monitor = .waiting req)
    (hreq : req.fid ∈ c.queue) :
    Ends (onTimeout cfg) c (fun _ c' => Orderly { c' with monitor := .leaving req })
      fun c' => Orderly { c' with monitor := .dead req } := by
  obtain ⟨f, r, hi, hlast, hremaps, hts, hplan⟩ := h.waiting req hm (List.ne_nil_of_mem hreq)
  unfold Controller.onTimeout
  refine ends_bind.2 (ends_get.2 (ends_ite_neg (by rw [hts]; decide) ?_))
  refine ends_bind.2 (ends_get.2 ?_)
  rw [hremaps]
  have hsub : ∀ (ps : List Fid) (d : Dict Fid Remaps) (k : Fid) (rs : Remaps),
      (ps.foldl (fun d f => d.erase f) d).get? k = some rs → d.get? k = some rs ∧ k ∉ ps := by
    intro ps
    induction ps with
    | nil => exact fun _ _ _ h => ⟨h, List.not_mem_nil⟩
    | cons p ps ih =>
        intro d k rs h
        obtain ⟨hget, hnot⟩ := ih _ k rs h
        rw [Dict.get?_erase] at hget
        split_ifs at hget with hkp
        exact ⟨hget, fun hk => (List.mem_cons.1 hk).elim hkp hnot⟩
  refine ends_bind.2 ((ends_dropPeers r.keys c).mono ?_ ?_)
  · intro _ c₁ h₁
    obtain ⟨m, rfl, -⟩ := h₁
    have hdropped : Orderly (c.dropped r.keys m) :=
      (h.drains (r.keys.foldl (fun d f => d.erase f) c.remoteDrainQueue) fun k rs hk =>
        (hsub r.keys _ k rs hk).1).irrelevant _ _ _ _ _ _ _ _ _ _ rfl rfl
    refine ends_bind.2 (ends_get.2 ?_)
    rw [show (c.dropped r.keys m).remoteDrainInitiator = some f from hi]
    by_cases hmut : c.mutex = true
    · refine (ends_resumeAllocation_idle (c := c.dropped r.keys m) f r (.inl hmut)).mono ?_ ?_
      · intro _ c' hc'
        exact absurd (hc'.2.symm.trans hmut) (by decide)
      · intro c' hc'
        rw [hc'.1]
        exact hdropped.dies (.inr (.inl hm))
    · have hmut : c.mutex = false := by simpa using hmut
      have hp : Pending (c.dropped r.keys m) f r := hdropped.pending_of_last hlast (hplan hmut)
      obtain ⟨plan, hplan⟩ := Option.ne_none_iff_exists'.1 (hplan hmut)
      obtain ⟨g, hg⟩ := hp.queueFid
      have hq : f ∈ c.queue := by
        rw [h.initiator_queue f hi]
        exact List.mem_singleton_self f
      have hi' : (c.dropped r.keys m).remoteDrainInitiator ≠ none := by
        rw [hp.initiator]
        exact Option.some_ne_none f
      refine (ends_resumeAllocation (c := c.dropped r.keys m) r hmut hi' hg hplan hq
        (h.queue_new f hq).1).mono ?_ ?_
      · intro _ c' hc'
        obtain ⟨sw, v, rfl, -⟩ := hc'
        refine hdropped.completed hp sw v (Q := (c.dropped r.keys m).remoteDrainQueue) ?_ _ _
          (.leaving req)
        refine List.eq_nil_iff_forall_not_mem.2 fun k hk => ?_
        obtain ⟨rs, hrs⟩ := (Dict.mem_keys_iff _ _).1 hk
        exact (hsub r.keys _ k rs hrs).2 (hp.drain k rs hrs).2
      · intro c' hc'
        obtain ⟨sw, v, rfl, -⟩ := hc'
        exact (hdropped.stuck hp sw v).dies (.inr (.inl hm))
  · intro c₁ h₁
    obtain ⟨Q, I, m, rfl, hQ, -⟩ := h₁
    have hdropped := (h.drains Q hQ).irrelevant { c.switch with remapCheck := m } c.allocVersion
      c.remapTiming I c.enqueued c.allocationRequests c.programDefs c.digestMutex c.resetThreads
      c.allocator rfl rfl
    exact hdropped.dies (.inr (.inl hm))

/-- The state in which an allocation has been queued, with the monitor at it. -/
theorem Orderly.issues (h : Orderly c) (hq : c.queue = []) {req : Request} (hal : req.allocate = true)
    (ha : req.fid ∉ c.active) (hfly : ∀ a, c.inFlight = some a → a.resume = none) {r : Remaps}
    {c₁ : Controller} (hissue : Issues cfg req c r c₁) :
    Orderly { c₁ with monitor := .dead req } ∧ Pending { c₁ with monitor := .dead req } req.fid r := by
  obtain ⟨hi, hdrain, hnone, hall⟩ := h.quiet hq
  obtain ⟨plan, hplan, hfid⟩ := hissue.queue
  cases hissue with
  | @intro af ch s₁ s₂ changes n p hfun hchoice hqueue =>
      have hlen : (c.issued ++ [(req.fid, r)]).length - 1 = c.issued.length := by simp
      have hfresh : (c.issued ++ [(req.fid, r)]).length - 1 ∉ c.applied.map Prod.fst := by
        rw [hlen]
        intro hmem
        obtain ⟨q, hq, hlt⟩ := List.mem_map.1 hmem
        have := (List.getElem?_eq_some_iff.1 (h.applied_match q hq)).1
        omega
      have hpending : Pending { (c.started req.fid (c.switch.allocation.set req.fid .pending) p s₂
          (some req.fid)).issuing req.fid r with monitor := .dead req } req.fid r := by
        refine ⟨rfl, List.getLast?_concat, fun k rs hk => ?_, hfresh, req.fid, hfid⟩
        have : k ∈ c.remoteDrainQueue.keys := (Dict.mem_keys_iff _ _).2 ⟨rs, hk⟩
        rw [hdrain] at this
        exact absurd this List.not_mem_nil
      have hqueue' : c.queue ++ [req.fid] = [req.fid] := by rw [hq]; rfl
      refine ⟨⟨h.active_nodup, .inr ⟨req, .inr rfl, hal, hqueue'⟩, ?_, ?_, ?_, ?_, ?_, ?_,
        h.applied_nodup, ?_, ?_, ?_⟩, hpending⟩
      · intro f hf
        have hf : f ∈ c.queue ++ [req.fid] := hf
        rw [hqueue', List.mem_singleton] at hf
        rw [hf]
        exact ⟨Finset.mem_insert_self _ _, ha⟩
      · intro f hf
        obtain rfl : req.fid = f := Option.some.inj hf
        exact hqueue'
      · intro req' hreq'
        exact Monitor.noConfusion hreq'
      · intro hnone'
        exact absurd hnone' (Option.some_ne_none _)
      · intro _ hne
        exact absurd hdrain hne
      · intro _
        exact ⟨req.fid, r, hpending⟩
      · intro q hmem
        have hget := h.applied_match q hmem
        have hlt := (List.getElem?_eq_some_iff.1 hget).1
        show (c.issued ++ [(req.fid, r)])[q.1]? = some q.2
        rw [List.getElem?_append_left hlt]
        exact hget
      · intro k hk
        have hk : k < (c.issued ++ [(req.fid, r)]).length := hk
        rw [List.length_append, List.length_singleton] at hk
        rcases Nat.lt_succ_iff_lt_or_eq.1 hk with hk | hk
        · exact .inl (hall k hk)
        · refine .inr ⟨?_, ?_⟩
          · show k + 1 = (c.issued ++ [(req.fid, r)]).length
            rw [List.length_append, List.length_singleton, hk]
          · show c.queue ++ [req.fid] ≠ []
            rw [hqueue']
            exact List.cons_ne_nil _ _
      · intro a f rs hfl hres
        rw [hfly a hfl] at hres
        exact absurd hres (Option.some_ne_none _).symm

/-- Who is told of a round is waited for with its remaps. -/
theorem get?_foldl_set {r : Remaps} (fs : List Fid) (d : Dict Fid Remaps) {k : Fid} {rs : Remaps}
    (h : (fs.foldl (fun d f => d.set f r) d).get? k = some rs) :
    (rs = r ∧ k ∈ fs) ∨ d.get? k = some rs := by
  induction fs generalizing d with
  | nil => exact .inr h
  | cons f fs ih =>
      rcases ih (d.set f r) h with ⟨hr, hk⟩ | hget
      · exact .inl ⟨hr, List.mem_cons_of_mem f hk⟩
      · rw [Dict.get?_set] at hget
        split_ifs at hget with hkf
        · exact .inl ⟨(Option.some.inj hget).symm, hkf ▸ List.mem_cons_self ..⟩
        · exact .inr hget

/-- **A round is announced** to some of its functions, and the monitor waits or is dead. -/
theorem Orderly.announces {req : Request} (h : Orderly { c with monitor := .dead req })
    {r : Remaps} (hp : Pending { c with monitor := .dead req } req.fid r)
    (hplan : c.allocator.queue ≠ none) (hal : req.allocate = true)
    (hfly : ∀ a, c.inFlight = some a → a.resume = none) {fs : List Fid} (hfs : ∀ f ∈ fs, f ∈ r.keys) (m : Dict Fid ℕ) {mon : Monitor}
    (hmon : mon = .waiting req ∨ mon = .dead req) :
    Orderly { (c.awaiting r).queued r fs m with monitor := mon } := by
  have hq : c.queue = [req.fid] := h.queue_of_pending hp
  have hp' : Pending { (c.awaiting r).queued r fs m with monitor := mon } req.fid r := by
    refine ⟨hp.initiator, hp.last, fun k rs hk => ?_, hp.fresh, hp.queueFid⟩
    rcases get?_foldl_set fs c.remoteDrainQueue hk with ⟨hrs, hk⟩ | hk
    · exact ⟨hrs, hfs k hk⟩
    · exact hp.drain k rs hk
  refine ⟨h.active_nodup, .inr ⟨req, hmon, hal, hq⟩, h.queue_new, h.initiator_queue, ?_, ?_,
    fun _ _ => hplan, fun _ => ⟨req.fid, r, hp'⟩, h.applied_nodup, h.applied_match, h.unapplied, ?_⟩
  · intro _ _ _
    exact ⟨req.fid, r, hp.initiator, hp.last, rfl, rfl, fun _ => hplan⟩
  · intro hnone
    exact absurd (hnone.symm.trans hp.initiator) (Option.some_ne_none req.fid).symm
  · intro a f rs ha hr
    rw [hfly a ha] at hr
    exact absurd hr (Option.some_ne_none _).symm

/-- **An arrival that fails before an allocation is queued.** -/
theorem Orderly.early (h : Orderly c) (hq : c.queue = []) {req : Request}
    (hal : req.allocate = true) (ha : req.fid ∉ c.active)
    (hfly : ∀ a, c.inFlight = some a → a.resume = none) (d : Dict Fid Reply)
    (p : Dict Fid ActiveFunction) {s : Allocator} (hs : s.queue = none) {i : Option Fid}
    (hi : i = none ∨ i = some req.fid) :
    Orderly { c.started req.fid d p s i with monitor := .dead req } := by
  obtain ⟨-, hdrain, -, hall⟩ := h.quiet hq
  have hqueue' : c.queue ++ [req.fid] = [req.fid] := by rw [hq]; rfl
  refine ⟨h.active_nodup, .inr ⟨req, .inr rfl, hal, hqueue'⟩, ?_, ?_, ?_, fun _ => hdrain,
    fun _ hne => absurd hdrain hne, fun hne => absurd hs hne, h.applied_nodup, h.applied_match,
    fun k hk => .inl (hall k hk), ?_⟩
  · intro f hf
    have hf : f ∈ c.queue ++ [req.fid] := hf
    rw [hqueue', List.mem_singleton] at hf
    rw [hf]
    exact ⟨Finset.mem_insert_self _ _, ha⟩
  · intro f hf
    have hf : i = some f := hf
    rcases hi with hi | hi
    · exact absurd (hi.symm.trans hf) (Option.some_ne_none f).symm
    · obtain rfl : req.fid = f := Option.some.inj (hi.symm.trans hf)
      exact hqueue'
  · intro req' hreq'
    exact Monitor.noConfusion hreq'
  · intro a f rs hfl hres
    rw [hfly a hfl] at hres
    exact absurd hres (Option.some_ne_none _).symm

theorem Touched.queue_eq_none {s t : Allocator} {f : Fid} (h : Touched s f t) (hs : s.queue = none) :
    t.queue = none := by
  rcases h with rfl | ⟨d, e, fr, rfl, -⟩
  · exact hs
  · rfl

theorem Touched.allocationMap_eq {s t : Allocator} {f : Fid} (h : Touched s f t) :
    t.allocationMap = s.allocationMap := by
  rcases h with rfl | ⟨d, e, fr, rfl, -⟩ <;> rfl

/-- **An arrival that is refused.** -/
theorem Orderly.refused (h : Orderly c) (hq : c.queue = []) (f : Fid) (p : Dict Fid ActiveFunction)
    {s : Allocator} (hs : s.queue = none) (mon : Monitor) :
    Orderly { c.refused f p s with monitor := mon } := by
  obtain ⟨hi, hdrain, -, hall⟩ := h.quiet hq
  refine ⟨h.active_nodup, .inl hq, ?_, h.initiator_queue, fun _ _ hne => absurd hq hne,
    fun _ => hdrain, fun _ hne => absurd hdrain hne, fun hne => absurd hs hne, h.applied_nodup,
    h.applied_match, fun k hk => .inl (hall k hk), ?_⟩
  · intro g hg
    have hg : g ∈ c.queue := hg
    rw [hq] at hg
    exact absurd hg List.not_mem_nil
  · intro a g rs ha hr
    exact ⟨(h.inFlight a g rs ha hr).1, .inr (.inl hi)⟩

/-- **The monitor starts an arrival**, while no handler is about to resume. -/
theorem Orderly.allocate (h : Orderly c) (hq : c.queue = []) {req : Request}
    (hal : req.allocate = true) (ha : req.fid ∉ c.active)
    (hfly : ∀ a, c.inFlight = some a → a.resume = none) :
    Ends (allocate cfg req) c (fun _ c' => Orderly { c' with monitor := .waiting req })
      fun c' => Orderly { c' with monitor := .dead req } := by
  obtain ⟨hi, hdrain, hnone, -⟩ := h.quiet hq
  have hnotq : req.fid ∉ c.queue := by
    rw [hq]
    exact List.not_mem_nil
  refine (ends_allocate hnotq ha).mono ?_ ?_
  · intro _ c' hret
    cases hret with
    | refused hfun hchoice =>
        obtain ⟨d, rfl, -⟩ := (Allocator.ends_computeAllocation _ _).1 _ _ hchoice
        exact h.refused hq _ _ rfl _
    | applied hissue hr hm hplan hren =>
        obtain ⟨h₁, hp⟩ := h.issues hq hal ha hfly hissue
        refine h₁.completed hp _ _ ?_ _ _ (.waiting req)
        cases hissue
        exact hdrain
    | @waits r c₁ m hissue hr htold =>
        obtain ⟨h₁, hp⟩ := h.issues hq hal ha hfly hissue
        obtain ⟨plan, hplan, -⟩ := hissue.queue
        refine h₁.announces hp ?_ hal ?_ (fun f hf => hf) m (.inl rfl)
        · rw [hplan]
          exact Option.some_ne_none plan
        · cases hissue
          exact hfly
  · intro c' hraise
    cases hraise with
    | early hs hi' hd =>
        rw [hi] at hi'
        exact h.early hq hal ha hfly _ _ (hs.queue_eq_none hnone) hi'
    | blocked hissue hr hm => exact (h.issues hq hal ha hfly hissue).1
    | stuck hissue hr hm hplan hsw =>
        obtain ⟨h₁, hp⟩ := h.issues hq hal ha hfly hissue
        exact h₁.stuck hp _ _
    | @partway r c₁ ps rest f m hissue hr hwhy =>
        obtain ⟨h₁, hp⟩ := h.issues hq hal ha hfly hissue
        obtain ⟨plan, hplan, -⟩ := hissue.queue
        refine h₁.announces hp ?_ hal ?_ (fun k hk => ?_) m (.inr rfl)
        · rw [hplan]
          exact Option.some_ne_none plan
        · cases hissue
          exact hfly
        · rw [hr]
          rcases List.mem_append.1 hk with hk | hk
          · exact List.mem_append_left _ hk
          · exact List.mem_append_right _ (List.mem_singleton.1 hk ▸ List.mem_cons_self ..)

/-- A function leaves. -/
theorem Orderly.leaves (h : Orderly c) (f : Fid) :
    Orderly { c with active := c.active.erase f } := by
  refine ⟨h.active_nodup.erase f, h.queue_eq, fun g hg => ?_, h.initiator_queue, h.waiting, h.drained,
    h.draining, ?_, h.applied_nodup, h.applied_match, h.unapplied, h.inFlight⟩
  · exact ⟨(h.queue_new g hg).1, fun hmem => (h.queue_new g hg).2 (List.mem_of_mem_erase hmem)⟩
  · intro hplan
    obtain ⟨g, r, hp⟩ := h.pending hplan
    exact ⟨g, r, hp.initiator, hp.last, hp.drain, hp.fresh, hp.queueFid⟩

/-- **The monitor starts a departure.** -/
theorem Orderly.departs (h : Orderly c) (hq : c.queue = []) (req : Request) :
    Ends (do deallocate req.fid; leaveActive req.fid) c
      (fun _ c' => Orderly { c' with monitor := .waiting req })
      fun c' => Orderly { c' with monitor := .dead req } := by
  refine ends_bind.2 ((ends_deallocate_frame req.fid c).mono ?_ ?_)
  · intro _ c₁ h₁
    obtain ⟨sw, s, rfl, hf, hs⟩ := h₁
    have h₁ : Orderly { c with switch := sw, allocator := s } :=
      h.irrelevant sw _ _ _ _ _ _ _ _ s hf hs
    unfold leaveActive
    refine ends_bind.2 (ends_get.2 (ends_ite (fun _ => ends_modify.2 ?_) fun _ => ends_throw.2 ?_))
    · exact (h₁.leaves req.fid).moves hq _
    · exact h₁.dies (.inl hq)
  · intro c₁ h₁
    obtain ⟨sw, s, rfl, hf, hs⟩ := h₁
    exact (h.irrelevant sw _ _ _ _ _ _ _ _ s hf hs).dies (.inl hq)

/-! ### Runs -/

/-- **The monitor starts no arrival while a handler is about to resume.** -/
def NoOverlap (c : Controller) (e : Event) : Prop :=
  e = .take → ∀ req rest, c.allocationRequests = req :: rest → req.allocate = true →
    req.fid ∉ c.active → ∀ a, c.inFlight = some a → a.resume = none

theorem ends_monitorStep {req : Request} {next : Monitor} {x : EStateM Exn Controller Unit}
    {Q : Controller → Prop}
    (h : Ends x c (fun _ c' => Q { c' with monitor := next }) fun c' => Q { c' with monitor := .dead req }) :
    Ends (monitorStep req next x) c (fun _ => Q) Q := by
  unfold monitorStep
  cases hx : x c with
  | ok u c₁ =>
      refine ends_of_ok (by rw [hx]) (h.1 u c₁ hx)
  | error ex c₁ =>
      refine ends_of_error (by rw [hx]) (h.2 ex c₁ hx)

/-- What the monitor does with the request that it takes. -/
theorem ends_takeRequest {Q E : Controller → Prop} {req : Request} {rest : List Request}
    (hreq : c.allocationRequests = req :: rest)
    (halloc : req.allocate = true → req.fid ∉ c.active →
      Ends (monitorStep req (.waiting req) (allocate cfg req)) { c with allocationRequests := rest }
        (fun _ => Q) E)
    (hdealloc : Ends (monitorStep req (.waiting req) (do deallocate req.fid; leaveActive req.fid))
      { c with allocationRequests := rest } (fun _ => Q) E)
    (hskip : Q { c with allocationRequests := rest }) :
    Ends (takeRequest cfg) c (fun _ => Q) E := by
  by_cases ha : req.allocate = true ∧ req.fid ∉ c.active
  · have heq : takeRequest cfg c = monitorStep req (.waiting req) (allocate cfg req)
        { c with allocationRequests := rest } := by
      simp only [takeRequest, hreq, if_pos ha]
    refine ⟨fun u t ht => ?_, fun ex t ht => ?_⟩
    · exact (halloc ha.1 ha.2).1 u t (heq.symm.trans ht)
    · exact (halloc ha.1 ha.2).2 ex t (heq.symm.trans ht)
  · by_cases hd : ¬req.allocate = true ∧ req.fid ∈ c.active
    · have heq : takeRequest cfg c = monitorStep req (.waiting req)
          (do deallocate req.fid; leaveActive req.fid) { c with allocationRequests := rest } := by
        simp only [takeRequest, hreq, if_neg ha, if_pos hd]
      refine ⟨fun u t ht => ?_, fun ex t ht => ?_⟩
      · exact hdealloc.1 u t (heq.symm.trans ht)
      · exact hdealloc.2 ex t (heq.symm.trans ht)
    · have heq : takeRequest cfg c = .ok () { c with allocationRequests := rest } := by
        simp only [takeRequest, hreq, if_neg ha, if_neg hd]
      exact ends_of_ok heq hskip

/-- **The monitor takes a request.** -/
theorem Orderly.takeRequest (h : Orderly c) (hm : c.monitor = .idle) (hover : NoOverlap c .take) :
    Ends (takeRequest cfg) c (fun _ => Orderly) Orderly := by
  have hq := h.queue_of_idle hm
  cases hreq : c.allocationRequests with
  | nil => exact ends_of_ok (a := ()) (t := c) (by simp only [Controller.takeRequest, hreq]) h
  | cons req rest =>
      have h₁ : Orderly { c with allocationRequests := rest } :=
        h.irrelevant _ _ _ _ _ rest _ _ _ _ rfl rfl
      refine ends_takeRequest hreq (fun hal ha => ?_) ?_ h₁
      · exact ends_monitorStep (h₁.allocate hq hal ha (hover rfl req rest hreq hal ha))
      · exact ends_monitorStep (h₁.departs hq req)

/-- **One step keeps the invariant**, whether or not it raises an exception. -/
theorem Orderly.step {e : Event} (h : Orderly c) (hreset : e ≠ .reset) (hover : NoOverlap c e)
    (hstep : Step cfg c e c') : Orderly c' := by
  obtain ⟨hen, hperform⟩ := hstep
  suffices hends : Ends (perform cfg e) c (fun _ => Orderly) Orderly by
    rcases hperform with ⟨u, hu⟩ | ⟨ex, hex⟩
    · exact hends.1 u c' hu
    · exact hends.2 ex c' hex
  cases e with
  | malloc d =>
      show Ends (onMallocRequest d) c (fun _ => Orderly) Orderly
      unfold onMallocRequest
      refine ends_modify.2 ?_
      dsimp only
      split_ifs
      all_goals first
        | exact h
        | exact h.irrelevant _ _ _ _ _ _ _ _ _ _ rfl rfl
  | remapAck d =>
      show Ends (onRemapAck cfg d) c (fun _ => Orderly) Orderly
      unfold onRemapAck
      refine ends_bind.2 ((h.readAck d).mono ?_ fun _ h => h)
      intro a c₁ h₁
      cases a with
      | none => exact ends_pure.2 h₁.1
      | some a => exact h₁.1.finishAck fun f r hr => h₁.2.2 a f r rfl hr
  | ackRead d =>
      refine ends_bind.2 ((h.readAck d).mono ?_ fun _ h => h)
      intro a c₁ h₁
      exact ends_modify.2 (h₁.1.flies h₁.2.2)
  | ackFinish =>
      obtain ⟨a, ha⟩ := Option.ne_none_iff_exists'.1 hen
      have heq : perform cfg .ackFinish c =
          Controller.finishAck cfg a { c with inFlight := none } := by
        simp only [perform, ha]
      have hnone : Orderly { c with inFlight := none } :=
        h.flies fun b _ _ hb => absurd hb (Option.some_ne_none b).symm
      have hends : Ends (Controller.finishAck cfg a) { c with inFlight := none }
          (fun _ => Orderly) Orderly := hnone.finishAck fun f r hr => h.inFlight a f r ha hr
      exact ⟨fun u t ht => hends.1 u t (heq.symm.trans ht),
        fun ex t ht => hends.2 ex t (heq.symm.trans ht)⟩
  | take => exact h.takeRequest hen.1 hover
  | timeout =>
      obtain ⟨req, hm, hreq⟩ := hen
      have heq : perform cfg .timeout c =
          monitorStep req (.leaving req) (Controller.onTimeout cfg) c := by
        simp only [perform, hm]
      have hends : Ends (monitorStep req (.leaving req) (Controller.onTimeout cfg)) c
          (fun _ => Orderly) Orderly := ends_monitorStep (h.onTimeout hm hreq)
      exact ⟨fun u t ht => hends.1 u t (heq.symm.trans ht),
        fun ex t ht => hends.2 ex t (heq.symm.trans ht)⟩
  | finish =>
      obtain ⟨req, hreq⟩ := hen
      have hcur : c.monitor.current = some req := by
        rcases hreq with ⟨hm, -⟩ | hm <;> rw [hm] <;> rfl
      have hdone : c.queue = [] := by
        refine h.queue_eq.resolve_right ?_
        rintro ⟨req', hm', -, hq⟩
        rcases hreq with ⟨hm, hnot⟩ | hm
        · obtain rfl : req = req' := current_inj (.inl hm) hm'
          rw [hq] at hnot
          exact hnot (List.mem_singleton_self _)
        · rw [hm] at hm'
          rcases hm' with hm' | hm' <;> exact Monitor.noConfusion hm'
      have heq : perform cfg .finish c =
          .ok () { c with enqueued := c.enqueued.erase req.fid, monitor := .idle } := by
        simp only [perform, hcur]
        rfl
      exact ends_of_ok heq
        ((h.moves hdone .idle).irrelevant _ _ _ _ (c.enqueued.erase req.fid) _ _ _ _ _ rfl rfl)
  | reset => exact absurd rfl hreset

/-- **A step of a run in which the monitor starts no arrival while a handler is about to resume**, and
without a reset.  It may raise an exception. -/
def Undisturbed (cfg : ControllerConfig) (c : Controller) (e : Event) (c' : Controller) : Prop :=
  e ≠ .reset ∧ NoOverlap c e ∧ Step cfg c e c'

theorem orderly_of_run {es : List Event} (h : Run (Undisturbed cfg) (init cfg) es c) : Orderly c := by
  refine h.invariant (fun c₁ e c₂ h₁ hstep => ?_) (orderly_init cfg)
  obtain ⟨hreset, hover, hstep⟩ := hstep
  exact h₁.step hreset hover hstep

/-- **Every allocation is applied once, as it was queued.** -/
theorem resumed_once {es : List Event} (h : Run (Undisturbed cfg) (init cfg) es c) :
    (c.applied.map Prod.fst).Nodup ∧ (∀ p ∈ c.applied, c.issued[p.1]? = some p.2) ∧
      (c.monitor = .idle → ∀ k < c.issued.length, k ∈ c.applied.map Prod.fst) ∧ c.active.Nodup := by
  have ho := orderly_of_run h
  exact ⟨ho.applied_nodup, ho.applied_match, fun hm => (ho.quiet (ho.queue_of_idle hm)).2.2.2,
    ho.active_nodup⟩

theorem undisturbed_of_execute {es : List Event} (hes : ∀ e ∈ es, e ≠ .reset ∧ e ≠ .take)
    (h : execute cfg es c = some c') : Run (Undisturbed cfg) c es c' := by
  have hrun := run_of_execute cfg h
  clear h
  induction hrun with
  | nil => exact .nil _
  | @snoc _ _ _ e _ hstep ih =>
      refine .snoc (ih fun e he => hes e (List.mem_append_left _ he)) ?_
      obtain ⟨hreset, htake⟩ := hes e (List.mem_append_right _ (List.mem_singleton.2 rfl))
      exact ⟨hreset, fun he => absurd he htake, hstep.1, .inl hstep.2⟩

/-- The monitor may take a request when no handler holds the lock. -/
theorem undisturbed_take (hfly : c.inFlight = none) (h : execute cfg [.take] c = some c') :
    Run (Undisturbed cfg) c [.take] c' := by
  have hstep : StepOk cfg c .take c' := by
    unfold execute at h
    split_ifs at h with he
    refine ⟨enabled_of_eq_true he, ?_⟩
    cases hp : perform cfg .take c with
    | error ex c₁ =>
        rw [hp] at h
        exact absurd h (Option.some_ne_none c').symm
    | ok u c₁ =>
        rw [hp] at h
        exact ⟨u, congrArg _ (Option.some.inj h)⟩
  refine Run.single ⟨Event.noConfusion, fun _ _ _ _ _ _ a ha => ?_, hstep.1, .inl hstep.2⟩
  exact absurd (hfly.symm.trans ha) (Option.some_ne_none a).symm

/-- The second of two functions moves the first one, which acknowledges. -/
theorem resumed_once_round : ∃ es c, Run (Undisturbed smallConfig) (init smallConfig) es c ∧
    c.issued.length = 2 ∧ (c.applied.map Prod.fst).Nodup ∧
    (∀ p ∈ c.applied, c.issued[p.1]? = some p.2) ∧
    (∀ k < c.issued.length, k ∈ c.applied.map Prod.fst) ∧ c.active.Nodup := by
  have hcheck : ((execute smallConfig [.malloc (arrival 1 1)] (init smallConfig)).any fun c₁ =>
      decide (c₁.inFlight = none) && (execute smallConfig [.take] c₁).any fun c₂ =>
      (execute smallConfig [.finish, .malloc (arrival 2 2)] c₂).any fun c₃ =>
      decide (c₃.inFlight = none) && (execute smallConfig [.take] c₃).any fun c₄ =>
      (execute smallConfig [.remapAck (acknowledgement 1), .finish] c₄).any fun c₅ =>
      decide (c₅.issued.length = 2 ∧ c₅.monitor = .idle)) = true := by decide +kernel
  obtain ⟨c₁, h₁, hcheck⟩ := (Option.any_eq_true _ _).1 hcheck
  rw [Bool.and_eq_true, decide_eq_true_eq] at hcheck
  obtain ⟨c₂, h₂, hcheck₂⟩ := (Option.any_eq_true _ _).1 hcheck.2
  obtain ⟨c₃, h₃, hcheck₃⟩ := (Option.any_eq_true _ _).1 hcheck₂
  rw [Bool.and_eq_true, decide_eq_true_eq] at hcheck₃
  obtain ⟨c₄, h₄, hcheck₄⟩ := (Option.any_eq_true _ _).1 hcheck₃.2
  obtain ⟨c₅, h₅, hcheck₅⟩ := (Option.any_eq_true _ _).1 hcheck₄
  rw [decide_eq_true_eq] at hcheck₅
  have hrun := ((((undisturbed_of_execute (by decide) h₁).append
    (undisturbed_take hcheck.1 h₂)).append (undisturbed_of_execute (by decide) h₃)).append
    (undisturbed_take hcheck₃.1 h₄)).append (undisturbed_of_execute (by decide) h₅)
  obtain ⟨hn, hmatch, hall, hact⟩ := resumed_once hrun
  exact ⟨_, c₅, hrun, hcheck₅.1, hn, hmatch, hall hcheck₅.2, hact⟩

/-- A handler has read the round of an arrival of 2, and is overtaken by the timeout, the departure of
2 and its next arrival, which it then resumes with the remaps of the first one. -/
theorem resumed_with_stale_remaps : ∃ es c, (∀ e ∈ es, e ≠ .reset) ∧
    Run (StepOk smallConfig) (init smallConfig) es c ∧ ∃ p ∈ c.applied, c.issued[p.1]? ≠ some p.2 := by
  have hcheck : ((execute smallConfig
      [.malloc (arrival 1 1), .take, .finish, .malloc (arrival 2 2), .take,
        .ackRead (acknowledgement 1), .timeout, .finish, .malloc (departure 2), .take, .finish,
        .malloc (arrival 2 3), .take, .ackFinish] (init smallConfig)).any fun c =>
      c.applied.any fun p => decide (c.issued[p.1]? ≠ some p.2)) = true := by decide +kernel
  obtain ⟨c, hc, hany⟩ := (Option.any_eq_true _ _).1 hcheck
  obtain ⟨p, hp, hne⟩ := List.any_eq_true.1 hany
  exact ⟨_, c, by decide, run_of_execute smallConfig hc, p, hp, of_decide_eq_true hne⟩

end Controller

end ActiveRmt
