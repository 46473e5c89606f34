/-
**Requests and the set of those who wait.**

A function that has asked for something is listed in `enqueued` until the monitor has finished its
request, and whoever is listed is ignored when it asks for an allocation.  The handler lists it, one
place of the monitor loop removes it, and a request that is skipped because it is out of date does not
pass this place.

Main definitions:

* `Controller.pending` — the request of the monitor and those that wait;
* `Controller.Booked` — a function is listed once, exactly while it has a request;
* `Controller.Prompt` — nobody asks to leave twice, and no request is out of date.

Main results:

* `Controller.booked_resumeAllocation`, `Controller.booked_allocate`, … — the handlers leave the requests
  alone;
* `Controller.enqueued_iff_pending` — **who is listed has a request**;
* `Controller.locked_out` — a skipped request leaves its function listed.
-/

import ActiveRmt.Versions

set_option relaxedAutoImplicit false
set_option autoImplicit false

namespace ActiveRmt

open Allocator (Remaps)

namespace Controller

variable {cfg : ControllerConfig} {c c' : Controller}

/-! ### What the handlers leave alone -/

/-- The requests and who waits. -/
def bookkeeping (c : Controller) : Finset Fid × List Request × Monitor :=
  (c.enqueued, c.allocationRequests, c.monitor)

section Quiet

theorem booked_onAllocator {α : Type} (x : EStateM Exn Allocator α) :
    Leaves bookkeeping (onAllocator x) := fun _ =>
  ends_onAllocator.2 (ends_of_forall (fun _ _ => rfl) fun _ => rfl)

theorem booked_onSwitch {α : Type} (x : EStateM Exn Switch α) : Leaves bookkeeping (onSwitch x) := fun _ =>
  ends_onSwitch.2 (ends_of_forall (fun _ _ => rfl) fun _ => rfl)

/-- An exception leaves everything alone, whatever would come next. -/
theorem booked_throw_bind {α β : Type} {ex : Exn} (f : α → EStateM Exn Controller β) :
    Leaves bookkeeping (throw ex >>= f) := fun _ => ends_bind.2 (ends_throw.2 rfl)

/-- A change of other fields. -/
theorem booked_modify {h : Controller → Controller} (hh : ∀ c, bookkeeping (h c) = bookkeeping c) :
    Leaves bookkeeping (modify h : EStateM Exn Controller PUnit) := Leaves.modify hh

theorem booked_leaveQueue (f : Fid) : Leaves bookkeeping (leaveQueue f) :=
  Leaves.get.bind fun _ => Leaves.ite (booked_modify fun _ => rfl) Leaves.throw

theorem booked_leaveActive (f : Fid) : Leaves bookkeeping (leaveActive f) :=
  Leaves.get.bind fun _ => Leaves.ite (booked_modify fun _ => rfl) Leaves.throw

theorem booked_popAllocTiming (f : Fid) : Leaves bookkeeping (popAllocTiming f) :=
  Leaves.get.bind fun _ => Leaves.ite (booked_modify fun _ => rfl) Leaves.throw

theorem booked_popDrainQueue (f : Fid) : Leaves bookkeeping (popDrainQueue f) :=
  Leaves.get.bind fun _ => Leaves.ite (booked_modify fun _ => rfl) Leaves.throw

theorem booked_dropPeer (f : Fid) : Leaves bookkeeping (dropPeer f) := by
  refine Leaves.bind (booked_modify fun _ => rfl) fun _ => Leaves.bind Leaves.get fun _ => ?_
  exact Leaves.ite (Leaves.bind (booked_onSwitch _) fun _ => booked_modify fun _ => rfl) Leaves.pure

theorem booked_queuePeer (r : Remaps) (f : Fid) : Leaves bookkeeping (queuePeer r f) := by
  refine Leaves.bind (booked_modify fun _ => rfl) fun _ => Leaves.bind Leaves.get fun c => ?_
  cases c.allocVersion.get? f with
  | none => exact Leaves.throw
  | some v => exact booked_onSwitch _

theorem booked_renewVersion (f : Fid) : Leaves bookkeeping (renewVersion f) := by
  refine Leaves.bind Leaves.get fun c => ?_
  cases c.allocVersion.get? f with
  | none => exact Leaves.throw
  | some v => exact Leaves.bind (booked_modify fun _ => rfl) fun _ => booked_onSwitch _

/-- **The tables after an allocation.** -/
theorem booked_updateAllocation (f : Fid) (allocation : Dict Stage (List ℕ)) (r : Remaps) :
    Leaves bookkeeping (updateAllocation cfg f allocation r) :=
  (booked_onSwitch _).bind fun _ => (booked_onSwitch _).bind fun _ => (booked_onSwitch _).bind fun _ =>
    (Leaves.forM fun f _ => booked_renewVersion f).bind fun _ => booked_onSwitch _

theorem booked_applyQueuedAllocation (f : Fid) (r : Remaps) :
    Leaves bookkeeping (applyQueuedAllocation f r) :=
  (booked_onAllocator _).bind fun _ => Leaves.ite (booked_modify fun _ => rfl) Leaves.pure

theorem booked_publishVersion (f : Fid) : Leaves bookkeeping (publishVersion f) := by
  refine Leaves.get.bind fun _ => ?_
  dsimp only
  exact Leaves.bind (booked_modify fun _ => rfl) fun _ => booked_onSwitch _

/-- **Applying a queued allocation.** -/
theorem booked_resumeAllocation (f : Fid) (r : Remaps) : Leaves bookkeeping (resumeAllocation cfg f r) := by
  have hcomplete : Leaves bookkeeping (completeAllocation cfg f r) := by
    refine (booked_applyQueuedAllocation f r).bind fun _ => Leaves.get.bind fun c => ?_
    refine (booked_updateAllocation f _ r).bind fun _ => (booked_onSwitch _).bind fun _ => ?_
    refine (booked_publishVersion f).bind fun _ => Leaves.bind (booked_modify fun _ => rfl) fun _ => ?_
    exact (booked_leaveQueue f).bind fun _ => (booked_popAllocTiming f).bind fun _ =>
      booked_modify fun _ => rfl
  refine Leaves.get.bind fun _ => Leaves.ite (booked_throw_bind _) ?_
  refine Leaves.get.bind fun _ => Leaves.ite Leaves.pure ?_
  exact Leaves.bind (booked_modify fun _ => rfl) fun _ => hcomplete

theorem booked_refuse (f : Fid) : Leaves bookkeeping (refuse f) :=
  (booked_onSwitch _).bind fun _ => (booked_leaveQueue f).bind fun _ => booked_modify fun _ => rfl

theorem booked_startAllocation (f : Fid) (ch : Allocator.Choice) :
    Leaves bookkeeping (startAllocation cfg f ch) := by
  refine (booked_onAllocator _).bind fun ⟨changes, remaps, _⟩ => ?_
  dsimp only
  refine Leaves.bind (booked_modify fun _ => rfl) fun _ => ?_
  refine Leaves.ite (booked_resumeAllocation f _) (Leaves.bind (booked_modify fun _ => rfl) fun _ => ?_)
  exact Leaves.forM fun f _ => booked_queuePeer _ f

/-- **A request for an allocation.** -/
theorem booked_allocate (req : Request) : Leaves bookkeeping (allocate cfg req) := by
  refine Leaves.get.bind fun _ => Leaves.get.bind fun _ => Leaves.ite Leaves.pure ?_
  have hbegin : Leaves bookkeeping (beginAllocation req.fid) :=
    Leaves.bind (booked_modify fun _ => rfl) fun _ => booked_onSwitch _
  refine hbegin.bind fun _ => ?_
  cases activeFunction cfg req with
  | error ex => exact Leaves.throw
  | ok af =>
      dsimp only
      refine Leaves.bind (booked_modify fun _ => rfl) fun _ => (booked_onAllocator _).bind fun ch => ?_
      cases ch with
      | none => exact booked_refuse _
      | some ch =>
          refine Leaves.ite (booked_startAllocation _ ch) (Leaves.ite (booked_refuse _) ?_)
          exact Leaves.bind (booked_modify fun _ => rfl) fun _ => Leaves.throw

/-- **A departure.** -/
theorem booked_deallocate (f : Fid) : Leaves bookkeeping (deallocate f) := by
  refine Leaves.get.bind fun _ => Leaves.ite ((booked_onSwitch _).bind fun b => ?_) Leaves.pure
  exact Leaves.ite ((booked_onAllocator _).bind fun _ => Leaves.pure) Leaves.pure

/-- **A reset.** -/
theorem booked_resetAllocation : Leaves bookkeeping resetAllocation := by
  refine Leaves.get.bind fun _ => Leaves.ite (booked_throw_bind _) ?_
  refine Leaves.bind (booked_modify fun _ => rfl) fun _ => Leaves.get.bind fun c => ?_
  refine (Leaves.forM fun f _ => booked_deallocate f).bind fun _ => ?_
  exact Leaves.bind (booked_modify fun _ => rfl) fun _ => booked_modify fun _ => rfl

theorem booked_readAck (d : RemapDigest) : Leaves bookkeeping (readAck d) := by
  intro c
  refine (ends_readAck d c).mono ?_ ?_
  · intro a c' h
    rcases h with ⟨-, I, m, rfl, -⟩ | ⟨rs, m, -, -, -, -, -, rfl, -⟩ <;> rfl
  · intro c' h
    obtain ⟨⟨I, T, m, rfl⟩, -⟩ := h
    rfl

theorem booked_finishAck (a : Ack) : Leaves bookkeeping (finishAck cfg a) := by
  unfold finishAck
  cases a.resume with
  | none => exact booked_popDrainQueue a.fid
  | some p => exact (booked_resumeAllocation p.1 p.2).bind fun _ => booked_popDrainQueue a.fid

theorem booked_onRemapAck (d : RemapDigest) : Leaves bookkeeping (onRemapAck cfg d) := by
  refine (booked_readAck d).bind fun a => ?_
  cases a with
  | none => exact Leaves.pure
  | some a => exact booked_finishAck a

/-- **The timeout.** -/
theorem booked_onTimeout : Leaves bookkeeping (onTimeout cfg) := by
  refine Leaves.get.bind fun _ => Leaves.ite (booked_throw_bind _) ?_
  refine Leaves.get.bind fun c => ?_
  cases c.remaps with
  | none => exact Leaves.throw
  | some r =>
      refine (Leaves.forM fun f _ => booked_dropPeer f).bind fun _ => Leaves.get.bind fun c => ?_
      cases c.remoteDrainInitiator with
      | some f => exact booked_resumeAllocation f r
      | none =>
          refine Leaves.get.bind fun _ => Leaves.ite (booked_throw_bind _) ?_
          exact Leaves.bind (booked_modify fun _ => rfl) fun _ => Leaves.throw

end Quiet

/-! ### Who is listed -/

section Listed

/-- The request of the monitor, and those that wait. -/
def pending (c : Controller) : List Request := c.monitor.current.toList ++ c.allocationRequests

theorem mem_pending {c : Controller} {req : Request} :
    req ∈ c.pending ↔ c.monitor.current = some req ∨ req ∈ c.allocationRequests := by
  simp [pending]

/-- **A function is listed while it has a request, and has one at most.** -/
structure Booked (c : Controller) : Prop where
  listed : ∀ f, f ∈ c.enqueued ↔ f ∈ c.pending.map (·.fid)
  nodup : (c.pending.map (·.fid)).Nodup

theorem Booked.congr (h : c.Booked) (henqueued : c'.enqueued = c.enqueued)
    (hpending : c'.pending = c.pending) : c'.Booked := by
  constructor
  · rw [henqueued, hpending]
    exact h.listed
  · rw [hpending]
    exact h.nodup

theorem Booked.of_bookkeeping (h : c.Booked) (hc : bookkeeping c' = bookkeeping c) : c'.Booked := by
  simp only [bookkeeping, Prod.mk.injEq] at hc
  obtain ⟨henqueued, hrequests, hmonitor⟩ := hc
  exact h.congr henqueued (by rw [pending, pending, hrequests, hmonitor])

/-- **Nobody asks to leave twice, and no request is out of date**: a function that has a request does not
ask for its departure, and the monitor takes an arrival of a function that is not active or a departure of
one that is. -/
def Prompt (c : Controller) : Event → Prop
  | .malloc d => d.fid ≠ resetFid → d.request.allocate = false → d.fid ∈ c.active → d.fid ∉ c.enqueued
  | .take => ∀ req ∈ c.allocationRequests.head?, req.allocate = true ↔ req.fid ∉ c.active
  | .remapAck _ | .ackRead _ | .ackFinish | .timeout | .finish | .reset => True

instance (c : Controller) (e : Event) : Decidable (c.Prompt e) :=
  match e with
  | .malloc _ => inferInstanceAs (Decidable (_ → _ → _ → _))
  | .take => decidable_of_iff
      ((c.allocationRequests.head?.all fun req => decide (req.allocate = true ↔ req.fid ∉ c.active)) = true)
      (by
        unfold Prompt
        cases c.allocationRequests.head? with
        | none => simp
        | some req => simp only [Option.all_some, decide_eq_true_eq, Option.mem_some_iff, forall_eq'])
  | .remapAck _ | .ackRead _ | .ackFinish | .timeout | .finish | .reset => .isTrue trivial

/-- A program that leaves the requests alone keeps the books. -/
theorem Booked.of_leaves {x : EStateM Exn Controller Unit} (h : c.Booked) (hx : Leaves bookkeeping x)
    (hc : (∃ u, x c = .ok u c') ∨ ∃ ex, x c = .error ex c') : c'.Booked := by
  rcases hc with ⟨u, hu⟩ | ⟨ex, hex⟩
  · exact h.of_bookkeeping ((hx c).1 u c' hu)
  · exact h.of_bookkeeping ((hx c).2 ex c' hex)

/-- **A part of the monitor loop** keeps the request that it works on. -/
theorem bookkeeping_monitorStep {x : EStateM Exn Controller Unit} (hx : Leaves bookkeeping x)
    {req : Request} {next : Monitor} (hnext : next.current = some req)
    (hc : (∃ u, monitorStep req next x c = .ok u c') ∨ ∃ ex, monitorStep req next x c = .error ex c') :
    c'.enqueued = c.enqueued ∧ c'.allocationRequests = c.allocationRequests ∧
      c'.monitor.current = some req := by
  unfold monitorStep at hc
  cases h : x c with
  | ok u c₁ =>
      have hbook := (hx c).1 u c₁ h
      simp only [bookkeeping, Prod.mk.injEq] at hbook
      rw [h] at hc
      rcases hc with ⟨u, hu⟩ | ⟨ex, hex⟩
      · obtain ⟨-, rfl⟩ := EStateM.Result.ok.inj hu
        exact ⟨hbook.1, hbook.2.1, hnext⟩
      · cases hex
  | error ex c₁ =>
      have hbook := (hx c).2 ex c₁ h
      simp only [bookkeeping, Prod.mk.injEq] at hbook
      rw [h] at hc
      rcases hc with ⟨u, hu⟩ | ⟨ex, hex⟩
      · cases hu
      · obtain ⟨-, rfl⟩ := EStateM.Result.error.inj hex
        exact ⟨hbook.1, hbook.2.1, rfl⟩

/-- **A malloc digest.** -/
theorem Booked.malloc (h : c.Booked) {d : MallocDigest} (hprompt : c.Prompt (.malloc d))
    (hc : (∃ u, onMallocRequest d c = .ok u c') ∨ ∃ ex, onMallocRequest d c = .error ex c') :
    c'.Booked := by
  rcases hc with ⟨u, hu⟩ | ⟨ex, hex⟩
  · obtain ⟨-, rfl⟩ := EStateM.Result.ok.inj hu
    dsimp only
    split_ifs with hreset hignored hgone
    · exact h.of_bookkeeping rfl
    · exact h
    · exact h
    · -- the function had no request
      have hnew : d.fid ∉ c.enqueued := by
        by_cases halloc : d.request.allocate = true
        · exact fun hmem => hignored ⟨Or.inr hmem, halloc⟩
        · rw [Bool.not_eq_true] at halloc
          refine hprompt hreset halloc (not_not.1 fun hactive => hgone ⟨hactive, ?_⟩)
          rw [halloc]
          exact Bool.false_ne_true
      have hfid : d.request.fid = d.fid := rfl
      have hpending : (Controller.pending { c with
          allocationRequests := c.allocationRequests ++ [d.request]
          enqueued := insert d.fid c.enqueued }).map (·.fid) = c.pending.map (·.fid) ++ [d.fid] := by
        simp only [pending, List.map_append, List.append_assoc, List.map_cons, List.map_nil, hfid]
      constructor
      · intro f
        rw [hpending, Finset.mem_insert, h.listed, List.mem_append, List.mem_singleton, or_comm]
      · rw [hpending]
        refine List.nodup_append.2 ⟨h.nodup, List.nodup_singleton _, ?_⟩
        intro f hf g hg hfg
        rw [List.mem_singleton.1 hg] at hfg
        exact hnew ((h.listed d.fid).2 (hfg ▸ hf))
  · cases hex

/-- **The monitor takes a request** that is not out of date. -/
theorem Booked.take (h : c.Booked) (hidle : c.monitor = .idle) (hprompt : c.Prompt .take)
    (hc : (∃ u, takeRequest cfg c = .ok u c') ∨ ∃ ex, takeRequest cfg c = .error ex c') : c'.Booked := by
  unfold takeRequest at hc
  cases hrequests : c.allocationRequests with
  | nil =>
      simp only [hrequests] at hc
      rcases hc with ⟨u, hu⟩ | ⟨ex, hex⟩
      · obtain ⟨-, rfl⟩ := EStateM.Result.ok.inj hu
        exact h
      · cases hex
  | cons req rest =>
      have hdate := hprompt req (by rw [hrequests]; rfl)
      -- the request is taken, and becomes the one of the monitor
      have hkeep : ∀ {x : EStateM Exn Controller Unit}, Leaves bookkeeping x →
          ((∃ u, monitorStep req (.waiting req) x { c with allocationRequests := rest } = .ok u c') ∨
            ∃ ex, monitorStep req (.waiting req) x { c with allocationRequests := rest } =
              .error ex c') → c'.Booked := by
        intro x hx hstep
        obtain ⟨henqueued, hrest, hcurrent⟩ := bookkeeping_monitorStep hx rfl hstep
        refine h.congr henqueued ?_
        rw [pending, pending, hcurrent, hrest, hrequests, hidle]
        rfl
      simp only [hrequests] at hc
      by_cases hactive : req.fid ∈ c.active
      · have halloc : ¬ req.allocate = true := fun halloc => hdate.1 halloc hactive
        rw [if_neg fun hn => halloc hn.1, if_pos ⟨halloc, hactive⟩] at hc
        exact hkeep ((booked_deallocate _).bind fun _ => booked_leaveActive _) hc
      · rw [if_pos ⟨hdate.2 hactive, hactive⟩] at hc
        exact hkeep (booked_allocate req) hc

/-- **The monitor finishes its request.** -/
theorem Booked.finish (h : c.Booked) {req : Request} (hcurrent : c.monitor.current = some req) :
    Booked { c with enqueued := c.enqueued.erase req.fid, monitor := .idle } := by
  have hpending : c.pending = req :: c.allocationRequests := by
    rw [pending, hcurrent]
    rfl
  have hnodup := h.nodup
  rw [hpending, List.map_cons, List.nodup_cons] at hnodup
  constructor
  · intro f
    rw [Finset.mem_erase, h.listed, hpending, List.map_cons, List.mem_cons]
    constructor
    · exact fun hf => hf.2.resolve_left hf.1
    · exact fun hf => ⟨fun hreq => hnodup.1 (hreq ▸ hf), Or.inr hf⟩
  · exact hnodup.2

/-- A program that leaves the books alone leaves the requests alone. -/
theorem requests_of_leaves {x : EStateM Exn Controller Unit} (hx : Leaves bookkeeping x)
    (hc : (∃ u, x c = .ok u c') ∨ ∃ ex, x c = .error ex c') :
    c'.allocationRequests = c.allocationRequests := by
  rcases hc with ⟨u, hu⟩ | ⟨ex, hex⟩
  · exact congrArg (fun b => b.2.1) ((hx c).1 u c' hu)
  · exact congrArg (fun b => b.2.1) ((hx c).2 ex c' hex)

/-- **Where requests come from**: from the digests. -/
theorem mem_requests_of_step {e : Event} (hstep : Step cfg c e c') {req : Request}
    (hreq : req ∈ c'.allocationRequests) :
    req ∈ c.allocationRequests ∨ ∃ d, e = .malloc d ∧ req = d.request := by
  obtain ⟨henabled, hc⟩ := hstep
  cases e with
  | malloc d =>
      rcases hc with ⟨u, hu⟩ | ⟨ex, hex⟩
      · obtain ⟨-, rfl⟩ := EStateM.Result.ok.inj hu
        dsimp only at hreq
        split_ifs at hreq
        · exact Or.inl hreq
        · exact Or.inl hreq
        · exact Or.inl hreq
        · rcases List.mem_append.1 hreq with hreq | hreq
          · exact Or.inl hreq
          · exact Or.inr ⟨d, rfl, List.mem_singleton.1 hreq⟩
      · cases hex
  | remapAck d => exact Or.inl (requests_of_leaves (booked_onRemapAck d) hc ▸ hreq)
  | ackRead d =>
      have hread : Leaves bookkeeping (perform cfg (.ackRead d)) :=
        (booked_readAck d).bind fun _ => booked_modify fun _ => rfl
      exact Or.inl (requests_of_leaves hread hc ▸ hreq)
  | ackFinish =>
      unfold perform at hc
      dsimp only at hc
      cases ha : c.inFlight with
      | none => exact absurd ha henabled
      | some a =>
          rw [ha] at hc
          have hsame := requests_of_leaves (booked_finishAck a) hc
          exact Or.inl (hsame ▸ hreq)
  | take =>
      unfold perform takeRequest at hc
      cases hrequests : c.allocationRequests with
      | nil => exact absurd hrequests henabled.2
      | cons head rest =>
          refine Or.inl (List.mem_cons_of_mem head ?_)
          simp only [hrequests] at hc
          split_ifs at hc
          · have hsame : c'.allocationRequests = rest :=
              (bookkeeping_monitorStep (booked_allocate head) rfl hc).2.1
            rwa [hsame] at hreq
          · have hleave : Leaves bookkeeping (do deallocate head.fid; leaveActive head.fid) :=
              (booked_deallocate _).bind fun _ => booked_leaveActive _
            have hsame : c'.allocationRequests = rest := (bookkeeping_monitorStep hleave rfl hc).2.1
            rwa [hsame] at hreq
          · rcases hc with ⟨u, hu⟩ | ⟨ex, hex⟩
            · obtain ⟨-, rfl⟩ := EStateM.Result.ok.inj hu
              exact hreq
            · cases hex
  | timeout =>
      obtain ⟨head, hmonitor, -⟩ := henabled
      unfold perform at hc
      dsimp only at hc
      rw [hmonitor] at hc
      exact Or.inl ((bookkeeping_monitorStep booked_onTimeout rfl hc).2.1 ▸ hreq)
  | finish =>
      unfold perform at hc
      dsimp only at hc
      cases hcurrent : c.monitor.current with
      | none =>
          rw [hcurrent] at hc
          rcases hc with ⟨u, hu⟩ | ⟨ex, hex⟩
          · obtain ⟨-, rfl⟩ := EStateM.Result.ok.inj hu
            exact Or.inl hreq
          · cases hex
      | some head =>
          rw [hcurrent] at hc
          rcases hc with ⟨u, hu⟩ | ⟨ex, hex⟩
          · obtain ⟨-, rfl⟩ := EStateM.Result.ok.inj hu
            exact Or.inl hreq
          · cases hex
  | reset =>
      have hsame := requests_of_leaves booked_resetAllocation hc
      exact Or.inl (hsame ▸ hreq)

/-- **A step keeps the books.** -/
theorem Booked.step (h : c.Booked) {e : Event} (hstep : Step cfg c e c') (hprompt : c.Prompt e) :
    c'.Booked := by
  obtain ⟨henabled, hc⟩ := hstep
  cases e with
  | malloc d => exact h.malloc hprompt hc
  | remapAck d => exact h.of_leaves (booked_onRemapAck d) hc
  | ackRead d =>
      have hread : Leaves bookkeeping (perform cfg (.ackRead d)) :=
        (booked_readAck d).bind fun _ => booked_modify fun _ => rfl
      exact h.of_leaves hread hc
  | ackFinish =>
      unfold perform at hc
      dsimp only at hc
      cases ha : c.inFlight with
      | none => exact absurd ha henabled
      | some a =>
          rw [ha] at hc
          have h' : Booked { c with inFlight := none } := h.of_bookkeeping rfl
          exact h'.of_leaves (booked_finishAck a) hc
  | take => exact h.take henabled.1 hprompt hc
  | timeout =>
      obtain ⟨req, hmonitor, -⟩ := henabled
      unfold perform at hc
      dsimp only at hc
      rw [hmonitor] at hc
      obtain ⟨henqueued, hrest, hcurrent⟩ := bookkeeping_monitorStep booked_onTimeout rfl hc
      exact h.congr henqueued (by rw [pending, pending, hcurrent, hrest, hmonitor]; rfl)
  | finish =>
      unfold perform at hc
      dsimp only at hc
      cases hcurrent : c.monitor.current with
      | none =>
          rw [hcurrent] at hc
          rcases hc with ⟨u, hu⟩ | ⟨ex, hex⟩
          · obtain ⟨-, rfl⟩ := EStateM.Result.ok.inj hu
            exact h
          · cases hex
      | some req =>
          rw [hcurrent] at hc
          rcases hc with ⟨u, hu⟩ | ⟨ex, hex⟩
          · obtain ⟨-, rfl⟩ := EStateM.Result.ok.inj hu
            exact h.finish hcurrent
          · cases hex
  | reset =>
      have h' : Booked { c with resetThreads := c.resetThreads - 1 } := h.of_bookkeeping rfl
      exact h'.of_leaves booked_resetAllocation hc

theorem booked_init : (init cfg).Booked :=
  ⟨fun f => by simp [init, pending, Monitor.current], List.nodup_nil⟩

/-- **A skipped request leaves its function listed**, with no request. -/
theorem locked_out (h : c.Booked) (henabled : Enabled c .take) (hprompt : ¬ c.Prompt .take)
    (hstep : Step cfg c .take c') :
    ∃ f, f ∈ c'.enqueued ∧ f ∉ c'.pending.map (·.fid) := by
  obtain ⟨hidle, -⟩ := henabled
  obtain ⟨-, hc⟩ := hstep
  unfold perform takeRequest at hc
  cases hrequests : c.allocationRequests with
  | nil => exact absurd (by simp [Prompt, hrequests]) hprompt
  | cons req rest =>
      have hdate : ¬ (req.allocate = true ↔ req.fid ∉ c.active) := fun hn =>
        hprompt (by simpa [Prompt, hrequests] using hn)
      simp only [hrequests] at hc
      rw [if_neg fun hn => hdate ⟨fun _ => hn.2, fun _ => hn.1⟩,
        if_neg fun hn => hdate ⟨fun ha => absurd ha hn.1, fun ha => absurd hn.2 ha⟩] at hc
      have hpending : c.pending = req :: rest := by
        rw [pending, hidle, hrequests]
        rfl
      have hnodup := h.nodup
      rw [hpending, List.map_cons, List.nodup_cons] at hnodup
      have hlisted : req.fid ∈ c.enqueued := (h.listed _).2 (by rw [hpending]; exact List.mem_cons_self)
      rcases hc with ⟨u, hu⟩ | ⟨ex, hex⟩
      · obtain ⟨-, rfl⟩ := EStateM.Result.ok.inj hu
        refine ⟨req.fid, hlisted, ?_⟩
        rw [pending, hidle]
        exact hnodup.1
      · cases hex

/-- **Who is listed has a request**, which waits or is the one of the monitor: in every run in which nobody
asks to leave twice and no request is out of date. -/
theorem enqueued_iff_pending {es : List Event}
    (h : Run (fun c e c' => Step cfg c e c' ∧ c.Prompt e) (init cfg) es c) (f : Fid) :
    f ∈ c.enqueued ↔
      (∃ req ∈ c.allocationRequests, req.fid = f) ∨ ∃ req, c.monitor.current = some req ∧ req.fid = f := by
  have hbooked := h.invariant (I := Booked) (fun _ _ _ h he => h.step he.1 he.2) booked_init
  rw [hbooked.listed, List.mem_map]
  constructor
  · rintro ⟨req, hreq, rfl⟩
    rcases mem_pending.1 hreq with hcurrent | hmem
    · exact Or.inr ⟨req, hcurrent, rfl⟩
    · exact Or.inl ⟨req, hmem, rfl⟩
  · rintro (⟨req, hmem, rfl⟩ | ⟨req, hcurrent, rfl⟩)
    · exact ⟨req, mem_pending.2 (Or.inr hmem), rfl⟩
    · exact ⟨req, mem_pending.2 (Or.inl hcurrent), rfl⟩

/-- One step that can be taken and raises no exception. -/
theorem step_of_execute {e : Event} (h : execute cfg [e] c = some c') : Step cfg c e c' := by
  unfold execute at h
  split_ifs at h with he
  cases hp : perform cfg e c with
  | error ex c₁ =>
      rw [hp] at h
      cases h
  | ok u c₁ =>
      rw [hp] at h
      obtain rfl := Option.some.inj h
      exact ⟨enabled_of_eq_true he, Or.inl ⟨u, hp⟩⟩

/-- A function arrives and leaves, and another one arrives. -/
def arrivalAndDeparture : List Event :=
  [.malloc (arrival 1 1), .take, .finish, .malloc (departure 1), .take, .finish, .malloc (arrival 2 1)]

/-- A run in which every request is up to date. -/
theorem enqueued_iff_pending_arrival :
    ∃ c, Run (fun c e c' => Step smallConfig c e c' ∧ c.Prompt e) (init smallConfig)
        arrivalAndDeparture c ∧
      (2 ∈ c.enqueued ↔
        (∃ req ∈ c.allocationRequests, req.fid = 2) ∨ ∃ req, c.monitor.current = some req ∧ req.fid = 2) := by
  have hrun : (arrivalAndDeparture.foldlM
      (fun c e => if Prompt c e then execute smallConfig [e] c else none)
      (init smallConfig)).isSome = true := by decide +kernel
  obtain ⟨c, hc⟩ := Option.isSome_iff_exists.1 hrun
  have hrun := (run_of_foldlM hc).mono fun _ _ _ h => (⟨step_of_execute h.1, h.2⟩ : _ ∧ _)
  exact ⟨c, hrun, enqueued_iff_pending hrun 2⟩

/-- A function asks to leave, and is removed by a reset before the monitor takes its request. -/
def skippedDeparture : List Event :=
  [.malloc (arrival 1 1), .take, .finish, .malloc (departure 1), .malloc (departure 255), .reset, .take]

/-- **A function is listed and has no request**: it is locked out. -/
theorem listed_without_request :
    ∃ c, Run (Step smallConfig) (init smallConfig) skippedDeparture c ∧ 1 ∈ c.enqueued ∧
      ¬ ((∃ req ∈ c.allocationRequests, req.fid = 1) ∨
        ∃ req, c.monitor.current = some req ∧ req.fid = 1) := by
  have hrun : (skippedDeparture.foldlM (fun c e => execute smallConfig [e] c) (init smallConfig)).map
        (fun c => decide (1 ∈ c.enqueued ∧ c.allocationRequests = [] ∧ c.monitor = .idle)) =
      some true := by decide +kernel
  obtain ⟨c, hc, hend⟩ := Option.map_eq_some_iff.1 hrun
  obtain ⟨hlisted, hempty, hidle⟩ := of_decide_eq_true hend
  refine ⟨c, (Run.of_foldlM hc).mono fun _ _ _ h => step_of_execute h, hlisted, ?_⟩
  rw [hempty, hidle]
  simp [Monitor.current]

end Listed

end Controller

end ActiveRmt
