/-
**Clearing the memory of a client.**

When a client has read its memory, `memory_invalidate` of its application is called, and unless it
returns zero every word is to be overwritten with zero before the memory goes to someone else.  The loop
that does it shares its marks with the loop that reads: a word is written until it is marked, and every
reply marks a word.  `memory_invalidate_hh` takes the marks back; `memory_invalidate_cache` does not, and
its loop finds every word marked.  A late reply to a read marks a word as well.

Main definitions:

* `ZeroLog` — a system whose replies are traced back to the packets that they answer;
* `ZeroLog.Zeroed` — a zero was written to a word, and acknowledged, after the word was read;
* `Cleared` — so it is with every word that is to be cleared;
* `ZeroLog.Timely` — the marks are taken back, and what arrives during the loop answers one of its
  packets.

Main results:

* `ZeroLog.Sound.next` — what one step preserves;
* `invalidation_clears` — **in every run of such steps, a client that goes on has cleared its memory**;
* `invalidation_skipped` — nothing is written for a cache, nor after a late reply.
-/

import ActiveRmt.Snapshot

set_option relaxedAutoImplicit false
set_option autoImplicit false

namespace ActiveRmt

/-! ### A log of what was sent and acknowledged -/

/-- **A system whose replies are traced back.** -/
structure ZeroLog where
  /-- The system. -/
  sync : SyncSystem
  /-- For each reply, the number of the packet that it answers. -/
  answered : List ℕ
  /-- The packets to which a reply has arrived. -/
  received : ℕ → Bool
  /-- How many packets had been sent when a word was read for the last time. -/
  taken : Stage → ℕ → ℕ
  /-- How many packets had been sent when `memory_invalidate` was called for the last time. -/
  since : ℕ
  /-- `memory_invalidate` has returned a number other than zero since the client began to save its
  memory. -/
  invalidated : Bool

/-- What `memory_invalidate` returns, in a step that calls it. -/
def SyncSystem.invalidates (y : SyncSystem) : SyncEvent → Option Bool
  | .control ch =>
      if y.client.point = .snapshotting [] ∧ y.client.inProgress.snapshotting = false then
        some (ch.invalidation.apply y.client.ctxt.allocation).2
      else none
  | .receive _ | .execute _ | .deliver _ | .write _ _ _ => none

/-- The words read by a step. -/
def ZeroLog.reads (z : ZeroLog) (e : SyncEvent) (s : Stage) (j : ℕ) : Bool :=
  match e with
  | .deliver k =>
      match z.sync.replies[k]? with
      | some r => decide (z.sync.client.ctxt.status = .snapshotting ∧ z.invalidated = false ∧
          r.pkt.isReply = true ∧ r.pkt.stageId = some s ∧ r.pkt.memAddr = j)
      | none => false
  | .control _ | .receive _ | .execute _ | .write _ _ _ => false

/-- The packets answered by a step. -/
def SyncEvent.executed : SyncEvent → List ℕ
  | .execute i => [i]
  | .control _ | .receive _ | .deliver _ | .write _ _ _ => []

/-- The packet to which a reply arrives in a step. -/
def ZeroLog.arrives (z : ZeroLog) : SyncEvent → Option ℕ
  | .deliver k => z.answered[k]?
  | .control _ | .receive _ | .execute _ | .write _ _ _ => none

/-- The client begins to save its memory. -/
def Enters (y y' : SyncSystem) : Prop :=
  y'.client.ctxt.status = .snapshotting ∧ y.client.ctxt.status ≠ .snapshotting

instance (y y' : SyncSystem) : Decidable (Enters y y') := inferInstanceAs (Decidable (_ ∧ _))

/-- **A step of the system, with its log.** -/
def ZeroLog.next (z : ZeroLog) (e : SyncEvent) : Option ZeroLog :=
  (z.sync.next e).map fun y =>
    { sync := y
      answered := z.answered ++ e.executed
      received := fun i => z.received i || decide (z.arrives e = some i)
      taken := fun s j => if z.reads e s j then z.sync.sent.length else z.taken s j
      since := if (z.sync.invalidates e).isSome then z.sync.sent.length else z.since
      invalidated :=
        if Enters z.sync y then false else (z.sync.invalidates e).getD z.invalidated }

/-- **A zero was written to a word, and acknowledged, after the word was read.** -/
def ZeroLog.Zeroed (z : ZeroLog) (s : Stage) (j : ℕ) : Prop :=
  ∃ i, z.taken s j ≤ i ∧ z.sync.sent[i]? = some (.memremap s j 0) ∧ z.received i = true

/-- **The memory of the client is cleared.** -/
def Cleared (z : ZeroLog) : Prop :=
  ∀ s, z.sync.client.ctxt.allocation.validStages s = true →
    z.sync.client.ctxt.allocation.syncmap s = true →
      ∀ j, (z.sync.client.ctxt.allocation.syncData s).InRange j → z.Zeroed s j

/-- **The client goes on**, after `memory_invalidate` has asked for the loop. -/
structure ZeroLog.GoesOn (z z' : ZeroLog) : Prop where
  before : z.sync.client.ctxt.status = .snapshotting
  after : z'.sync.client.ctxt.status ≠ .snapshotting
  invalidated : z.invalidated = true

/-- The control loop is in the loop that invalidates. -/
def ControlPoint.Invalidates : ControlPoint → Prop
  | .invalidating _ => True
  | _ => False

instance (p : ControlPoint) : Decidable p.Invalidates :=
  match p with
  | .invalidating _ => .isTrue trivial
  | .resetting _ | .reset | .snapshotting _ | .dispatch | .snapshotted => .isFalse id

/-- No word of a valid stage is marked. -/
def MemoryRegion.Unmarked (r : MemoryRegion) : Prop :=
  ∀ s, r.validStages s = true → ∀ j, (r.syncData s).InRange j → (r.syncData s).valid j = false

/-- **The marks are taken back, and nothing late arrives in the loop that invalidates**: a reply answers
a packet of the loop, or is for a word that is not to be cleared, or that has been cleared already. -/
def ZeroLog.Timely (z : ZeroLog) : SyncEvent → Prop
  | .control ch => z.sync.Leaves → ch.invalidation = .cache →
      z.sync.client.ctxt.allocation.Unmarked
  | .deliver k => z.sync.client.point.Invalidates →
      ∀ r ∈ z.sync.replies[k]?, ∀ i ∈ z.answered[k]?, z.since ≤ i ∨
        ∀ s, r.pkt.stageId = some s → z.sync.client.ctxt.allocation.validStages s = true →
          (z.sync.client.ctxt.allocation.syncData s).InRange r.pkt.memAddr → z.Zeroed s r.pkt.memAddr
  | .receive _ | .execute _ | .write _ _ _ => True

/-! ### The log -/

section Log

variable {y y' : SyncSystem} {z z' : ZeroLog} {e : SyncEvent}

/-- **What a step adds.** -/
theorem SyncSystem.next_cases (h : y.next e = some y') :
    (∃ c sent, y' = y.moved c sent ∧
      ((∃ ch, e = .control ch ∧ c = (y.client.control ch).1 ∧ sent = (y.client.control ch).2) ∨
        ∃ pkt ctxt, rxControl y.client.ctxt pkt = some ctxt ∧ c = { y.client with ctxt := ctxt } ∧
          sent = [] ∧ ((e = .receive pkt ∧ pkt.isReply = false) ∨
            ∃ k r, e = .deliver k ∧ y.replies[k]? = some r ∧ r.pkt = pkt))) ∨
    (y'.client = y.client ∧ y'.sent = y.sent ∧
      ((∃ i pkt reply, e = .execute i ∧ y.sent[i]? = some pkt ∧
          (∃ heap', answer (BitVec.ofNat 16 y.client.ctxt.fid) y.heap pkt = some (reply, heap')) ∧
          y'.replies = y.replies ++ [⟨reply, pkt.isSnapshot, y.round⟩]) ∨
        ∃ s a data, e = .write s a data ∧ y'.replies = y.replies)) := by
  cases e with
  | control ch => exact .inl ⟨_, _, (Option.some.inj h).symm, .inl ⟨ch, rfl, rfl, rfl⟩⟩
  | receive pkt =>
      rw [SyncSystem.next] at h
      split_ifs at h with hreply
      obtain ⟨ctxt, hrx, rfl⟩ := Option.map_eq_some_iff.1 h
      exact .inl ⟨_, _, rfl, .inr ⟨pkt, ctxt, hrx, rfl, rfl, .inl ⟨rfl, Bool.eq_false_iff.2 hreply⟩⟩⟩
  | execute i =>
      obtain ⟨pkt, hpkt, h⟩ := Option.bind_eq_some_iff.1 h
      obtain ⟨⟨reply, heap⟩, hanswer, h⟩ := Option.bind_eq_some_iff.1 h
      obtain rfl := Option.some.inj h
      exact .inr ⟨rfl, rfl, .inl ⟨i, pkt, reply, rfl, hpkt, ⟨heap, hanswer⟩, rfl⟩⟩
  | deliver k =>
      obtain ⟨r, hr, h⟩ := Option.bind_eq_some_iff.1 h
      obtain ⟨ctxt, hrx, h⟩ := Option.bind_eq_some_iff.1 h
      exact .inl ⟨_, _, (Option.some.inj h).symm,
        .inr ⟨r.pkt, ctxt, hrx, rfl, rfl, .inr ⟨k, r, rfl, hr, rfl⟩⟩⟩
  | write s a data =>
      obtain rfl := Option.some.inj h
      exact .inr ⟨rfl, rfl, .inr ⟨s, a, data, rfl, rfl⟩⟩

/-- **Replies are answers to packets that were sent**, and the marks in the log are in the past. -/
structure ZeroLog.Logged (z : ZeroLog) : Prop where
  parallel : z.answered.length = z.sync.replies.length
  answers : ∀ (k : ℕ) (r : WordReply) (i : ℕ), z.sync.replies[k]? = some r → z.answered[k]? = some i →
    ∃ fid heap heap' pkt, z.sync.sent[i]? = some pkt ∧ answer fid heap pkt = some (r.pkt, heap')
  taken : ∀ s j, z.taken s j ≤ z.sync.sent.length
  since : z.since ≤ z.sync.sent.length

/-- Packets are only added. -/
theorem SyncSystem.sent_prefix (h : y.next e = some y') : y.sent <+: y'.sent := by
  rcases SyncSystem.next_cases h with ⟨c, sent, rfl, _⟩ | ⟨_, hsent, _⟩
  · exact List.prefix_append _ _
  · rw [hsent]

theorem SyncSystem.sent_of_next (h : y.next e = some y') {i : ℕ} {pkt : TxPacket}
    (hi : y.sent[i]? = some pkt) : y'.sent[i]? = some pkt := by
  obtain ⟨more, hmore⟩ := SyncSystem.sent_prefix h
  rw [← hmore, List.getElem?_append_left (List.getElem?_eq_some_iff.1 hi).1]
  exact hi

theorem ZeroLog.Logged.next (h : z.Logged) (he : z.next e = some z') : z'.Logged := by
  obtain ⟨y, hy, rfl⟩ := Option.map_eq_some_iff.1 he
  have hpre := SyncSystem.sent_prefix hy
  have hsent : ∀ {i pkt}, z.sync.sent[i]? = some pkt → y.sent[i]? = some pkt := fun hi =>
    SyncSystem.sent_of_next hy hi
  have htaken : ∀ s j, (if z.reads e s j then z.sync.sent.length else z.taken s j) ≤ y.sent.length := by
    intro s j
    split_ifs
    · exact hpre.length_le
    · exact (h.taken s j).trans hpre.length_le
  have hsince : (if (z.sync.invalidates e).isSome then z.sync.sent.length else z.since) ≤
      y.sent.length := by
    split_ifs
    · exact hpre.length_le
    · exact h.since.trans hpre.length_le
  rcases SyncSystem.next_cases hy with ⟨c, sent, rfl, hcases⟩ | ⟨_, _, hcases⟩
  · have hexec : e.executed = [] := by
      rcases hcases with ⟨ch, rfl, _⟩ | ⟨_, _, _, _, _, ⟨rfl, _⟩ | ⟨_, _, rfl, _⟩⟩ <;> rfl
    refine ⟨?_, fun k r i hr hi => ?_, htaken, hsince⟩
    · show (z.answered ++ e.executed).length = z.sync.replies.length
      rw [hexec, List.append_nil]
      exact h.parallel
    · dsimp only at hi
      rw [hexec, List.append_nil] at hi
      obtain ⟨fid, heap, heap', pkt, hpkt, hanswer⟩ := h.answers k r i hr hi
      exact ⟨fid, heap, heap', pkt, hsent hpkt, hanswer⟩
  · rcases hcases with ⟨i₀, pkt₀, reply, rfl, hpkt₀, ⟨heap', hanswer₀⟩, hreplies⟩ |
      ⟨_, _, _, rfl, hreplies⟩
    · refine ⟨by simp [hreplies, SyncEvent.executed, h.parallel], fun k r i hr hi => ?_, htaken, hsince⟩
      dsimp only at hr hi
      rw [hreplies] at hr
      -- an old reply, or the one that has just been sent
      rcases Nat.lt_or_ge k z.sync.replies.length with hk | hk
      · rw [List.getElem?_append_left hk] at hr
        rw [List.getElem?_append_left (h.parallel ▸ hk)] at hi
        obtain ⟨fid, heap, heap', pkt, hpkt, hanswer⟩ := h.answers k r i hr hi
        exact ⟨fid, heap, heap', pkt, hsent hpkt, hanswer⟩
      · rw [List.getElem?_append_right hk] at hr
        rw [List.getElem?_append_right (h.parallel ▸ hk), h.parallel] at hi
        obtain ⟨rfl, hi⟩ : (⟨reply, pkt₀.isSnapshot, z.sync.round⟩ : WordReply) = r ∧ i₀ = i := by
          cases hsub : k - z.sync.replies.length with
          | zero => simpa [hsub, SyncEvent.executed] using And.intro hr hi
          | succ n => simp [hsub] at hr
        exact ⟨_, _, heap', pkt₀, hsent (hi ▸ hpkt₀), hanswer₀⟩
    · refine ⟨by simpa [hreplies, SyncEvent.executed] using h.parallel, fun k r i hr hi => ?_, htaken,
        hsince⟩
      dsimp only at hr hi
      rw [hreplies] at hr
      rw [SyncEvent.executed, List.append_nil] at hi
      obtain ⟨fid, heap, heap', pkt, hpkt, hanswer⟩ := h.answers k r i hr hi
      exact ⟨fid, heap, heap', pkt, hsent hpkt, hanswer⟩

/-- A word that is cleared stays so, unless it is read again. -/
theorem ZeroLog.Zeroed.next {s : Stage} {j : ℕ} (h : z.Zeroed s j) (he : z.next e = some z')
    (hreads : z.reads e s j = false) : z'.Zeroed s j := by
  obtain ⟨y, hy, rfl⟩ := Option.map_eq_some_iff.1 he
  obtain ⟨i, htaken, hsent, hreceived⟩ := h
  refine ⟨i, ?_, SyncSystem.sent_of_next hy hsent, by simp [hreceived]⟩
  simpa [hreads] using htaken

/-- After `memory_invalidate` nothing is read any more. -/
theorem ZeroLog.reads_of_invalidated (h : z.invalidated = true) (s : Stage) (j : ℕ) :
    z.reads e s j = false := by
  cases e with
  | deliver k =>
      dsimp only [ZeroLog.reads]
      cases z.sync.replies[k]? with
      | none => rfl
      | some r => exact decide_eq_false fun hn => by simp [h] at hn
  | control _ | receive _ | execute _ | write _ _ _ => rfl

theorem ZeroLog.taken_of_invalidated (h : z.invalidated = true) (he : z.next e = some z') :
    z'.taken = z.taken := by
  obtain ⟨y, hy, rfl⟩ := Option.map_eq_some_iff.1 he
  funext s j
  simp [ZeroLog.reads_of_invalidated h s j]

/-- What a step that does not call `memory_invalidate` leaves alone. -/
theorem ZeroLog.next_uncalled (he : z.next e = some z') (hcall : z.sync.invalidates e = none)
    (hst : z.sync.client.ctxt.status = .snapshotting) :
    z'.since = z.since ∧ z'.invalidated = z.invalidated := by
  obtain ⟨y, hy, rfl⟩ := Option.map_eq_some_iff.1 he
  refine ⟨by simp [hcall], ?_⟩
  dsimp only
  rw [if_neg fun hn => hn.2 hst, hcall, Option.getD_none]

end Log

/-! ### The loop that invalidates -/

section Loop

variable {z z' : ZeroLog} {e : SyncEvent} {todo : List (Stage × ℕ)}

/-- **What holds in the loop that invalidates**, with these words left of the pass: a word is marked when
it is cleared, and a zero otherwise; and only zeros are sent. -/
structure ZeroLog.Zeroing (z : ZeroLog) (todo : List (Stage × ℕ)) : Prop where
  invalidated : z.invalidated = true
  syncmap : z.sync.client.ctxt.allocation.syncmap = z.sync.client.ctxt.allocation.validStages
  left : ∀ x ∈ todo, x ∈ z.sync.client.ctxt.allocation.words
  taken : ∀ s j, z.taken s j ≤ z.since
  sent : ∀ (i : ℕ) (pkt : TxPacket), z.since ≤ i → z.sync.sent[i]? = some pkt →
    ∃ s j, pkt = .memremap s j 0 ∧ j < 2 ^ 32
  words : ∀ s, z.sync.client.ctxt.allocation.validStages s = true →
    ∀ j, (z.sync.client.ctxt.allocation.syncData s).InRange j →
      ((z.sync.client.ctxt.allocation.syncData s).valid j = false ∧
        (z.sync.client.ctxt.allocation.syncData s).data j = 0) ∨
      ((z.sync.client.ctxt.allocation.syncData s).valid j = true ∧ z.Zeroed s j)
  pass : z.sync.client.inProgress.invalidating = false →
    ∀ s, z.sync.client.ctxt.allocation.validStages s = true →
      ∀ j, (z.sync.client.ctxt.allocation.syncData s).InRange j →
        (s, j) ∈ todo ∨ (z.sync.client.ctxt.allocation.syncData s).valid j = true

/-- **What `memory_invalidate` leaves**, where the marks are taken back. -/
theorem Invalidation.apply_unmarked (inv : Invalidation) (r : MemoryRegion)
    (h : (inv.apply r).2 = true) (hcache : inv = .cache → r.Unmarked) :
    (inv.apply r).1.syncmap = (inv.apply r).1.validStages ∧
    ∀ s, (inv.apply r).1.validStages s = true → ∀ j, ((inv.apply r).1.syncData s).InRange j →
      ((inv.apply r).1.syncData s).valid j = false ∧ ((inv.apply r).1.syncData s).data j = 0 := by
  cases inv with
  | lb => cases h
  | cache => exact ⟨rfl, fun s hs j hj => ⟨hcache rfl s hs j hj, rfl⟩⟩
  | hh => exact ⟨rfl, fun s _ j _ => ⟨rfl, rfl⟩⟩

/-- The loop begins. -/
theorem ZeroLog.Zeroing.begins {ch : Choice} (hlogged : z.Logged) (hleaves : z.sync.Leaves)
    (hst : z.sync.client.ctxt.status = .snapshotting)
    (hcall : (ch.invalidation.apply z.sync.client.ctxt.allocation).2 = true)
    (htimely : z.Timely (.control ch)) (he : z.next (.control ch) = some z') :
    z'.sync.client.point = .invalidating [] ∧ z'.Zeroing [] := by
  obtain ⟨hsyncmap, hwords⟩ := Invalidation.apply_unmarked _ _ hcall fun hc => htimely hleaves hc
  have hcontrol : z.sync.client.control ch = (z.sync.client.leaveSnapshot ch, []) := by
    rw [Client.control, hleaves.point]
    dsimp only
    rw [if_neg (by simp [hleaves.done])]
  have hinv : z.sync.invalidates (.control ch) = some true := by
    rw [SyncSystem.invalidates, if_pos ⟨hleaves.point, hleaves.done⟩, hcall]
  have hleft : z.sync.client.leaveSnapshot ch =
      { ctxt := { z.sync.client.ctxt with
          allocation := (ch.invalidation.apply z.sync.client.ctxt.allocation).1 }
        point := .invalidating []
        inProgress := { z.sync.client.inProgress with invalidating := true } } := by
    unfold Client.leaveSnapshot
    simp [hcall]
  obtain ⟨y, hy, rfl⟩ := Option.map_eq_some_iff.1 he
  obtain rfl := Option.some.inj hy
  have hclient : (z.sync.moved (z.sync.client.control ch).1 (z.sync.client.control ch).2).client =
      z.sync.client.leaveSnapshot ch := by rw [hcontrol]; rfl
  have hsent : (z.sync.moved (z.sync.client.control ch).1 (z.sync.client.control ch).2).sent =
      z.sync.sent := by rw [hcontrol]; exact List.append_nil _
  have hstays : ¬ Enters z.sync
      (z.sync.moved (z.sync.client.control ch).1 (z.sync.client.control ch).2) := fun hn => hn.2 hst
  refine ⟨by rw [hclient, hleft], ⟨?_, ?_, by simp, ?_, ?_, ?_, ?_⟩⟩
  · dsimp only
    rw [if_neg hstays, hinv, Option.getD_some]
  · rw [hclient, hleft]
    exact hsyncmap
  · intro s j
    simpa [hinv, ZeroLog.reads] using hlogged.taken s j
  · -- nothing has been sent since
    intro i pkt hi hpkt
    dsimp only at hi hpkt
    rw [hinv, Option.isSome_some, if_pos rfl] at hi
    rw [hsent] at hpkt
    have := (List.getElem?_eq_some_iff.1 hpkt).1
    omega
  · intro s hs j hj
    rw [hclient, hleft] at hs hj ⊢
    exact .inl (hwords s hs j hj)
  · intro hprogress
    rw [hclient, hleft] at hprogress
    cases hprogress

/-- What a step of the control loop does to the client and to the packets. -/
theorem ZeroLog.client_of_control {ch : Choice} (he : z.next (.control ch) = some z') :
    z'.sync.client = (z.sync.client.control ch).1 ∧
      z'.sync.sent = z.sync.sent ++ (z.sync.client.control ch).2 := by
  obtain ⟨y, hy, rfl⟩ := Option.map_eq_some_iff.1 he
  obtain rfl := Option.some.inj hy
  exact ⟨rfl, rfl⟩

/-- In the loop `memory_invalidate` is not called. -/
theorem not_invalidates_of_invalidating {ch : Choice} (hpoint : z.sync.client.point = .invalidating todo) :
    z.sync.invalidates (.control ch) = none := by
  rw [SyncSystem.invalidates, if_neg]
  rw [hpoint]
  exact fun hn => by cases hn.1

/-- What is cleared stays so in the loop. -/
theorem ZeroLog.Zeroing.zeroed (h : z.Zeroing todo) (he : z.next e = some z') {s : Stage} {j : ℕ}
    (hz : z.Zeroed s j) : z'.Zeroed s j := hz.next he (ZeroLog.reads_of_invalidated h.invalidated s j)

/-- **A step that leaves the words and the marks alone** sends zeros, if anything. -/
theorem ZeroLog.Zeroing.advance {ch : Choice} {c : Client} {more : List TxPacket}
    {todo' : List (Stage × ℕ)} (h : z.Zeroing todo) (hpoint : z.sync.client.point = .invalidating todo)
    (hst : z.sync.client.ctxt.status = .snapshotting) (he : z.next (.control ch) = some z')
    (hcontrol : z.sync.client.control ch = (c, more)) (hctxt : c.ctxt = z.sync.client.ctxt)
    (hmore : ∀ pkt ∈ more, ∃ s j, pkt = .memremap s j 0 ∧ j < 2 ^ 32)
    (hleft : ∀ x ∈ todo', x ∈ z.sync.client.ctxt.allocation.words)
    (hpass : c.inProgress.invalidating = false → ∀ s, z.sync.client.ctxt.allocation.validStages s = true →
      ∀ j, (z.sync.client.ctxt.allocation.syncData s).InRange j →
        (s, j) ∈ todo' ∨ (z.sync.client.ctxt.allocation.syncData s).valid j = true) :
    z'.sync.client = c ∧ z'.Zeroing todo' := by
  obtain ⟨hsince, hinvalidated⟩ := ZeroLog.next_uncalled he (not_invalidates_of_invalidating hpoint) hst
  obtain ⟨hclient, hsent⟩ := ZeroLog.client_of_control he
  rw [hcontrol] at hclient hsent
  refine ⟨hclient, ⟨hinvalidated.trans h.invalidated, ?_, ?_, ?_, ?_, ?_, ?_⟩⟩
  · rw [hclient, hctxt]
    exact h.syncmap
  · rw [hclient, hctxt]
    exact hleft
  · rw [ZeroLog.taken_of_invalidated h.invalidated he, hsince]
    exact h.taken
  · intro i pkt hi hpkt
    rw [hsent] at hpkt
    rcases Nat.lt_or_ge i z.sync.sent.length with hlt | hge
    · rw [List.getElem?_append_left hlt] at hpkt
      exact h.sent i pkt (hsince ▸ hi) hpkt
    · rw [List.getElem?_append_right hge] at hpkt
      exact hmore pkt (List.mem_of_getElem? hpkt)
  · rw [hclient, hctxt]
    exact fun s hs j hj => (h.words s hs j hj).imp_right fun hw => ⟨hw.1, h.zeroed he hw.2⟩
  · rw [hclient, hctxt]
    exact hpass

/-- A word is visited: it is cleared already, or a zero is sent. -/
theorem ZeroLog.Zeroing.visit {ch : Choice} {x : Stage × ℕ} {rest : List (Stage × ℕ)}
    (h : z.Zeroing (x :: rest)) (hpoint : z.sync.client.point = .invalidating (x :: rest))
    (hst : z.sync.client.ctxt.status = .snapshotting) (he : z.next (.control ch) = some z') :
    z'.sync.client.point = .invalidating rest ∧ z'.Zeroing rest := by
  have hcontrol : z.sync.client.control ch = z.sync.client.visitInvalidate ch x rest := by
    rw [Client.control, hpoint]
  obtain ⟨hvalid, hrange⟩ := mem_words.1 (h.left x List.mem_cons_self)
  have hleft : ∀ w ∈ rest, w ∈ z.sync.client.ctxt.allocation.words := fun w hw =>
    h.left w (List.mem_cons_of_mem x hw)
  by_cases hskip : (z.sync.client.ctxt.allocation.syncData x.1).valid x.2 = true
  · have hvisit : z.sync.client.visitInvalidate ch x rest =
        ({ z.sync.client with point := .invalidating rest }, []) := if_pos (.inr (.inl hskip))
    obtain ⟨hclient, hz⟩ := h.advance hpoint hst he (hcontrol.trans hvisit) rfl (by simp) hleft
      fun hprogress s hs j hj => by
        rcases h.pass hprogress s hs j hj with hmem | hmarked
        · rcases List.mem_cons.1 hmem with rfl | hmem
          · exact .inr hskip
          · exact .inl hmem
        · exact .inr hmarked
    exact ⟨by rw [hclient], hz⟩
  · have hdata := ((h.words x.1 hvalid x.2 hrange).resolve_right fun hw => hskip hw.1).2
    have hvisit : z.sync.client.visitInvalidate ch x rest =
        ({ z.sync.client with
          point := .invalidating rest
          inProgress := { z.sync.client.inProgress with invalidating := true } },
          Client.sends ch [.memremap x.1 x.2 0]) := by
      rw [← hdata]
      exact if_neg (by rw [h.syncmap]; simp [hvalid, hskip])
    have hzero : ∀ pkt ∈ Client.sends ch [.memremap x.1 x.2 0], ∃ s j, pkt = .memremap s j 0 ∧ j < 2 ^ 32 := by
      intro pkt hpkt
      unfold Client.sends at hpkt
      split_ifs at hpkt with hmbuf
      · exact ⟨x.1, x.2, List.mem_singleton.1 hpkt, hrange.2.trans_lt (BitVec.isLt _)⟩
      · exact absurd hpkt List.not_mem_nil
    obtain ⟨hclient, hz⟩ := h.advance hpoint hst he (hcontrol.trans hvisit) rfl hzero hleft
      fun hprogress => by cases hprogress
    exact ⟨by rw [hclient], hz⟩

/-- **A step of the control loop in the loop.**  It goes on, or every word is cleared. -/
theorem ZeroLog.Zeroing.control {ch : Choice} (h : z.Zeroing todo)
    (hpoint : z.sync.client.point = .invalidating todo)
    (hst : z.sync.client.ctxt.status = .snapshotting) (he : z.next (.control ch) = some z') :
    (∃ todo', z'.sync.client.point = .invalidating todo' ∧ z'.Zeroing todo') ∨
      (z'.sync.client.point = .snapshotted ∧ Cleared z') := by
  cases todo with
  | cons x rest => exact .inl ⟨rest, h.visit hpoint hst he⟩
  | nil =>
      by_cases hprogress : z.sync.client.inProgress.invalidating = true
      · -- another pass
        have hcontrol : z.sync.client.control ch =
            ({ z.sync.client with
              point := .invalidating z.sync.client.ctxt.allocation.words
              inProgress := { z.sync.client.inProgress with invalidating := false } }, []) := by
          rw [Client.control, hpoint]
          exact if_pos hprogress
        obtain ⟨hclient, hz⟩ := h.advance hpoint hst he hcontrol rfl (by simp) (fun x hx => hx)
          fun _ s hs j hj => .inl (mem_words.2 ⟨hs, hj⟩)
        exact .inl ⟨_, by rw [hclient], hz⟩
      · -- a pass in which every word was marked
        have hcontrol : z.sync.client.control ch = ({ z.sync.client with point := .snapshotted }, []) := by
          rw [Client.control, hpoint]
          exact if_neg hprogress
        have hclient := (ZeroLog.client_of_control he).1
        rw [hcontrol] at hclient
        refine .inr ⟨by rw [hclient], ?_⟩
        intro s hs _ j hj
        rw [hclient] at hs hj
        have hmarked := (h.pass (Bool.eq_false_iff.2 hprogress) s hs j hj).resolve_left List.not_mem_nil
        exact h.zeroed he ((h.words s hs j hj).resolve_left fun hw => by simp [hmarked] at hw).2

/-- The answer to a write names its word. -/
theorem answer_memremap_names {fid : BitVec 16} {heap heap' : Heap} {s t : Stage} {j : ℕ} {data : Word}
    {reply : RxPacket} (h : answer fid heap (.memremap s j data) = some (reply, heap')) (hj : j < 2 ^ 32)
    (ht : reply.stageId = some t) : s = t ∧ reply.memAddr = j := by
  obtain ⟨rfl, -⟩ := Prod.ext_iff.1 (Option.some.inj h)
  have ht : namedStage (BitVec.ofNat 32 s.val) = some t := ht
  refine ⟨Option.some.inj ((namedStage_ofNat s).symm.trans ht), ?_⟩
  show (BitVec.ofNat 32 j).toNat = j
  rw [BitVec.toNat_ofNat, Nat.mod_eq_of_lt hj]

/-- A delivery sends nothing, and notes the packet that the reply answers. -/
theorem ZeroLog.sent_of_deliver {k : ℕ} (he : z.next (.deliver k) = some z') :
    z'.sync.sent = z.sync.sent := by
  obtain ⟨y, hy, rfl⟩ := Option.map_eq_some_iff.1 he
  obtain ⟨r, _, hy⟩ := Option.bind_eq_some_iff.1 hy
  obtain ⟨ctxt, _, hy⟩ := Option.bind_eq_some_iff.1 hy
  obtain rfl := Option.some.inj hy
  exact List.append_nil _

theorem ZeroLog.received_of_deliver {k i : ℕ} (he : z.next (.deliver k) = some z')
    (hi : z.answered[k]? = some i) : z'.received i = true := by
  obtain ⟨y, hy, rfl⟩ := Option.map_eq_some_iff.1 he
  simp [ZeroLog.arrives, hi]

/-- **The word of a reply in time is cleared**, once the reply has arrived. -/
theorem ZeroLog.Zeroing.arrived {k : ℕ} {r : WordReply} {s : Stage} (h : z.Zeroing todo)
    (hlogged : z.Logged) (hloop : z.sync.client.point.Invalidates) (htimely : z.Timely (.deliver k))
    (hr : z.sync.replies[k]? = some r) (he : z.next (.deliver k) = some z')
    (hs : r.pkt.stageId = some s) (hvalid : z.sync.client.ctxt.allocation.validStages s = true)
    (hrange : (z.sync.client.ctxt.allocation.syncData s).InRange r.pkt.memAddr) :
    z'.Zeroed s r.pkt.memAddr := by
  obtain ⟨i, hi⟩ : ∃ i, z.answered[k]? = some i := by
    have hk := (List.getElem?_eq_some_iff.1 hr).1
    exact ⟨_, List.getElem?_eq_getElem (hlogged.parallel ▸ hk)⟩
  rcases htimely hloop r hr i hi with hafter | hother
  · -- the packet that it answers was sent in this loop, so it is the write of the word
    obtain ⟨fid, heap, heap', pkt, hpkt, hanswer⟩ := hlogged.answers k r i hr hi
    obtain ⟨t, j, rfl, hlt⟩ := h.sent i pkt hafter hpkt
    obtain ⟨rfl, hj⟩ := answer_memremap_names hanswer hlt hs
    rw [hj]
    refine ⟨i, ?_, ?_, ZeroLog.received_of_deliver he hi⟩
    · rw [ZeroLog.taken_of_invalidated h.invalidated he]
      exact (h.taken t j).trans hafter
    · rw [ZeroLog.sent_of_deliver he]
      exact hpkt
  · exact h.zeroed he (hother s hs hvalid hrange)

/-- **A reply arrives in the loop**, in time. -/
theorem ZeroLog.Zeroing.deliver {k : ℕ} {r : WordReply} (h : z.Zeroing todo) (hlogged : z.Logged)
    (hpoint : z.sync.client.point = .invalidating todo)
    (hst : z.sync.client.ctxt.status = .snapshotting) (htimely : z.Timely (.deliver k))
    (hr : z.sync.replies[k]? = some r) (he : z.next (.deliver k) = some z')
    (hclient : z'.sync.client = { z.sync.client with ctxt := recordReply z.sync.client.ctxt r.pkt }) :
    z'.Zeroing todo := by
  obtain ⟨hsince, hinvalidated⟩ := ZeroLog.next_uncalled he rfl hst
  obtain ⟨hvalid, hranges⟩ := Context.stages_of_view (view_recordReply z.sync.client.ctxt r.pkt)
  obtain ⟨hmap, hmarks⟩ := recordReply_marks z.sync.client.ctxt r.pkt
  refine ⟨hinvalidated.trans h.invalidated, ?_, ?_, ?_, ?_, ?_, ?_⟩
  · rw [hclient]
    exact hmap.trans (h.syncmap.trans hvalid.symm)
  · rw [hclient]
    rintro ⟨s, j⟩ hx
    obtain ⟨hv, hj⟩ := mem_words.1 (h.left _ hx)
    exact mem_words.2 ⟨by rw [hvalid]; exact hv, (hranges s j).2 hj⟩
  · rw [ZeroLog.taken_of_invalidated h.invalidated he, hsince]
    exact h.taken
  · rw [ZeroLog.sent_of_deliver he, hsince]
    exact h.sent
  · rw [hclient]
    intro s hs j hj
    dsimp only at hs hj ⊢
    rw [hvalid] at hs
    rw [hranges] at hj
    rcases recordReply_word z.sync.client.ctxt r.pkt s j with ⟨hs', rfl, hmarked, -⟩ | ⟨hv, hd⟩
    · exact .inr ⟨hmarked, h.arrived hlogged (by rw [hpoint]; trivial) htimely hr he hs' hs hj⟩
    · rw [hv, hd]
      exact (h.words s hs j hj).imp_right fun hw => ⟨hw.1, h.zeroed he hw.2⟩
  · rw [hclient]
    intro hprogress s hs j hj
    dsimp only at hs hj hprogress ⊢
    rw [hvalid] at hs
    rw [hranges] at hj
    exact (h.pass hprogress s hs j hj).imp_right (hmarks s j)

/-- A step that leaves the client and the packets alone. -/
theorem ZeroLog.Zeroing.idle (h : z.Zeroing todo) (he : z.next e = some z')
    (hst : z.sync.client.ctxt.status = .snapshotting) (hcall : z.sync.invalidates e = none)
    (hclient : z'.sync.client = z.sync.client) (hsent : z'.sync.sent = z.sync.sent) :
    z'.Zeroing todo := by
  obtain ⟨hsince, hinvalidated⟩ := ZeroLog.next_uncalled he hcall hst
  refine ⟨hinvalidated.trans h.invalidated, ?_, ?_, ?_, ?_, ?_, ?_⟩
  · rw [hclient]; exact h.syncmap
  · rw [hclient]; exact h.left
  · rw [ZeroLog.taken_of_invalidated h.invalidated he, hsince]
    exact h.taken
  · rw [hsent, hsince]; exact h.sent
  · rw [hclient]
    exact fun s hs j hj => (h.words s hs j hj).imp_right fun hw => ⟨hw.1, h.zeroed he hw.2⟩
  · rw [hclient]; exact h.pass

end Loop

/-! ### Runs -/

section Runs

variable {z z' : ZeroLog} {e : SyncEvent}

theorem ControlPoint.invalidates_iff {p : ControlPoint} : p.Invalidates ↔ ∃ todo, p = .invalidating todo := by
  cases p <;> simp [ControlPoint.Invalidates]

/-- `memory_invalidate` was called in this save already, where it is not called by the step. -/
theorem ZeroLog.called_before (he : z.next e = some z') (hcall : z.sync.invalidates e = none)
    (hinv : z'.invalidated = true) (hst : z'.sync.client.ctxt.status = .snapshotting) :
    z.invalidated = true ∧ z.sync.client.ctxt.status = .snapshotting := by
  obtain ⟨y, hy, rfl⟩ := Option.map_eq_some_iff.1 he
  dsimp only at hinv hst
  split_ifs at hinv with henters
  · rw [hcall, Option.getD_none] at hinv
    exact ⟨hinv, by_contra fun hne => henters ⟨hst, hne⟩⟩

/-- What is cleared stays so while the ranges stay. -/
theorem Cleared.next (h : Cleared z) (he : z.next e = some z') (hinv : z.invalidated = true)
    (hview : z'.sync.client.ctxt.view = z.sync.client.ctxt.view)
    (hmap : z'.sync.client.ctxt.allocation.syncmap = z.sync.client.ctxt.allocation.syncmap) :
    Cleared z' := by
  obtain ⟨hvalid, hranges⟩ := Context.stages_of_view hview
  intro s hs hm j hj
  rw [hvalid] at hs
  rw [hmap] at hm
  exact (h s hs hm j ((hranges s j).1 hj)).next he (ZeroLog.reads_of_invalidated hinv s j)

/-- While a client saves its memory, a packet is recorded or ignored. -/
theorem rxControl_snapshotting {c c' : Context} {pkt : RxPacket} (hst : c.status = .snapshotting)
    (h : rxControl c pkt = some c') :
    c'.status = .snapshotting ∧ c'.view = c.view ∧ c'.allocation.syncmap = c.allocation.syncmap ∧
      (c' = recordReply c pkt ∧ pkt.isReply = true ∨ c' = c) := by
  unfold rxControl at h
  rw [hst] at h
  obtain rfl := Option.some.inj h
  split_ifs with hr
  · exact ⟨(invalid_recordReply c pkt).2.trans hst, view_recordReply c pkt, (recordReply_marks c pkt).1,
      .inl ⟨rfl, hr⟩⟩
  · exact ⟨hst, rfl, rfl, .inr rfl⟩

/-- Outside these loops, a step of the control loop does not enter the loop that invalidates. -/
theorem point_of_control {c : Client} {ch : Choice}
    (hleaves : ¬ (c.point = .snapshotting [] ∧ c.inProgress.snapshotting = false))
    (hinv : ¬ c.point.Invalidates) :
    ¬ (c.control ch).1.point.Invalidates ∧ (c.control ch).1.point ≠ .snapshotted := by
  unfold Client.control
  split <;> rename_i hpoint
  case h_1 =>
      unfold Client.dispatch
      split
      case h_5 | h_6 =>
          dsimp only
          split_ifs <;> exact ⟨id, fun hn => by cases hn⟩
      all_goals
        dsimp only
        first
          | exact ⟨id, fun hn => by cases hn⟩
          | rw [hpoint]; exact ⟨id, fun hn => by cases hn⟩
  case h_2 =>
      unfold Client.visitSnapshot
      split_ifs <;> exact ⟨id, fun hn => by cases hn⟩
  case h_3 =>
      split_ifs with hprogress
      · exact ⟨id, fun hn => by cases hn⟩
      · exact absurd ⟨hpoint, Bool.eq_false_iff.2 hprogress⟩ hleaves
  case h_4 | h_5 => exact absurd (by rw [hpoint]; trivial) hinv
  case h_6 => exact ⟨id, fun hn => by cases hn⟩
  case h_7 =>
      unfold Client.visitReset
      split_ifs <;> exact ⟨id, fun hn => by cases hn⟩
  case h_8 => split_ifs <;> exact ⟨id, fun hn => by cases hn⟩
  case h_9 => exact ⟨id, fun hn => by cases hn⟩

/-- **What holds in every state of a timely run.** -/
structure ZeroLog.Sound (z : ZeroLog) : Prop where
  logged : z.Logged
  saves : z.sync.client.point.Saves → z.sync.client.ctxt.status = .snapshotting
  reading : PassDone z.sync.client
  called : z.invalidated = true → z.sync.client.ctxt.status = .snapshotting →
    z.sync.client.point.Invalidates ∨ z.sync.client.point = .snapshotted
  zeroing : ∀ todo, z.sync.client.point = .invalidating todo → z.Zeroing todo
  cleared : z.sync.client.point = .snapshotted → z.invalidated = true → Cleared z

/-- The end of a save: the status is another one then. -/
theorem control_snapshotted {c : Client} {ch : Choice} (h : c.point = .snapshotted) :
    (c.control ch).1.point = .dispatch ∧ (c.control ch).1.ctxt.status ≠ .snapshotting ∧
      (c.control ch).1.ctxt.view = c.ctxt.view ∧
      (c.control ch).1.ctxt.allocation.syncmap = c.ctxt.allocation.syncmap := by
  have hcontrol : (c.control ch).1 = { c with
      ctxt := { c.ctxt with
        status := if c.ctxt.allocation.invalid then .reallocating else .remapping }
      point := .dispatch } := by
    rw [Client.control, h]
  rw [hcontrol]
  refine ⟨rfl, ?_, rfl, rfl⟩
  dsimp only
  split_ifs <;> exact fun hn => by cases hn

theorem ZeroLog.Sound.control {ch : Choice} (h : z.Sound) (he : z.next (.control ch) = some z')
    (htimely : z.Timely (.control ch)) : z'.Sound := by
  obtain ⟨hsaves, hreading, -⟩ := control_saving h.saves h.reading ch
  have hclient : z'.sync.client = (z.sync.client.control ch).1 := by
    obtain ⟨y, hy, rfl⟩ := Option.map_eq_some_iff.1 he
    obtain rfl := Option.some.inj hy
    rfl
  rw [← hclient] at hsaves hreading
  have hlogged := h.logged.next he
  by_cases hleaves : z.sync.client.point = .snapshotting [] ∧
      z.sync.client.inProgress.snapshotting = false
  · have hst := h.saves (by rw [hleaves.1]; trivial)
    by_cases hcall : (ch.invalidation.apply z.sync.client.ctxt.allocation).2 = true
    · obtain ⟨hpoint, hzeroing⟩ :=
        ZeroLog.Zeroing.begins h.logged ⟨hleaves.1, hleaves.2⟩ hst hcall htimely he
      refine ⟨hlogged, hsaves, hreading, fun _ _ => .inl (by rw [hpoint]; trivial), fun todo ht => ?_,
        fun hp => by rw [hpoint] at hp; cases hp⟩
      rw [hpoint] at ht
      exact ControlPoint.invalidating.inj ht ▸ hzeroing
    · -- no loop is asked for
      have hcall := Bool.eq_false_iff.2 hcall
      have hinv : z'.invalidated = false := by
        obtain ⟨y, hy, rfl⟩ := Option.map_eq_some_iff.1 he
        dsimp only
        rw [if_neg fun hn => hn.2 hst, SyncSystem.invalidates, if_pos hleaves, hcall, Option.getD_some]
      have hpoint : z'.sync.client.point = .snapshotted := by
        rw [hclient, Client.control, hleaves.1]
        dsimp only
        rw [if_neg (by simp [hleaves.2])]
        simp [Client.leaveSnapshot, hcall]
      exact ⟨hlogged, hsaves, hreading, fun hn => by simp [hinv] at hn,
        fun todo ht => (by rw [hpoint] at ht; cases ht), fun _ hn => by simp [hinv] at hn⟩
  · have hcall : z.sync.invalidates (.control ch) = none := by
      rw [SyncSystem.invalidates, if_neg hleaves]
    by_cases hloop : z.sync.client.point.Invalidates
    · obtain ⟨todo, hpoint⟩ := ControlPoint.invalidates_iff.1 hloop
      have hst := h.saves (by rw [hpoint]; trivial)
      rcases (h.zeroing todo hpoint).control hpoint hst he with ⟨todo', hpoint', hzeroing⟩ |
        ⟨hpoint', hcleared⟩
      · refine ⟨hlogged, hsaves, hreading, fun _ _ => .inl (by rw [hpoint']; trivial), fun t ht => ?_,
          fun hp => by rw [hpoint'] at hp; cases hp⟩
        rw [hpoint'] at ht
        exact ControlPoint.invalidating.inj ht ▸ hzeroing
      · exact ⟨hlogged, hsaves, hreading, fun _ _ => .inr hpoint',
          fun t ht => (by rw [hpoint'] at ht; cases ht), fun _ _ => hcleared⟩
    · have hpoint : ¬ (z.sync.client.control ch).1.point.Invalidates ∧
          (z.sync.client.control ch).1.point ≠ .snapshotted := point_of_control hleaves hloop
      rw [← hclient] at hpoint
      obtain ⟨hno, hne⟩ := hpoint
      refine ⟨hlogged, hsaves, hreading, fun hinv hst => ?_,
        fun todo ht => absurd (by rw [ht]; trivial) hno, fun hp => absurd hp hne⟩
      obtain ⟨hinv₀, hst₀⟩ := ZeroLog.called_before he hcall hinv hst
      have hend := (h.called hinv₀ hst₀).resolve_left hloop
      rw [hclient] at hst
      exact absurd hst (control_snapshotted hend).2.1

theorem ZeroLog.Sound.receive {pkt : RxPacket} {ctxt : Context} (h : z.Sound)
    (he : z.next e = some z') (hrx : rxControl z.sync.client.ctxt pkt = some ctxt)
    (hclient : z'.sync.client = { z.sync.client with ctxt := ctxt })
    (hsent : z'.sync.sent = z.sync.sent) (hcall : z.sync.invalidates e = none)
    (hreply : pkt.isReply = true → ∃ k r, e = .deliver k ∧ z.sync.replies[k]? = some r ∧ r.pkt = pkt)
    (htimely : z.Timely e) : z'.Sound := by
  obtain ⟨hsaves, hreading, -⟩ := receive_saving h.saves h.reading (rxControl_cases hrx) hclient
  have hlogged := h.logged.next he
  by_cases hst : z.sync.client.ctxt.status = .snapshotting
  · obtain ⟨_, hview, hmap, hctxt⟩ := rxControl_snapshotting hst hrx
    refine ⟨hlogged, hsaves, hreading, fun hinv hst' => ?_, fun todo ht => ?_, fun hp hinv => ?_⟩
    · rw [hclient]
      exact h.called (ZeroLog.called_before he hcall hinv hst').1 hst
    · rw [hclient] at ht
      rcases hctxt with ⟨rfl, hr⟩ | rfl
      · obtain ⟨k, r, rfl, hk, rfl⟩ := hreply hr
        exact (h.zeroing todo ht).deliver h.logged ht hst htimely hk he hclient
      · exact (h.zeroing todo ht).idle he hst hcall hclient hsent
    · rw [hclient] at hp
      have hinv₀ := (ZeroLog.next_uncalled he hcall hst).2.symm.trans hinv
      exact (h.cleared hp hinv₀).next he hinv₀ (by rw [hclient]; exact hview) (by rw [hclient]; exact hmap)
  · have hout : ¬ z.sync.client.point.Saves := fun hs => hst (h.saves hs)
    refine ⟨hlogged, hsaves, hreading, fun hinv hst' => ?_, fun todo ht => ?_, fun hp => ?_⟩
    · exact absurd (ZeroLog.called_before he hcall hinv hst').2 hst
    · rw [hclient] at ht
      exact absurd (by rw [ht]; trivial) hout
    · rw [hclient] at hp
      exact absurd (by rw [hp]; trivial) hout

/-- **What one step preserves.** -/
theorem ZeroLog.Sound.next (h : z.Sound) (he : z.next e = some z') (htimely : z.Timely e) :
    z'.Sound := by
  obtain ⟨y, hy, hz'⟩ := Option.map_eq_some_iff.1 he
  rcases SyncSystem.next_cases hy with ⟨c, sent, hmoved, hcases⟩ | ⟨hclient, hsent, hcases⟩
  · rcases hcases with ⟨ch, rfl, -, -⟩ | ⟨pkt, ctxt, hrx, rfl, rfl, hevent⟩
    · exact h.control he htimely
    · have hclient : z'.sync.client = { z.sync.client with ctxt := ctxt } := by
        rw [← hz', hmoved]
        rfl
      have hsent : z'.sync.sent = z.sync.sent := by
        rw [← hz', hmoved]
        exact List.append_nil _
      rcases hevent with ⟨rfl, hno⟩ | ⟨k, r, rfl, hk, hpkt⟩
      · exact h.receive he hrx hclient hsent rfl (fun hr => by simp [hno] at hr) htimely
      · exact h.receive he hrx hclient hsent rfl (fun _ => ⟨k, r, rfl, hk, hpkt⟩) htimely
  · have hcall : z.sync.invalidates e = none := by
      rcases hcases with ⟨_, _, _, rfl, _⟩ | ⟨_, _, _, rfl, _⟩ <;> rfl
    have hclient : z'.sync.client = z.sync.client := by rw [← hz']; exact hclient
    have hsent : z'.sync.sent = z.sync.sent := by rw [← hz']; exact hsent
    refine ⟨h.logged.next he, ?_, ?_, fun hinv hst => ?_, fun todo ht => ?_, fun hp hinv => ?_⟩
    · rw [hclient]; exact h.saves
    · rw [hclient]; exact h.reading
    · obtain ⟨hinv₀, hst₀⟩ := ZeroLog.called_before he hcall hinv hst
      rw [hclient]
      exact h.called hinv₀ hst₀
    · rw [hclient] at ht
      exact (h.zeroing todo ht).idle he (h.saves (by rw [ht]; trivial)) hcall hclient hsent
    · rw [hclient] at hp
      have hst := h.saves (by rw [hp]; trivial)
      have hinv₀ := (ZeroLog.next_uncalled he hcall hst).2.symm.trans hinv
      exact (h.cleared hp hinv₀).next he hinv₀ (by rw [hclient]) (by rw [hclient])

/-- The log at the start. -/
structure ZeroLog.Initial (z : ZeroLog) : Prop where
  sync : z.sync.Initial
  answered : z.answered = []
  taken : ∀ s j, z.taken s j = 0
  since : z.since = 0
  invalidated : z.invalidated = false

theorem ZeroLog.Initial.sound (h : z.Initial) : z.Sound := by
  have hpoint := h.sync.client.point
  refine ⟨⟨by simp [h.answered, h.sync.replies], fun k r i hr => ?_, fun s j => ?_, ?_⟩, fun hs => ?_,
    passDone_of_point fun todo hp => ?_, fun hinv => ?_, fun todo ht => ?_, fun hp => ?_⟩
  · simp [h.sync.replies] at hr
  · simp [h.taken s j]
  · simp [h.since]
  · rw [hpoint] at hs
    exact hs.elim
  · rw [hpoint] at hp
    cases hp
  · simp [h.invalidated] at hinv
  · rw [hpoint] at ht
    cases ht
  · rw [hpoint] at hp
    cases hp

/-- In the loop that invalidates, the status stays. -/
theorem status_of_invalidates (h : z.Sound) (hloop : z.sync.client.point.Invalidates)
    (he : z.next e = some z') : z'.sync.client.ctxt.status = .snapshotting := by
  obtain ⟨todo, hpoint⟩ := ControlPoint.invalidates_iff.1 hloop
  have hst := h.saves (by rw [hpoint]; trivial)
  obtain ⟨y, hy, rfl⟩ := Option.map_eq_some_iff.1 he
  rcases SyncSystem.next_cases hy with ⟨c, sent, rfl, hcases⟩ | ⟨hclient, _, _⟩
  · rcases hcases with ⟨ch, -, rfl, -⟩ | ⟨pkt, ctxt, hrx, rfl, -, -⟩
    · show (z.sync.client.control ch).1.ctxt.status = .snapshotting
      unfold Client.control
      rw [hpoint]
      cases todo with
      | nil =>
          dsimp only
          split_ifs <;> exact hst
      | cons x rest =>
          dsimp only [Client.visitInvalidate]
          split_ifs <;> exact hst
    · exact (rxControl_snapshotting hst hrx).1
  · rw [hclient]
    exact hst

/-- **A client that goes on has cleared its memory**, in every run of timely steps. -/
theorem invalidation_clears {z₀ : ZeroLog} {es : List SyncEvent} (h₀ : z₀.Initial)
    (h : Run (fun z e z' => ZeroLog.next z e = some z' ∧ z.Timely e) z₀ es z)
    (he : z.next e = some z') (hgoes : z.GoesOn z') : Cleared z' := by
  have hsound := h.invariant (I := ZeroLog.Sound) (fun _ _ _ h he => h.next he.1 he.2) h₀.sound
  rcases hsound.called hgoes.invalidated hgoes.before with hloop | hend
  · exact absurd (status_of_invalidates hsound hloop he) hgoes.after
  · have hcleared := hsound.cleared hend hgoes.invalidated
    obtain ⟨y, hy, hz'⟩ := Option.map_eq_some_iff.1 he
    have hkeep : y.client.ctxt.view = z.sync.client.ctxt.view ∧
        y.client.ctxt.allocation.syncmap = z.sync.client.ctxt.allocation.syncmap := by
      rcases SyncSystem.next_cases hy with ⟨c, sent, rfl, hcases⟩ | ⟨hclient, _, _⟩
      · rcases hcases with ⟨ch, -, rfl, -⟩ | ⟨pkt, ctxt, hrx, rfl, -, -⟩
        · exact (control_snapshotted hend).2.2
        · obtain ⟨_, hview, hmap, _⟩ := rxControl_snapshotting hgoes.before hrx
          exact ⟨hview, hmap⟩
      · exact ⟨by rw [hclient], by rw [hclient]⟩
    exact hcleared.next he hgoes.invalidated (by rw [← hz']; exact hkeep.1) (by rw [← hz']; exact hkeep.2)

/-! ### Words that are not written -/

deriving instance DecidableEq for TxPacket

deriving instance DecidableEq for Invalidation

theorem ZeroLog.zeroed_iff {s : Stage} {j : ℕ} : z.Zeroed s j ↔
    ∃ i < z.sync.sent.length, z.taken s j ≤ i ∧ z.sync.sent[i]? = some (.memremap s j 0) ∧
      z.received i = true :=
  ⟨fun ⟨i, h⟩ => ⟨i, (List.getElem?_eq_some_iff.1 h.2.1).1, h⟩, fun ⟨i, _, h⟩ => ⟨i, h⟩⟩

instance (z : ZeroLog) (s : Stage) (j : ℕ) : Decidable (z.Zeroed s j) :=
  decidable_of_iff' _ ZeroLog.zeroed_iff

theorem MemoryRegion.unmarked_iff (r : MemoryRegion) : r.Unmarked ↔
    ∀ s, r.validStages s = true → ∀ j < (r.syncData s).memEnd.toNat + 1,
      (r.syncData s).InRange j → (r.syncData s).valid j = false :=
  ⟨fun h s hs j _ hj => h s hs j hj, fun h s hs j hj => h s hs j (Nat.lt_succ_of_le hj.2) hj⟩

instance (r : MemoryRegion) : Decidable r.Unmarked := decidable_of_iff' _ r.unmarked_iff

instance (z : ZeroLog) (e : SyncEvent) : Decidable (z.Timely e) :=
  match e with
  | .control _ => inferInstanceAs (Decidable (_ → _))
  | .deliver _ => inferInstanceAs (Decidable (_ → _))
  | .receive _ | .execute _ | .write _ _ _ => .isTrue trivial

theorem ZeroLog.goesOn_iff : z.GoesOn z' ↔ z.sync.client.ctxt.status = .snapshotting ∧
    z'.sync.client.ctxt.status ≠ .snapshotting ∧ z.invalidated = true :=
  ⟨fun h => ⟨h.before, h.after, h.invalidated⟩, fun h => ⟨h.1, h.2.1, h.2.2⟩⟩

instance (z z' : ZeroLog) : Decidable (z.GoesOn z') := decidable_of_iff' _ ZeroLog.goesOn_iff

/-- A client that starts, with an empty log. -/
def startingLog : ZeroLog := ⟨startingSync, [], fun _ => false, fun _ _ => 0, 0, false⟩

theorem initial_startingLog : startingLog.Initial := ⟨initial_startingSync, rfl, fun _ _ => rfl, rfl, rfl⟩

/-- A client reads two words, and `memory_invalidate` is called. -/
def callsInvalidate (inv : Invalidation) : List SyncEvent :=
  syncAllocation ++ readsTwoWords 1 ++ [.control { quietChoice with invalidation := inv }]

/-- The two words are overwritten with zero. -/
def writesZeros : List SyncEvent :=
  quietSteps 3 ++ [.execute 2, .execute 3, .deliver 2, .deliver 3] ++ quietSteps 4

/-- A run in which the words are cleared. -/
theorem invalidation_clears_two :
    ∃ z z', Run (fun z e z' => ZeroLog.next z e = some z' ∧ z.Timely e) startingLog
        (callsInvalidate .hh ++ writesZeros) z ∧
      z.next (.control quietChoice) = some z' ∧ z.GoesOn z' ∧ Cleared z' := by
  have hrun : ((callsInvalidate .hh ++ writesZeros).foldlM
      (fun z e => if ZeroLog.Timely z e then ZeroLog.next z e else none) startingLog).map
        (fun z => (z.next (.control quietChoice)).map fun z' => decide (z.GoesOn z')) =
          some (some true) := by
    decide +kernel
  obtain ⟨z, hz, hend⟩ := Option.map_eq_some_iff.1 hrun
  obtain ⟨z', hz', hend⟩ := Option.map_eq_some_iff.1 hend
  have hgoes := of_decide_eq_true hend
  exact ⟨z, z', run_of_foldlM hz, hz', hgoes,
    invalidation_clears initial_startingLog (run_of_foldlM hz) hz' hgoes⟩

/-- A run in which the client goes on although a word has not been zeroed. -/
theorem not_cleared_of_execute {es : List SyncEvent}
    (hrun : (es.foldlM ZeroLog.next startingLog).map
        (fun z => (z.next (.control quietChoice)).map fun z' => decide (z.GoesOn z' ∧
          z'.sync.client.ctxt.allocation.validStages 1 = true ∧
          z'.sync.client.ctxt.allocation.syncmap 1 = true ∧
          (z'.sync.client.ctxt.allocation.syncData 1).InRange 0 ∧ ¬ z'.Zeroed 1 0)) =
            some (some true)) :
    ∃ z z', Run (fun z e z' => ZeroLog.next z e = some z') startingLog es z ∧
      z.next (.control quietChoice) = some z' ∧ z.GoesOn z' ∧ ¬ Cleared z' := by
  obtain ⟨z, hz, hend⟩ := Option.map_eq_some_iff.1 hrun
  obtain ⟨z', hz', hend⟩ := Option.map_eq_some_iff.1 hend
  obtain ⟨hgoes, hvalid, hmap, hrange, hnot⟩ := of_decide_eq_true hend
  exact ⟨z, z', Run.of_foldlM hz, hz', hgoes, fun h => hnot (h 1 hvalid hmap 0 hrange)⟩

/-- **The words are not written**: for a cache because they are marked, for a heavy hitter after the
replies of the reads have arrived once more. -/
theorem invalidation_skipped :
    (∃ z z', Run (fun z e z' => ZeroLog.next z e = some z') startingLog
        (callsInvalidate .cache ++ quietSteps 4) z ∧
      z.next (.control quietChoice) = some z' ∧ z.GoesOn z' ∧ ¬ Cleared z') ∧
    ∃ z z', Run (fun z e z' => ZeroLog.next z e = some z') startingLog
        (callsInvalidate .hh ++ [.deliver 0, .deliver 1] ++ quietSteps 4) z ∧
      z.next (.control quietChoice) = some z' ∧ z.GoesOn z' ∧ ¬ Cleared z' :=
  ⟨not_cleared_of_execute (by decide +kernel), not_cleared_of_execute (by decide +kernel)⟩

end Runs

end ActiveRmt
