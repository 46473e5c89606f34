/-
**Writing the memory of a client.**

When a client updates its memory, or has a new allocation, the control loop sends a packet for each word
and goes on until every word has been acknowledged; so it was meant.  The loop that writes sets the
progress variable of the loop that reads, so its own variable stays false and the loop makes one pass.
The acknowledgements that arrive later are not waited for.

Main definitions:

* `WriteLog` — a client, the words that have been acknowledged since its status was entered, and whether
  the loop that writes was asked for;
* `AllReceived` — every word of every valid stage has been acknowledged;
* `WriteLog.Resumes` — the control loop is about to let the client transmit.

Main results:

* `resetting_single_pass` — **the loop that writes ends after one pass**, whatever is acknowledged;
* `writes_complete` — **when a client transmits with its memory written**: exactly when every word was
  acknowledged before the loop began.
-/

import ActiveRmt.Adoption

set_option relaxedAutoImplicit false
set_option autoImplicit false

namespace ActiveRmt

/-- The memory of the client is being written. -/
def ClientStatus.IsWrite (st : ClientStatus) : Prop := st = .updating ∨ st = .remapping

instance (st : ClientStatus) : Decidable st.IsWrite := inferInstanceAs (Decidable (_ ∨ _))

/-- **A client whose acknowledgements are counted.** -/
structure WriteLog where
  /-- The client. -/
  client : Client
  /-- The words acknowledged since the status was entered. -/
  received : Stage → ℕ → Bool
  /-- `memory_reset` has asked for a write in the case that is running. -/
  asked : Bool

/-- The words acknowledged by a step. -/
def Client.note (c : Client) (received : Stage → ℕ → Bool) : ClientEvent → Stage → ℕ → Bool
  | .receive pkt => fun s j =>
      received s j ||
        decide (c.ctxt.status.IsWrite ∧ pkt.isReply = true ∧ pkt.stageId = some s ∧ pkt.memAddr = j)
  | .control _ => received

/-- The control loop is before the switch over the status. -/
def ControlPoint.IsDispatch : ControlPoint → Prop
  | .dispatch => True
  | _ => False

instance (p : ControlPoint) : Decidable p.IsDispatch :=
  match p with
  | .dispatch => .isTrue trivial
  | .resetting _ | .reset | .snapshotting _ | .invalidating _ | .snapshotted => .isFalse id

/-- A case that writes begins, with what `memory_reset` says. -/
def Client.begins (c : Client) : ClientEvent → Option Bool
  | .receive _ => none
  | .control ch => if c.point.IsDispatch ∧ c.ctxt.status.IsWrite then some ch.reset else none

/-- **A step of the client.**  What was acknowledged is forgotten when a status is entered. -/
def WriteLog.next (w : WriteLog) (e : ClientEvent) : Option WriteLog :=
  (w.client.next e).map fun c =>
    { client := c
      received :=
        if c.ctxt.status.IsWrite ∧ c.ctxt.status ≠ w.client.ctxt.status then fun _ _ => false
        else w.client.note w.received e
      asked := (w.client.begins e).getD w.asked }

/-- **Every word of every valid stage has been acknowledged.** -/
def AllReceived (w : WriteLog) : Prop :=
  ∀ s, w.client.ctxt.allocation.validStages s = true →
    ∀ j, (w.client.ctxt.allocation.syncData s).InRange j → w.received s j = true

theorem allReceived_iff (w : WriteLog) : AllReceived w ↔
    ∀ s, w.client.ctxt.allocation.validStages s = true →
      ∀ j < (w.client.ctxt.allocation.syncData s).memEnd.toNat + 1,
        (w.client.ctxt.allocation.syncData s).InRange j → w.received s j = true :=
  ⟨fun h s hs j _ hj => h s hs j hj, fun h s hs j hj => h s hs j (Nat.lt_succ_of_le hj.2) hj⟩

instance (w : WriteLog) : Decidable (AllReceived w) := decidable_of_iff' _ (allReceived_iff w)

/-- **The control loop is about to let the client transmit**, after it was asked to write. -/
structure WriteLog.Resumes (w : WriteLog) : Prop where
  point : w.client.point = .reset
  status : w.client.ctxt.status.IsWrite
  asked : w.asked = true

theorem WriteLog.resumes_iff (w : WriteLog) : w.Resumes ↔
    w.client.point = .reset ∧ w.client.ctxt.status.IsWrite ∧ w.asked = true :=
  ⟨fun h => ⟨h.point, h.status, h.asked⟩, fun h => ⟨h.1, h.2.1, h.2.2⟩⟩

instance (w : WriteLog) : Decidable w.Resumes := decidable_of_iff' _ w.resumes_iff

/-- The write that begins has nothing to wait for. -/
def WriteLog.Ready (w : WriteLog) (e : ClientEvent) : Prop :=
  w.client.begins e = some true → AllReceived w

instance (w : WriteLog) (e : ClientEvent) : Decidable (w.Ready e) :=
  inferInstanceAs (Decidable (_ → _))

/-! ### What a step leaves alone -/

section Steps

variable {w w' : WriteLog} {e : ClientEvent}

/-- While a client writes, it does not adopt a response. -/
theorem validStages_of_receive {c c' : Context} {pkt : RxPacket} (h : Received c pkt c')
    (hst : c.status.IsWrite ∨ c.status = .snapshotting) :
    c'.allocation.validStages = c.allocation.validStages ∧
      ∀ s j, (c'.allocation.syncData s).InRange j ↔ (c.allocation.syncData s).InRange j := by
  have hno : ¬ c.adopts pkt := by
    rintro ⟨hst' | hst', -⟩ <;> simp [hst', ClientStatus.IsWrite] at hst
  exact Context.stages_of_view (h.view hno)

theorem inRange_control (c : Client) (ch : Choice) :
    (c.control ch).1.ctxt.allocation.validStages = c.ctxt.allocation.validStages ∧
      ∀ s j, ((c.control ch).1.ctxt.allocation.syncData s).InRange j ↔
        (c.ctxt.allocation.syncData s).InRange j :=
  Context.stages_of_view (view_control c ch).1

/-- A packet does not make a client write that did not, unless it is a response. -/
theorem isWrite_of_receive {c c' : Context} {pkt : RxPacket} (h : Received c pkt c')
    (hst : c.status.IsWrite ∨ c.status = .snapshotting) :
    (c'.status.IsWrite ∨ c'.status = .snapshotting) ∧
      (c'.status.IsWrite → c'.status = c.status) := by
  cases h with
  | granted hst' => simp [hst', ClientStatus.IsWrite] at hst
  | adopted hadopts =>
      rcases hadopts.1 with hst' | hst' <;> simp [hst', ClientStatus.IsWrite] at hst
  | read => rw [(invalid_recordReply c pkt).2]; exact ⟨hst, fun _ => rfl⟩
  | written => rw [(invalid_recordWrite c pkt).2]; exact ⟨hst, fun _ => rfl⟩
  | remapped => exact ⟨Or.inr rfl, fun hw => by simp [acceptRemap, ClientStatus.IsWrite] at hw⟩
  | ignored => exact ⟨hst, fun _ => rfl⟩

/-- What is acknowledged stays so while the status stays. -/
theorem AllReceived.congr {w w' : WriteLog} (h : AllReceived w)
    (hvalid : w'.client.ctxt.allocation.validStages = w.client.ctxt.allocation.validStages)
    (hrange : ∀ s j, (w'.client.ctxt.allocation.syncData s).InRange j ↔
      (w.client.ctxt.allocation.syncData s).InRange j)
    (hreceived : ∀ s j, w.received s j = true → w'.received s j = true) : AllReceived w' := by
  intro s hs j hj
  rw [hvalid] at hs
  exact hreceived s j (h s hs j ((hrange s j).1 hj))

/-- **What holds in the middle of a write**: the client writes or was told to save its memory, and if it
was asked to write and still does, all words are acknowledged. -/
def WriteLog.Settled (w : WriteLog) : Prop :=
  w.client.point.Writes →
    (w.client.ctxt.status.IsWrite ∨ w.client.ctxt.status = .snapshotting) ∧
      (w.asked = true → w.client.ctxt.status.IsWrite → AllReceived w)

theorem WriteLog.Settled.receive {ctxt : Context} {pkt : RxPacket} (h : w.Settled)
    (hrx : Received w.client.ctxt pkt ctxt) (he : w.next (.receive pkt) = some w')
    (hw' : w'.client = { w.client with ctxt := ctxt }) : w'.Settled := by
  obtain ⟨c, hc, rfl⟩ := Option.map_eq_some_iff.1 he
  obtain rfl : c = { w.client with ctxt := ctxt } := hw'
  intro hwrites
  obtain ⟨hst, hall⟩ := h hwrites
  obtain ⟨hst', hsame⟩ := isWrite_of_receive hrx hst
  refine ⟨hst', fun hasked hwrite => ?_⟩
  have hstatus := hsame hwrite
  have hreceived : ∀ s j, w.received s j = true → (if ctxt.status.IsWrite ∧
      ctxt.status ≠ w.client.ctxt.status then fun _ _ => false
        else w.client.note w.received (.receive pkt)) s j = true := by
    intro s j hs
    rw [if_neg fun h => h.2 hstatus]
    simp [Client.note, hs]
  exact (hall hasked (hstatus ▸ hwrite)).congr (validStages_of_receive hrx hst).1
    (validStages_of_receive hrx hst).2 hreceived

/-- **The control loop in the middle of a write**, one step on. -/
theorem control_writes {c : Client} {ch : Choice} (h : c.point.Writes)
    (h' : (c.control ch).1.point.Writes) : (c.control ch).1.ctxt = c.ctxt := by
  unfold Client.control at h' ⊢
  split at h' <;> rename_i hpoint <;> rw [hpoint] at h
  case h_7 =>
      unfold Client.visitReset
      split_ifs <;> rfl
  case h_8 => split_ifs <;> rfl
  case h_9 => exact h'.elim
  all_goals exact h.elim

/-- A write begins before the switch over the status. -/
theorem control_begins {c : Client} {ch : Choice} (h : ¬ c.point.Writes)
    (h' : (c.control ch).1.point.Writes) :
    c.begins (.control ch) = some ch.reset ∧ c.ctxt.status.IsWrite ∧
      (c.control ch).1.ctxt.status = c.ctxt.status := by
  unfold Client.control at h' ⊢
  split at h' <;> rename_i hpoint
  case h_1 =>
      unfold Client.dispatch at h' ⊢
      split at h' <;> rename_i hst
      case h_5 | h_6 =>
          have hwrite : c.ctxt.status.IsWrite := by simp [hst, ClientStatus.IsWrite]
          exact ⟨by simp [Client.begins, hpoint, ControlPoint.IsDispatch, hwrite], hwrite, rfl⟩
      all_goals exact absurd h' (by simp [hpoint, ControlPoint.Writes])
  case h_2 =>
      unfold Client.visitSnapshot at h'
      split_ifs at h' <;> exact h'.elim
  case h_3 =>
      split_ifs at h'
      · exact h'.elim
      · cases hinv : ch.invalidation <;>
          simp [Client.leaveSnapshot, hinv, Invalidation.apply, ControlPoint.Writes] at h'
  case h_4 =>
      unfold Client.visitInvalidate at h'
      split_ifs at h' <;> exact h'.elim
  case h_5 => split_ifs at h' <;> exact h'.elim
  case h_6 => exact h'.elim
  all_goals exact absurd (by rw [hpoint]; trivial) h

theorem begins_of_writes {c : Client} {ch : Choice} (h : c.point.Writes) :
    c.begins (.control ch) = none := by
  cases hp : c.point <;> rw [hp] at h <;>
    first | exact h.elim | simp [Client.begins, hp, ControlPoint.IsDispatch]

theorem WriteLog.Settled.control {ch : Choice} (h : w.Settled)
    (he : w.next (.control ch) = some w') (hready : w.Ready (.control ch)) : w'.Settled := by
  obtain ⟨c, hc, rfl⟩ := Option.map_eq_some_iff.1 he
  obtain rfl := Client.next_control.1 hc
  obtain ⟨hvalid, hrange⟩ := inRange_control w.client ch
  intro hwrites
  by_cases hbefore : w.client.point.Writes
  · obtain ⟨hst, hall⟩ := h hbefore
    have hctxt := control_writes hbefore hwrites
    refine ⟨by rw [hctxt]; exact hst, fun hasked hwrite => ?_⟩
    rw [begins_of_writes hbefore] at hasked
    refine (hall hasked (hctxt ▸ hwrite)).congr hvalid hrange fun s j hs => ?_
    dsimp only
    rwa [if_neg fun h => h.2 (by rw [hctxt])]
  · obtain ⟨hbegins, hst, hstatus⟩ := control_begins hbefore hwrites
    refine ⟨Or.inl (by rw [hstatus]; exact hst), fun hasked _ => ?_⟩
    rw [hbegins] at hasked
    refine (hready (by rw [hbegins]; exact congrArg some hasked)).congr hvalid hrange fun s j hs => ?_
    dsimp only
    rwa [if_neg fun h => h.2 hstatus]

theorem WriteLog.Settled.next (h : w.Settled) (he : w.next e = some w') (hready : w.Ready e) :
    w'.Settled := by
  cases e with
  | receive pkt =>
      obtain ⟨c, hc, hw'⟩ := Option.map_eq_some_iff.1 he
      obtain ⟨ctxt, hrx, rfl⟩ := Client.next_receive.1 hc
      exact h.receive (rxControl_cases hrx) he (by rw [← hw'])
  | control ch => exact h.control he hready

end Steps

/-! ### The loop makes one pass -/

section Pass

/-- The loop is in its pass, with words left. -/
structure InPass (w : WriteLog) (todo : List (Stage × ℕ)) : Prop where
  point : w.client.point = .resetting todo
  remapping : w.client.inProgress.remapping = false

/-- What a pass leaves alone: the context, what is acknowledged and what was asked for. -/
structure SameRound (w w' : WriteLog) : Prop where
  ctxt : w'.client.ctxt = w.client.ctxt
  received : w'.received = w.received
  asked : w'.asked = w.asked

theorem SameRound.trans {w w' w'' : WriteLog} (h : SameRound w w') (h' : SameRound w' w'') :
    SameRound w w'' :=
  ⟨h'.ctxt.trans h.ctxt, h'.received.trans h.received, h'.asked.trans h.asked⟩

/-- A step in the middle of a write, without a packet. -/
theorem sameRound_control {w w' : WriteLog} {ch : Choice} (hwrites : w.client.point.Writes)
    (hctxt : (w.client.control ch).1.ctxt = w.client.ctxt)
    (he : w.next (.control ch) = some w') :
    SameRound w w' ∧ w'.client = (w.client.control ch).1 := by
  obtain ⟨c, hc, rfl⟩ := Option.map_eq_some_iff.1 he
  obtain rfl := Client.next_control.1 hc
  refine ⟨⟨hctxt, ?_, ?_⟩, rfl⟩
  · exact if_neg fun h => h.2 (by rw [hctxt])
  · rw [begins_of_writes hwrites]
    rfl

theorem next_control_isSome (w : WriteLog) (ch : Choice) : ∃ w', w.next (.control ch) = some w' :=
  ⟨_, rfl⟩

/-- A word of the pass. -/
theorem InPass.visit {w : WriteLog} {x : Stage × ℕ} {todo : List (Stage × ℕ)}
    (h : InPass w (x :: todo)) (ch : Choice) :
    ∃ w', w.next (.control ch) = some w' ∧ InPass w' todo ∧ SameRound w w' := by
  obtain ⟨w', he⟩ := next_control_isSome w ch
  have hwrites : w.client.point.Writes := by rw [h.point]; trivial
  have hcontrol : w.client.control ch = w.client.visitReset ch x todo := by
    rw [Client.control, h.point]
  have hvisit : (w.client.visitReset ch x todo).1.ctxt = w.client.ctxt ∧
      (w.client.visitReset ch x todo).1.point = .resetting todo ∧
      (w.client.visitReset ch x todo).1.inProgress.remapping = w.client.inProgress.remapping := by
    unfold Client.visitReset
    split_ifs <;> exact ⟨rfl, rfl, rfl⟩
  obtain ⟨hsame, hclient⟩ := sameRound_control hwrites (by rw [hcontrol]; exact hvisit.1) he
  rw [hcontrol] at hclient
  exact ⟨w', he, ⟨by rw [hclient]; exact hvisit.2.1, by rw [hclient, hvisit.2.2]; exact h.remapping⟩,
    hsame⟩

/-- **The loop that writes ends after one pass**, whatever is acknowledged: no word of the pass sets the
progress variable of the loop. -/
theorem resetting_single_pass (ch : Choice) {w : WriteLog} {todo : List (Stage × ℕ)}
    (h : InPass w todo) :
    ∃ es w', Run (fun w e w' => WriteLog.next w e = some w') w es w' ∧
      w'.client.point = .reset ∧ SameRound w w' := by
  induction todo generalizing w with
  | nil =>
      obtain ⟨w', he⟩ := next_control_isSome w ch
      have hwrites : w.client.point.Writes := by rw [h.point]; trivial
      have hcontrol : (w.client.control ch).1 = { w.client with point := .reset } := by
        rw [Client.control, h.point]
        simp only [h.remapping, Bool.false_eq_true, if_false]
      obtain ⟨hsame, hclient⟩ := sameRound_control hwrites (by rw [hcontrol]) he
      exact ⟨_, w', Run.single he, by rw [hclient, hcontrol], hsame⟩
  | cons x todo ih =>
      obtain ⟨v, he, hpass, hsame⟩ := h.visit ch
      obtain ⟨es, w', hrun, hpoint, hsame'⟩ := ih hpass
      exact ⟨_, w', (Run.single he).append hrun, hpoint, hsame.trans hsame'⟩

/-- **A write that begins may end with nothing more acknowledged.** -/
theorem exists_resumes {w : WriteLog} {ch : Choice} (h : w.client.begins (.control ch) = some true) :
    ∃ es w', Run (fun w e w' => WriteLog.next w e = some w') w (.control ch :: es) w' ∧
      w'.Resumes ∧ (AllReceived w' → AllReceived w) := by
  obtain ⟨hdispatch, hstatus⟩ : w.client.point.IsDispatch ∧ w.client.ctxt.status.IsWrite := by
    by_contra hno
    rw [Client.begins, if_neg hno] at h
    cases h
  have hreset : ch.reset = true := by
    rw [Client.begins, if_pos ⟨hdispatch, hstatus⟩] at h
    exact Option.some.inj h
  have hpoint : w.client.point = .dispatch := by
    cases hp : w.client.point <;> rw [hp] at hdispatch <;> first | rfl | exact hdispatch.elim
  -- the begin step prepares the buffer of the write and sets the progress variable
  set c := (w.client.control ch).1 with hc
  have hbegin : c.ctxt.status = w.client.ctxt.status ∧ c.point = .resetting [] ∧
      c.inProgress.remapping = true := by
    rw [hc, Client.control, hpoint]
    dsimp only [Client.dispatch]
    rcases hstatus with hst | hst <;> simp [hst, hreset]
  set w₁ : WriteLog := ⟨c, w.received, true⟩ with hw₁
  have he₁ : w.next (.control ch) = some w₁ := by
    have hnext : w.client.next (.control ch) = some c := Client.next_control.2 rfl
    rw [WriteLog.next, hnext, Option.map_some, h, if_neg fun hn => hn.2 hbegin.1]
    rfl
  -- the test of the loop starts the pass and clears the variable
  have hwrites : w₁.client.point.Writes := by rw [hw₁, hbegin.2.1]; trivial
  have htest : (w₁.client.control ch).1 =
      { c with
        point := .resetting c.ctxt.allocation.words
        inProgress := { c.inProgress with remapping := false } } := by
    rw [hw₁, Client.control, hbegin.2.1]
    simp only [hbegin.2.2, if_true]
  obtain ⟨w₂, he₂⟩ := next_control_isSome w₁ ch
  obtain ⟨hsame₂, hclient₂⟩ := sameRound_control hwrites (by rw [htest]) he₂
  obtain ⟨es, w', hrun, hend, hsame⟩ := resetting_single_pass ch
    (show InPass w₂ c.ctxt.allocation.words from ⟨by rw [hclient₂, htest], by rw [hclient₂, htest]⟩)
  have hall := hsame₂.trans hsame
  refine ⟨_, w', (Run.single he₁).append ((Run.single he₂).append hrun), ⟨hend, ?_, hall.asked⟩, ?_⟩
  · rw [hall.ctxt, hw₁, hbegin.1]
    exact hstatus
  · intro hreceived
    obtain ⟨hvalid, hrange⟩ := inRange_control w.client ch
    refine hreceived.congr ?_ ?_ fun s j hs => ?_
    · rw [hall.ctxt]
      exact hvalid.symm
    · intro s j
      rw [hall.ctxt]
      exact (hrange s j).symm
    · rwa [hall.received] at hs

end Pass

/-! ### Runs -/

/-- A log of a client that starts. -/
def WriteLog.start (c : Client) : WriteLog := ⟨c, fun _ _ => false, false⟩

/-- **When a client transmits with its memory written.**  In every run in which each write that is asked
for begins with all words acknowledged already, all words are acknowledged when the client goes on to
transmit; and from a state in which a write begins otherwise, the client may go on without any more
acknowledgements. -/
theorem writes_complete {c₀ : Client} (h₀ : c₀.Initial) :
    (∀ es w, Run (fun w e w' => WriteLog.next w e = some w' ∧ WriteLog.Ready w e) (.start c₀) es w →
      w.Resumes → AllReceived w) ∧
    ∀ w : WriteLog, ∀ ch, w.client.begins (.control ch) = some true → ¬ AllReceived w →
      ∃ es w', Run (fun w e w' => WriteLog.next w e = some w') w (.control ch :: es) w' ∧
        w'.Resumes ∧ ¬ AllReceived w' := by
  constructor
  · intro es w hrun hresumes
    have hstart : (WriteLog.start c₀).Settled := fun hw => by
      rw [WriteLog.start, h₀.point] at hw
      exact hw.elim
    have hsettled := hrun.invariant (I := WriteLog.Settled) (fun _ _ _ h he => h.next he.1 he.2) hstart
    exact (hsettled (by rw [hresumes.point]; trivial)).2 hresumes.asked hresumes.status
  · intro w ch hbegins hnot
    obtain ⟨es, w', hrun, hresumes, hall⟩ := exists_resumes hbegins
    exact ⟨es, w', hrun, hresumes, fun h => hnot (hall h)⟩

/-- The reply to a packet that writes a word. -/
def writeReply (s : Stage) (addr : BitVec 32) : RxPacket :=
  ⟨⟨flagOptArgs ||| flagInitiated ||| flagEoe ||| flagPreload, 1, 0⟩,
    ![addr, 7, BitVec.ofNat 32 s, 0], fun _ => (0, 0)⟩

/-- The timer starts an update. -/
def updateStarts : ClientEvent := .control ⟨true, .lb, false, .cache (fun _ _ => 7) true⟩

/-- The write of two words, from its beginning to the end of its pass. -/
def writesTwoWords : List ClientEvent :=
  .control ⟨true, .lb, true, .lb⟩ :: List.replicate 4 (.control quietChoice)

/-- A run in which late acknowledgements arrive before the loop begins. -/
theorem writes_complete_late :
    ∃ es w, Run (fun w e w' => WriteLog.next w e = some w' ∧ WriteLog.Ready w e)
        (.start (startingClient oneRead)) es w ∧ w.Resumes ∧ AllReceived w := by
  have hrun : ((firstAllocation ++ [updateStarts, .receive (writeReply 1 0), .receive (writeReply 1 1)] ++
      writesTwoWords).foldlM (fun w e => if WriteLog.Ready w e then WriteLog.next w e else none)
        (.start (startingClient oneRead))).map (fun w => decide w.Resumes) = some true := by
    decide +kernel
  obtain ⟨w, hw, hend⟩ := Option.map_eq_some_iff.1 hrun
  have hresumes := of_decide_eq_true hend
  exact ⟨_, w, run_of_foldlM hw, hresumes,
    (writes_complete initial_startingClient).1 _ w (run_of_foldlM hw) hresumes⟩

/-- **Nothing is acknowledged, and the client transmits.** -/
theorem writes_incomplete :
    ∃ c₀ es w, Client.Initial c₀ ∧ Run (fun w e w' => WriteLog.next w e = some w') (.start c₀) es w ∧
      w.Resumes ∧ ¬ AllReceived w := by
  have hrun : ((firstAllocation ++ [updateStarts] ++ writesTwoWords).foldlM WriteLog.next
      (.start (startingClient oneRead))).map (fun w => decide (w.Resumes ∧ ¬ AllReceived w)) =
        some true := by
    decide +kernel
  obtain ⟨w, hw, hend⟩ := Option.map_eq_some_iff.1 hrun
  obtain ⟨hresumes, hnot⟩ := of_decide_eq_true hend
  exact ⟨_, _, w, initial_startingClient, Run.of_foldlM hw, hresumes, hnot⟩

end ActiveRmt
