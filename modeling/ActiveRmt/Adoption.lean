/-
**Responses and remap notices over the life of a client.**

A client adopts an allocation response whenever it polls and the version of the response is *another*
one than its own.  It accepts a remap notice whenever it transmits or updates its memory.  What this
gives over a whole run, with every packet possible at every moment:

* the versions adopted increase exactly as long as no response older than the version of the client
  arrives while it polls;
* what the client knows follows the last response exactly as long as all responses adopted give it
  the same stages: marks of stages are never taken back, and a program whose accesses are at marked
  stages keeps the mutant it has;
* a withdrawn allocation is in use by no program as long as no remap notice arrives while the control
  loop writes an update: the end of the write sets the status without looking at it.

Main definitions:

* `History` — a client and the responses it has adopted;
* `Polling` — a client, the version of its function at the controller, and the responses sent;
* `RxPacket.WellFormed`, `FollowsLast` — a response, and what a client should know after it.

Main results:

* `remap_notice_kept` — **a withdrawn allocation is saved or replaced**;
* `versions_increasing_iff` — **when the versions adopted increase**;
* `follows_last_iff` — **when the client follows the last response**.
-/

import ActiveRmt.ControlLoop

set_option relaxedAutoImplicit false
set_option autoImplicit false

namespace ActiveRmt

/-- **A client that starts**: nothing is allocated, and the mutant of each program is its code. -/
structure Client.Initial (c : Client) : Prop where
  status : c.ctxt.status = .initializing
  allocation : c.ctxt.allocation = .zero
  membuf : c.ctxt.membuf = .zero
  mutant : ∀ pid, (c.ctxt.programs pid).mutant = (c.ctxt.programs pid).code
  point : c.point = .dispatch

/-- The state after a step of a client, unless an assertion fails. -/
def Client.next (c : Client) (e : ClientEvent) : Option Client := (c.handle e).map Prod.fst

theorem Client.next_receive {c c' : Client} {pkt : RxPacket} :
    c.next (.receive pkt) = some c' ↔
      ∃ ctxt, rxControl c.ctxt pkt = some ctxt ∧ c' = { c with ctxt := ctxt } := by
  simp only [Client.next, Client.handle, Option.map_map, Option.map_eq_some_iff, Function.comp_apply]
  simp only [eq_comm]

theorem Client.next_control {c c' : Client} {ch : Choice} :
    c.next (.control ch) = some c' ↔ c' = (c.control ch).1 := by
  simp [Client.next, Client.handle, eq_comm]

/-! ### A small client -/

/-- A program whose second instruction reads memory. -/
def oneRead : ActiveProgramDef ActiveInstr where
  code := [⟨0, 1⟩, ⟨0, 41⟩, ⟨0, 0⟩]
  accessIdx := [1]
  mutant := [⟨0, 1⟩, ⟨0, 41⟩, ⟨0, 0⟩]

/-- A client that starts, with one program. -/
def startingClient (ap4 : ActiveProgramDef ActiveInstr) : Client where
  ctxt :=
    { fid := 1
      status := .initializing
      programs := fun _ => ap4
      currentPid := 0
      allocation := .zero
      membuf := .zero
      txMux := fun _ pid => pid
      txHandler := fun inner args => (args, inner)
      rxHandler := fun _ _ inner => inner }
  point := .dispatch
  inProgress := ⟨false, false, false⟩

theorem initial_startingClient : (startingClient oneRead).Initial :=
  ⟨rfl, rfl, rfl, fun _ => rfl, rfl⟩

/-- The request of a client has arrived. -/
def requested : RxPacket := ⟨⟨flagReqalloc, 1, 0⟩, fun _ => 0, fun _ => (0, 0)⟩

/-- A response with two words of one stage. -/
def response (version : BitVec 16) (s : Stage) : RxPacket :=
  ⟨⟨flagAllocated, 1, version⟩, fun _ => 0, fun t => if t = s then (0, 1) else (0, 0)⟩

/-- The switch tells a client that its allocation is withdrawn. -/
def remapNotice (version : BitVec 16) : RxPacket :=
  ⟨⟨flagOptArgs ||| flagRemapped, 1, version⟩, fun _ => 0, fun _ => (0, 0)⟩

/-- Nothing is written, and no timer fires. -/
def quietChoice : Choice := ⟨true, .lb, false, .lb⟩

/-- A client gets its first allocation, and transmits. -/
def firstAllocation : List ClientEvent :=
  [.receive requested, .receive (response 1 1), .control quietChoice, .control quietChoice]

/-! ### Remap notices -/

section Notices

/-- The control loop is between the beginning and the end of a write. -/
def ControlPoint.Writes : ControlPoint → Prop
  | .resetting _ | .reset => True
  | _ => False

/-- The control loop is in the case of a snapshot. -/
def ControlPoint.Saves : ControlPoint → Prop
  | .snapshotting _ | .invalidating _ | .snapshotted => True
  | _ => False

instance (p : ControlPoint) : Decidable p.Writes :=
  match p with
  | .resetting _ | .reset => .isTrue trivial
  | .dispatch | .snapshotting _ | .invalidating _ | .snapshotted => .isFalse id

/-- **The step is not a remap notice for the current version in the middle of an update.** -/
def Client.Uninterrupted (c : Client) : ClientEvent → Prop
  | .receive pkt =>
      ¬ (c.point.Writes ∧ c.ctxt.status = .updating ∧ c.ctxt.isRemapNotice pkt = true)
  | .control _ => True

instance (c : Client) (e : ClientEvent) : Decidable (c.Uninterrupted e) :=
  match e with
  | .receive _ => inferInstanceAs (Decidable (¬ (_ ∧ _)))
  | .control _ => .isTrue trivial

/-- **The status fits the place of the control loop**, and outside its loops a withdrawn allocation
is being saved or replaced. -/
structure Client.Heedful (c : Client) : Prop where
  saves : c.point.Saves → c.ctxt.status = .snapshotting
  writes : c.point.Writes →
    (c.ctxt.status = .updating ∨ c.ctxt.status = .remapping) ∧ c.ctxt.allocation.invalid = false
  withdrawn : c.ctxt.allocation.invalid = true →
    c.ctxt.status = .snapshotting ∨ c.ctxt.status = .reallocating

theorem invalid_recordReply (c : Context) (pkt : RxPacket) :
    (recordReply c pkt).allocation.invalid = c.allocation.invalid ∧
      (recordReply c pkt).status = c.status := by
  unfold recordReply
  split <;> exact ⟨rfl, rfl⟩

theorem invalid_recordWrite (c : Context) (pkt : RxPacket) :
    (recordWrite c pkt).allocation.invalid = c.allocation.invalid ∧
      (recordWrite c pkt).status = c.status := by
  unfold recordWrite
  split <;> exact ⟨rfl, rfl⟩

theorem invalid_of_adopt {c c' : Context} {pkt : RxPacket} (h : adopt c pkt = some c') :
    c'.allocation.invalid = false := by
  obtain ⟨programs, -, rfl⟩ := Option.map_eq_some_iff.1 h
  rfl

/-- The place of the loop, the status and the withdrawal are all that matters. -/
theorem Client.Heedful.congr {c c' : Client} (h : c.Heedful) (hpoint : c'.point = c.point)
    (hinvalid : c'.ctxt.allocation.invalid = c.ctxt.allocation.invalid)
    (hstatus : c'.ctxt.status = c.ctxt.status) : c'.Heedful := by
  constructor
  · rw [hpoint, hstatus]
    exact h.saves
  · rw [hpoint, hstatus, hinvalid]
    exact h.writes
  · rw [hinvalid, hstatus]
    exact h.withdrawn

/-- Out of the loops a status other than the two is only reached with a valid allocation. -/
theorem Client.Heedful.valid {c : Client} (h : c.Heedful) (hsnap : c.ctxt.status ≠ .snapshotting)
    (hre : c.ctxt.status ≠ .reallocating) : c.ctxt.allocation.invalid = false := by
  by_contra hinvalid
  exact (h.withdrawn (by simpa using hinvalid)).elim hsnap hre

theorem Client.Heedful.receive {c : Client} {ctxt : Context} {pkt : RxPacket} (h : c.Heedful)
    (hrx : Received c.ctxt pkt ctxt) (hu : c.Uninterrupted (.receive pkt)) :
    Client.Heedful { c with ctxt := ctxt } := by
  cases hrx with
  | granted hst =>
      refine ⟨fun hs => ?_, fun hw => ?_, fun hi => ?_⟩
      · exact absurd (h.saves hs) (by simp [hst])
      · exact absurd (h.writes hw).1 (by simp [hst])
      · exact absurd (h.withdrawn hi) (by simp [hst])
  | adopted hadopts hadopt =>
      have hinvalid := invalid_of_adopt hadopt
      refine ⟨fun hs => ?_, fun hw => ?_, fun hi => ?_⟩
      · exact absurd (h.saves hs) fun hst => by simp [Context.adopts, hst] at hadopts
      · refine absurd (h.writes hw).1 fun hst => ?_
        rcases hst with hst | hst <;> simp [Context.adopts, hst] at hadopts
      · exact absurd hi (by simp [hinvalid])
  | read =>
      exact h.congr rfl (invalid_recordReply c.ctxt pkt).1 (invalid_recordReply c.ctxt pkt).2
  | written =>
      exact h.congr rfl (invalid_recordWrite c.ctxt pkt).1 (invalid_recordWrite c.ctxt pkt).2
  | remapped d hd hst hn =>
      refine ⟨fun _ => rfl, fun hw => ?_, fun _ => Or.inl rfl⟩
      -- the control loop writes in two statuses, and only one of them accepts notices
      rcases (h.writes hw).1 with hst' | hst'
      · exact absurd ⟨hw, hst', hn⟩ hu
      · rcases hst with hst | hst <;> rw [hst] at hst' <;> cases hst'
  | ignored => exact h

theorem Client.Heedful.dispatch {c : Client} (h : c.Heedful) (hpoint : c.point = .dispatch)
    (ch : Choice) : (c.dispatch ch).1.Heedful := by
  unfold Client.dispatch
  split <;> rename_i hst
  case h_4 => exact ⟨fun _ => hst, fun hw => hw.elim, h.withdrawn⟩
  case h_5 | h_6 =>
      have hvalid := h.valid (by simp [hst]) (by simp [hst])
      refine ⟨fun hs => ?_, fun _ => ⟨by simp [hst], hvalid⟩, h.withdrawn⟩
      dsimp only at hs
      split_ifs at hs <;> exact hs.elim
  case h_7 =>
      have hvalid := h.valid (by simp [hst]) (by simp [hst])
      refine ⟨fun hs => ?_, fun hw => ?_, fun hi => ?_⟩
      · rw [hpoint] at hs
        exact hs.elim
      · rw [hpoint] at hw
        exact hw.elim
      · rw [(view_timer c.ctxt ch.timer).2, hvalid] at hi
        cases hi
  all_goals exact h

theorem Client.Heedful.control {c : Client} (h : c.Heedful) (ch : Choice) :
    (c.control ch).1.Heedful := by
  unfold Client.control
  split <;> rename_i hpoint
  case h_1 => exact h.dispatch hpoint ch
  case h_2 =>
      have hst := h.saves (by rw [hpoint]; trivial)
      unfold Client.visitSnapshot
      split_ifs <;> exact ⟨fun _ => hst, fun hw => hw.elim, h.withdrawn⟩
  case h_3 =>
      have hst := h.saves (by rw [hpoint]; trivial)
      split_ifs
      · exact ⟨fun _ => hst, fun hw => hw.elim, h.withdrawn⟩
      · refine ⟨fun _ => hst, fun hw => ?_, fun _ => Or.inl hst⟩
        cases hinv : ch.invalidation <;>
          simp [Client.leaveSnapshot, hinv, Invalidation.apply, ControlPoint.Writes] at hw
  case h_4 =>
      have hst := h.saves (by rw [hpoint]; trivial)
      unfold Client.visitInvalidate
      split_ifs <;> exact ⟨fun _ => hst, fun hw => hw.elim, h.withdrawn⟩
  case h_5 =>
      have hst := h.saves (by rw [hpoint]; trivial)
      split_ifs <;> exact ⟨fun _ => hst, fun hw => hw.elim, h.withdrawn⟩
  case h_6 =>
      refine ⟨fun hs => hs.elim, fun hw => hw.elim, fun hi => Or.inr ?_⟩
      exact if_pos hi
  case h_7 =>
      have hst := h.writes (by rw [hpoint]; trivial)
      unfold Client.visitReset
      split_ifs <;> exact ⟨fun hs => hs.elim, fun _ => hst, h.withdrawn⟩
  case h_8 =>
      have hst := h.writes (by rw [hpoint]; trivial)
      split_ifs <;> exact ⟨fun hs => hs.elim, fun _ => hst, h.withdrawn⟩
  case h_9 =>
      have hst := h.writes (by rw [hpoint]; trivial)
      refine ⟨fun hs => hs.elim, fun hw => hw.elim, fun hi => ?_⟩
      exact absurd hi (by simp [hst.2])

theorem Client.Heedful.next {c c' : Client} {e : ClientEvent} (h : c.Heedful)
    (he : c.next e = some c') (hu : c.Uninterrupted e) : c'.Heedful := by
  cases e with
  | receive pkt =>
      obtain ⟨ctxt, hrx, rfl⟩ := Client.next_receive.1 he
      exact h.receive (rxControl_cases hrx) hu
  | control ch =>
      rw [Client.next_control.1 he]
      exact h.control ch

theorem Client.Initial.heedful {c : Client} (h : c.Initial) : c.Heedful := by
  refine ⟨fun hs => ?_, fun hw => ?_, fun hi => ?_⟩
  · rw [h.point] at hs
    exact hs.elim
  · rw [h.point] at hw
    exact hw.elim
  · rw [h.allocation] at hi
    cases hi

/-- **A withdrawn allocation is saved or replaced**: in every run without a remap notice in the middle
of an update, no program is sent against an allocation that is being withdrawn. -/
theorem remap_notice_kept {c₀ c : Client} {es : List ClientEvent} (h₀ : c₀.Initial)
    (h : Run (fun c e c' => c.next e = some c' ∧ c.Uninterrupted e) c₀ es c)
    (hinvalid : c.ctxt.allocation.invalid = true) :
    c.ctxt.status = .snapshotting ∨ c.ctxt.status = .reallocating :=
  (h.invariant (fun _ _ _ hc he => hc.next he.1 he.2) h₀.heedful).withdrawn hinvalid

/-- A notice that arrives while a client transmits. -/
theorem remap_notice_kept_transmitting :
    ∃ c : Client, Run (fun c e c' => c.next e = some c' ∧ c.Uninterrupted e) (startingClient oneRead)
        (firstAllocation ++ [.receive (remapNotice 1)]) c ∧ c.ctxt.allocation.invalid = true ∧
      (c.ctxt.status = .snapshotting ∨ c.ctxt.status = .reallocating) := by
  have hrun : ((firstAllocation ++ [ClientEvent.receive (remapNotice 1)]).foldlM
      (fun (c : Client) e => if c.Uninterrupted e then c.next e else none)
      (startingClient oneRead)).map (fun c => c.ctxt.allocation.invalid) = some true := by decide +kernel
  obtain ⟨c, hc, hinvalid⟩ := Option.map_eq_some_iff.1 hrun
  exact ⟨c, run_of_foldlM hc, hinvalid,
    remap_notice_kept initial_startingClient (run_of_foldlM hc) hinvalid⟩

/-- An update is written when the notice arrives: the client transmits again. -/
def noticeInUpdate : List ClientEvent :=
  firstAllocation ++ [.control ⟨true, .lb, false, .cache (fun _ _ => 7) true⟩,
    .control ⟨true, .lb, true, .lb⟩, .receive (remapNotice 1)] ++
      List.replicate 5 (.control quietChoice)

/-- **A notice is lost in the middle of an update.** -/
theorem remap_notice_lost :
    ∃ (c₀ : Client) (es : List ClientEvent) (c : Client), c₀.Initial ∧ Run (fun c e c' => c.next e = some c') c₀ es c ∧
      c.ctxt.allocation.invalid = true ∧ c.ctxt.status = .transmitting := by
  have hrun : (noticeInUpdate.foldlM Client.next (startingClient oneRead)).map
      (fun c => (c.ctxt.allocation.invalid, c.ctxt.status)) = some (true, .transmitting) := by
    decide +kernel
  obtain ⟨c, hc, hend⟩ := Option.map_eq_some_iff.1 hrun
  exact ⟨_, _, c, initial_startingClient, Run.of_foldlM hc,
    (Prod.ext_iff.1 hend).1, (Prod.ext_iff.1 hend).2⟩

end Notices

/-! ### Histories -/

/-- **A client, and the responses that it has adopted**, last one last. -/
structure History where
  /-- The client. -/
  client : Client
  /-- The responses. -/
  adopted : List RxPacket

/-- What a step adds to the responses adopted. -/
def Client.adoption (c : Client) : ClientEvent → List RxPacket
  | .receive pkt => if c.ctxt.adopts pkt then [pkt] else []
  | .control _ => []

/-- A step of the client. -/
def History.next (h : History) (e : ClientEvent) : Option History :=
  (h.client.next e).map fun c => ⟨c, h.adopted ++ h.client.adoption e⟩

/-- **Only an adoption changes what a client knows.** -/
theorem History.next_cases {h h' : History} {e : ClientEvent} (he : h.next e = some h') :
    (∃ pkt ctxt, e = .receive pkt ∧ h.client.ctxt.adopts pkt ∧ adopt h.client.ctxt pkt = some ctxt ∧
      h' = ⟨{ h.client with ctxt := ctxt }, h.adopted ++ [pkt]⟩) ∨
    (h.client.adoption e = [] ∧ h'.client.ctxt.view = h.client.ctxt.view ∧
      h'.adopted = h.adopted) := by
  obtain ⟨c, hc, rfl⟩ := Option.map_eq_some_iff.1 he
  cases e with
  | receive pkt =>
      obtain ⟨ctxt, hrx, rfl⟩ := Client.next_receive.1 hc
      by_cases ha : h.client.ctxt.adopts pkt
      · have hadopt : adopt h.client.ctxt pkt = some ctxt := by
          rw [← hrx, rxControl]
          rcases ha.1 with hst | hst <;> simp [hst, ha.2]
        exact Or.inl ⟨pkt, ctxt, rfl, ha, hadopt, by simp [Client.adoption, ha]⟩
      · exact Or.inr ⟨by simp [Client.adoption, ha], (rxControl_cases hrx).view ha,
          by simp [Client.adoption, ha]⟩
  | control ch =>
      rw [Client.next_control.1 hc]
      exact Or.inr ⟨rfl, (view_control h.client ch).1, by simp [Client.adoption]⟩

theorem version_of_adopt {c c' : Context} {pkt : RxPacket} (h : adopt c pkt = some c') :
    c'.allocation.version = pkt.header.seq := by
  obtain ⟨programs, -, rfl⟩ := Option.map_eq_some_iff.1 h
  rfl

/-! ### Versions -/

section Versions

/-- **A client that polls, the version of its function at the controller, and the responses that have
been sent**: each of them may arrive at any time, any number of times. -/
structure Polling where
  /-- The client. -/
  history : History
  /-- The version. -/
  version : ℕ
  /-- The responses. -/
  responses : List RxPacket

/-- A step of the system. -/
inductive PollingEvent
  /-- The controller gives the function another allocation. -/
  | bump
  /-- The switch answers a packet that asks for the allocation. -/
  | answer (pkt : RxPacket)
  /-- A response arrives. -/
  | deliver (i : ℕ)
  /-- The client makes another step. -/
  | client (e : ClientEvent)

/-- The step is not the arrival of a response. -/
def ClientEvent.BringsNoResponse : ClientEvent → Prop
  | .receive pkt => testFlag pkt.header.flags flagAllocated = false
  | .control _ => True

instance (e : ClientEvent) : Decidable e.BringsNoResponse :=
  match e with
  | .receive _ => inferInstanceAs (Decidable (_ = _))
  | .control _ => .isTrue trivial

/-- The step of the client in a step of the system. -/
def Polling.clientEvent (p : Polling) : PollingEvent → Option ClientEvent
  | .bump | .answer _ => none
  | .deliver i => p.responses[i]?.map .receive
  | .client e => if e.BringsNoResponse then some e else none

/-- **A step of the system.**  There are fewer than `2 ^ 16` versions, and a response carries the
current one. -/
def Polling.next (p : Polling) (e : PollingEvent) : Option Polling :=
  match e with
  | .bump => if p.version + 1 < 2 ^ 16 then some { p with version := p.version + 1 } else none
  | .answer pkt =>
      if pkt.header.seq = BitVec.ofNat 16 p.version then
        some { p with responses := p.responses ++ [pkt] }
      else none
  | .deliver _ | .client _ => do
      let h ← p.history.next (← p.clientEvent e)
      pure { p with history := h }

/-- The system at the start. -/
structure Polling.Initial (p : Polling) : Prop where
  client : p.history.client.Initial
  adopted : p.history.adopted = []
  responses : p.responses = []

/-- **No response older than the version of the client arrives while it polls.** -/
def Client.Timely (c : Client) : ClientEvent → Prop
  | .receive pkt =>
      c.ctxt.adopts pkt → ¬ pkt.header.seq.toNat < c.ctxt.allocation.version.toNat
  | .control _ => True

instance (c : Client) (e : ClientEvent) : Decidable (c.Timely e) :=
  match e with
  | .receive _ => inferInstanceAs (Decidable (_ → ¬ _))
  | .control _ => .isTrue trivial

/-- The same for a step of the system. -/
def Polling.Timely (p : Polling) (e : PollingEvent) : Prop :=
  ∀ ce ∈ p.clientEvent e, p.history.client.Timely ce

/-- **The versions increase.** -/
def Increasing (l : List RxPacket) : Prop :=
  l.Pairwise fun a b => a.header.seq.toNat < b.header.seq.toNat

theorem Polling.next_cases {p p' : Polling} {e : PollingEvent} (he : p.next e = some p') :
    (p'.history = p.history ∧ p.clientEvent e = none) ∨
      ∃ ce, p.clientEvent e = some ce ∧ p.history.next ce = some p'.history := by
  unfold Polling.next at he
  split at he
  · split_ifs at he
    obtain rfl := Option.some.inj he
    exact Or.inl ⟨rfl, rfl⟩
  · split_ifs at he
    obtain rfl := Option.some.inj he
    exact Or.inl ⟨rfl, rfl⟩
  all_goals
    obtain ⟨ce, hce, he⟩ := Option.bind_eq_some_iff.1 he
    obtain ⟨h, hh, he⟩ := Option.bind_eq_some_iff.1 he
    obtain rfl := Option.some.inj he
    exact Or.inr ⟨ce, hce, hh⟩

/-- The version of the client is one that it has adopted. -/
def History.Versioned (h : History) : Prop :=
  h.client.ctxt.allocation.version = 0 ∨
    ∃ a ∈ h.adopted, a.header.seq = h.client.ctxt.allocation.version

theorem version_of_view {c c' : Context} (h : c'.view = c.view) :
    c'.allocation.version = c.allocation.version := (Prod.ext_iff.1 h).1

theorem History.Versioned.next {h h' : History} {e : ClientEvent} (hv : h.Versioned)
    (he : h.next e = some h') : h'.Versioned := by
  rcases History.next_cases he with ⟨pkt, ctxt, -, -, hadopt, rfl⟩ | ⟨-, hview, hadopted⟩
  · exact Or.inr ⟨pkt, by simp, (version_of_adopt hadopt).symm⟩
  · rw [History.Versioned, version_of_view hview, hadopted]
    exact hv

/-- **A history whose versions increase**, up to the version of the client. -/
structure History.Ascending (h : History) : Prop where
  increasing : Increasing h.adopted
  le : ∀ a ∈ h.adopted, a.header.seq.toNat ≤ h.client.ctxt.allocation.version.toNat

theorem History.Ascending.next {h h' : History} {e : ClientEvent} (ha : h.Ascending)
    (he : h.next e = some h') (ht : h.client.Timely e) : h'.Ascending := by
  rcases History.next_cases he with ⟨pkt, ctxt, rfl, hadopts, hadopt, rfl⟩ | ⟨-, hview, hadopted⟩
  · have hversion : ctxt.allocation.version = pkt.header.seq := version_of_adopt hadopt
    have hne : h.client.ctxt.allocation.version.toNat ≠ pkt.header.seq.toNat := fun heq =>
      hadopts.2.2 (BitVec.eq_of_toNat_eq heq)
    have hlt : h.client.ctxt.allocation.version.toNat < pkt.header.seq.toNat :=
      lt_of_le_of_ne (Nat.not_lt.1 (ht hadopts)) hne
    refine ⟨List.pairwise_append.2 ⟨ha.increasing, List.pairwise_singleton _ _, ?_⟩, ?_⟩
    · intro a hmem b hb
      rw [List.mem_singleton.1 hb]
      exact (ha.le a hmem).trans_lt hlt
    · intro a hmem
      dsimp only
      rw [hversion]
      rcases List.mem_append.1 hmem with hmem | hmem
      · exact ((ha.le a hmem).trans_lt hlt).le
      · rw [List.mem_singleton.1 hmem]
  · refine ⟨hadopted ▸ ha.increasing, fun a hmem => ?_⟩
    rw [version_of_view hview]
    exact ha.le a (hadopted ▸ hmem)

/-- **An older version that is adopted comes after a newer one.** -/
theorem History.timely_of_increasing {h h' : History} {e : ClientEvent} (hv : h.Versioned)
    (he : h.next e = some h') (hinc : Increasing h'.adopted) : h.client.Timely e := by
  cases e with
  | control ch => trivial
  | receive pkt =>
      intro hadopts hlt
      rcases History.next_cases he with ⟨pkt', ctxt, hpkt, -, -, rfl⟩ | ⟨hno, -, -⟩
      · obtain rfl : pkt = pkt' := ClientEvent.receive.inj hpkt
        rcases hv with hzero | ⟨a, hmem, hseq⟩
        · rw [hzero] at hlt
          exact Nat.not_lt_zero _ hlt
        · have hafter := (List.pairwise_append.1 hinc).2.2 a hmem pkt (by simp)
          rw [hseq] at hafter
          exact Nat.lt_asymm hlt hafter
      · simp [Client.adoption, hadopts] at hno

theorem History.increasing_of_next {h h' : History} {e : ClientEvent} (he : h.next e = some h')
    (hinc : Increasing h'.adopted) : Increasing h.adopted := by
  obtain ⟨c, -, rfl⟩ := Option.map_eq_some_iff.1 he
  exact (List.pairwise_append.1 hinc).1

/-- **When the versions adopted increase**: exactly as long as no response older than the version of
the client arrives while it polls. -/
theorem versions_increasing_iff {p₀ p : Polling} {es : List PollingEvent} (h₀ : p₀.Initial)
    (h : Run (fun p e p' => Polling.next p e = some p') p₀ es p) :
    Increasing p.history.adopted ↔
      Run (fun p e p' => Polling.next p e = some p' ∧ Polling.Timely p e) p₀ es p := by
  constructor
  · intro hinc
    have key : Increasing p.history.adopted → p.history.Versioned ∧
        Run (fun p e p' => Polling.next p e = some p' ∧ Polling.Timely p e) p₀ es p := by
      clear hinc
      induction h with
      | nil =>
          exact fun _ => ⟨Or.inl (congrArg MemoryRegion.version h₀.client.allocation), Run.nil _⟩
      | snoc h he ih =>
          intro hinc
          rcases Polling.next_cases he with ⟨hsame, hno⟩ | ⟨ce, hce, hnext⟩
          · rw [hsame] at hinc ⊢
            refine ⟨(ih hinc).1, Run.snoc (ih hinc).2 ⟨he, fun ce hce => ?_⟩⟩
            rw [hno] at hce
            cases hce
          · obtain ⟨hv, hrun⟩ := ih (History.increasing_of_next hnext hinc)
            refine ⟨hv.next hnext, Run.snoc hrun ⟨he, fun ce' hce' => ?_⟩⟩
            obtain rfl : ce = ce' := Option.some.inj (hce.symm.trans hce')
            exact History.timely_of_increasing hv hnext hinc
    exact (key hinc).2
  · intro h
    have hstart : p₀.history.Ascending := by
      constructor <;> simp [h₀.adopted, Increasing]
    refine (h.invariant (I := fun p : Polling => p.history.Ascending) ?_ hstart).increasing
    intro p e p' ha he
    rcases Polling.next_cases he.1 with ⟨hsame, -⟩ | ⟨ce, hce, hnext⟩
    · exact hsame ▸ ha
    · exact ha.next hnext (he.2 ce hce)

/-- A system that starts, with the first version. -/
def startingPolling : Polling := ⟨⟨startingClient oneRead, []⟩, 1, []⟩

theorem initial_startingPolling : startingPolling.Initial :=
  ⟨initial_startingClient, rfl, rfl⟩

theorem increasing_iff_map {l : List RxPacket} :
    Increasing l ↔ (l.map fun a => a.header.seq.toNat).Pairwise (· < ·) :=
  List.pairwise_map.symm

/-- The reply to a packet that reads a word. -/
def snapshotReply (s : Stage) (addr v : BitVec 32) : RxPacket :=
  ⟨⟨flagOptArgs ||| flagRemapped ||| flagInitiated ||| flagEoe, 1, 0⟩,
    ![addr, 0, BitVec.ofNat 32 s, v], fun _ => (0, 0)⟩

/-- Two words are saved, after a notice. -/
def savesTwoWords (version : BitVec 16) : List ClientEvent :=
  .receive (remapNotice version) :: List.replicate 4 (.control quietChoice) ++
    [.receive (snapshotReply 1 0 5), .receive (snapshotReply 1 1 6)] ++
      List.replicate 5 (.control quietChoice)

/-- The first response is late: it arrives when the client polls for a third one. -/
def lateResponse : List PollingEvent :=
  [.client (.receive requested), .answer (response 1 1), .bump, .answer (response 2 1), .deliver 1,
    .client (.control quietChoice), .client (.control quietChoice)] ++
      (savesTwoWords 2).map .client ++ [.deliver 0]

/-- One response is adopted. -/
theorem versions_increasing_first :
    ∃ p, Run (fun p e p' => Polling.next p e = some p') startingPolling (lateResponse.take 5) p ∧
      p.history.adopted.map (·.header.seq) = [2] ∧
      (Increasing p.history.adopted ↔
        Run (fun p e p' => Polling.next p e = some p' ∧ Polling.Timely p e) startingPolling
          (lateResponse.take 5) p) := by
  have hrun : ((lateResponse.take 5).foldlM Polling.next startingPolling).map
      (fun p => p.history.adopted.map (·.header.seq)) = some [2] := by
    decide +kernel
  obtain ⟨p, hp, hadopted⟩ := Option.map_eq_some_iff.1 hrun
  have hp := Run.of_foldlM hp
  exact ⟨p, hp, hadopted, versions_increasing_iff initial_startingPolling hp⟩

/-- **An older version is adopted.** -/
theorem older_version_adopted :
    ∃ p₀ es p, Polling.Initial p₀ ∧ Run (fun p e p' => Polling.next p e = some p') p₀ es p ∧
      ¬ Increasing p.history.adopted := by
  have hrun : (lateResponse.foldlM Polling.next startingPolling).map
      (fun p => p.history.adopted.map fun a => a.header.seq.toNat) = some [2, 1] := by
    decide +kernel
  obtain ⟨p, hp, hadopted⟩ := Option.map_eq_some_iff.1 hrun
  refine ⟨_, _, p, initial_startingPolling, Run.of_foldlM hp, ?_⟩
  rw [increasing_iff_map, hadopted]
  decide

end Versions

/-! ### What a client knows -/

section View

variable {ap4 : ActiveProgramDef ActiveInstr} {h h' : History} {pkt : RxPacket}

/-- The response has words in the stage. -/
def RxPacket.grants (pkt : RxPacket) (s : Stage) : Bool :=
  decide ((pkt.ranges s).1 < (pkt.ranges s).2)

/-- **A response to a program with `n` accesses**: a stage without words has the pair `(0, 0)`, and
there are as many stages with words as accesses. -/
structure RxPacket.WellFormed (pkt : RxPacket) (n : ℕ) : Prop where
  empty : ∀ s, pkt.grants s = false → pkt.ranges s = (0, 0)
  length : ((List.finRange 20).filter pkt.grants).length = n

/-- The mutant of a program that was never mutated. -/
def freshMutant (ap4 : ActiveProgramDef ActiveInstr) (pkt : RxPacket) : Option (List ActiveInstr) :=
  mutateActiveProgram ActiveInstr.isMemaccess ActiveInstr.nop { ap4 with mutant := ap4.code }
    pkt.grants

/-- **What a client should know after a response.** -/
structure FollowsLast (ap4 : ActiveProgramDef ActiveInstr) (c : Context) (last : RxPacket) : Prop where
  stages : ∀ s, c.allocation.validStages s = true ↔ last.grants s = true
  ranges : ∀ s, ((c.allocation.syncData s).memStart, (c.allocation.syncData s).memEnd) =
    last.ranges s
  mutant : freshMutant ap4 last = some (c.programs c.currentPid).mutant

/-- **What a client does know**: the stages of all its responses, the ranges of the last one, and if
all of them have the same stages, the mutant for these. -/
structure Remembers (ap4 : ActiveProgramDef ActiveInstr) (h : History) : Prop where
  program : ∃ mutant, h.client.ctxt.programs h.client.ctxt.currentPid =
    { ap4 with mutant := mutant }
  stages : ∀ s, h.client.ctxt.allocation.validStages s = true ↔ ∃ r ∈ h.adopted, r.grants s = true
  ranges : ∀ rs last, h.adopted = rs ++ [last] → ∀ s,
    ((h.client.ctxt.allocation.syncData s).memStart,
      (h.client.ctxt.allocation.syncData s).memEnd) = last.ranges s
  fresh : h.adopted = [] →
    (h.client.ctxt.programs h.client.ctxt.currentPid).mutant = ap4.code
  uniform : ∀ r ∈ h.adopted, (∀ r' ∈ h.adopted, r'.grants = r.grants) →
    freshMutant ap4 r = some (h.client.ctxt.programs h.client.ctxt.currentPid).mutant

theorem Remembers.congr (hr : Remembers ap4 h) (hview : h'.client.ctxt.view = h.client.ctxt.view)
    (hadopted : h'.adopted = h.adopted) : Remembers ap4 h' := by
  simp only [Context.view, Prod.mk.injEq] at hview
  obtain ⟨-, hvalid, hranges, hprograms, hpid⟩ := hview
  refine ⟨?_, ?_, ?_, ?_, ?_⟩
  · rw [hprograms, hpid]
    exact hr.program
  · rw [hvalid, hadopted]
    exact hr.stages
  · intro rs last hlast s
    exact (congrFun hranges s).trans (hr.ranges rs last (hadopted ▸ hlast) s)
  · rw [hprograms, hpid, hadopted]
    exact hr.fresh
  · rw [hprograms, hpid, hadopted]
    exact hr.uniform

/-- The mark of a stage is the test of its size. -/
theorem grants_iff_size (hpkt : ∀ s, pkt.grants s = false → pkt.ranges s = (0, 0)) (s : Stage) :
    (pkt.ranges s).2 - (pkt.ranges s).1 ≠ 0 ↔ pkt.grants s = true := by
  cases hs : pkt.grants s with
  | false => simp [hpkt s hs]
  | true =>
      have hlt : (pkt.ranges s).1 < (pkt.ranges s).2 := of_decide_eq_true hs
      simp only [iff_true]
      bv_omega

/-- **What an adoption does.** -/
theorem adopt_eq {c c' : Context} (h : adopt c pkt = some c') :
    ∃ mutant, mutateActiveProgram ActiveInstr.isMemaccess ActiveInstr.nop (c.programs c.currentPid)
        (c.allocation.follow pkt.ranges).validStages = some mutant ∧
      c'.programs c'.currentPid = { c.programs c.currentPid with mutant := mutant } ∧
      c'.allocation.validStages = (c.allocation.follow pkt.ranges).validStages ∧
      ∀ s, ((c'.allocation.syncData s).memStart, (c'.allocation.syncData s).memEnd) =
        pkt.ranges s := by
  obtain ⟨programs, hprograms, rfl⟩ := Option.map_eq_some_iff.1 h
  obtain ⟨mutant, hmutant, rfl⟩ := Option.map_eq_some_iff.1 hprograms
  exact ⟨mutant, hmutant, Function.update_self _ _ _, rfl, fun s => rfl⟩

/-- A mutation that is not an early return does not look at the mutant. -/
theorem mutate_congr {ap4 : ActiveProgramDef ActiveInstr} {m m' : List ActiveInstr}
    {valid : Stage → Bool} (h : isOriginal valid ap4.accessIdx = false) :
    mutateActiveProgram ActiveInstr.isMemaccess ActiveInstr.nop { ap4 with mutant := m } valid =
      mutateActiveProgram ActiveInstr.isMemaccess ActiveInstr.nop { ap4 with mutant := m' } valid := by
  unfold mutateActiveProgram
  simp only [h, Bool.false_eq_true, if_false]

/-- **A second mutation for the same stages gives the same mutant.** -/
theorem mutate_again {m m' : List ActiveInstr} (hm : freshMutant ap4 pkt = some m)
    (hm' : mutateActiveProgram ActiveInstr.isMemaccess ActiveInstr.nop { ap4 with mutant := m }
      pkt.grants = some m') : m' = m := by
  cases horig : isOriginal pkt.grants ap4.accessIdx with
  | true =>
      rw [mutateActiveProgram, if_pos horig] at hm'
      exact (Option.some.inj hm').symm
  | false =>
      rw [mutate_congr horig] at hm'
      exact Option.some.inj (hm'.symm.trans hm)

theorem Remembers.adopt (hr : Remembers ap4 h) {ctxt : Context}
    (hadopt : adopt h.client.ctxt pkt = some ctxt)
    (hpkt : ∀ s, pkt.grants s = false → pkt.ranges s = (0, 0)) :
    Remembers ap4 ⟨{ h.client with ctxt := ctxt }, h.adopted ++ [pkt]⟩ := by
  obtain ⟨mutant, hmutant, hprogram, hvalid, hranges⟩ := adopt_eq hadopt
  obtain ⟨m, hm⟩ := hr.program
  have hstages : ∀ s, ctxt.allocation.validStages s = true ↔
      ∃ r ∈ h.adopted ++ [pkt], r.grants s = true := by
    intro s
    have hsize := grants_iff_size hpkt s
    rw [hvalid]
    simp only [MemoryRegion.follow, List.mem_append, List.mem_singleton, or_and_right, exists_or,
      exists_eq_left, ← hr.stages s, ← hsize]
    split_ifs with hs
    · exact iff_of_true rfl (Or.inr hs)
    · exact ⟨Or.inl, fun h => h.resolve_right hs⟩
  refine ⟨⟨mutant, by rw [hprogram, hm]⟩, hstages, ?_, by simp, ?_⟩
  · intro rs last hlast
    obtain ⟨-, hlast⟩ := List.append_inj' hlast rfl
    obtain rfl : pkt = last := by simpa using hlast
    exact hranges
  · intro r hmem hsame
    -- all stages marked are those of the responses
    have hpktgrants : pkt.grants = r.grants := hsame pkt (by simp)
    have hmarks : (h.client.ctxt.allocation.follow pkt.ranges).validStages = pkt.grants := by
      funext s
      rw [← hvalid, Bool.eq_iff_iff, hstages s]
      constructor
      · rintro ⟨r', hr', hs⟩
        rwa [hpktgrants, ← hsame r' hr']
      · exact fun hs => ⟨pkt, by simp, hs⟩
    rw [hmarks, hm] at hmutant
    have hfresh : freshMutant ap4 pkt = some mutant := by
      cases hadopted : h.adopted with
      | nil =>
          have hcode := hr.fresh hadopted
          rw [hm] at hcode
          obtain rfl : m = ap4.code := hcode
          exact hmutant
      | cons r₀ rs =>
          have hr₀ : r₀ ∈ h.adopted := by simp [hadopted]
          have hg : r₀.grants = pkt.grants := by
            rw [hpktgrants]
            exact hsame r₀ (List.mem_append_left _ hr₀)
          have hold := hr.uniform r₀ hr₀ fun r' hr' => by
            rw [hsame r' (List.mem_append_left _ hr'), hg, hpktgrants]
          rw [hm, freshMutant, hg] at hold
          exact (mutate_again hold hmutant).symm ▸ hold
    dsimp only
    rw [hprogram, freshMutant, ← hpktgrants]
    exact hfresh

/-- Two sets of stages of one size, one in the other, are the same. -/
theorem grants_eq_of_le {p q : Stage → Bool} (hle : ∀ s, p s = true → q s = true)
    (hlength : ((List.finRange 20).filter p).length = ((List.finRange 20).filter q).length) :
    p = q := by
  have hsub : ((List.finRange 20).filter p).Sublist ((List.finRange 20).filter q) := by
    have heq : (List.finRange 20).filter p = ((List.finRange 20).filter q).filter p := by
      rw [List.filter_filter]
      refine List.filter_congr fun s _ => ?_
      cases hp : p s <;> simp [hp, hle s]
    exact heq ▸ List.filter_sublist
  have heq := hsub.eq_of_length hlength
  funext s
  have hmem : s ∈ (List.finRange 20).filter p ↔ s ∈ (List.finRange 20).filter q := by rw [heq]
  simp only [List.mem_filter, List.mem_finRange, true_and] at hmem
  exact Bool.eq_iff_iff.2 hmem

/-- **When the client follows the last response**: exactly when all responses that it has adopted are
for the same stages. -/
theorem follows_last_iff {h₀ : History} {es : List ClientEvent} (hinit : h₀.client.Initial)
    (hnone : h₀.adopted = []) (h : Run (fun h e h' => History.next h e = some h') h₀ es h')
    {rs : List RxPacket} {last : RxPacket} (hadopted : h'.adopted = rs ++ [last])
    (hformed : ∀ r ∈ h'.adopted, r.WellFormed
      (h₀.client.ctxt.programs h₀.client.ctxt.currentPid).accessIdx.length) :
    FollowsLast (h₀.client.ctxt.programs h₀.client.ctxt.currentPid) h'.client.ctxt last ↔
      ∀ r ∈ rs, ∀ s, r.grants s = last.grants s := by
  set ap4 := h₀.client.ctxt.programs h₀.client.ctxt.currentPid with hap4
  have hstart : Remembers ap4 h₀ := by
    refine ⟨⟨ap4.mutant, rfl⟩, ?_, ?_, ?_, ?_⟩
    · simp [hinit.allocation, hnone, MemoryRegion.zero]
    · simp [hnone]
    · exact fun _ => hinit.mutant _
    · simp [hnone]
  have hr : Remembers ap4 h' := by
    have key : (∀ r ∈ h'.adopted, ∀ s, r.grants s = false → r.ranges s = (0, 0)) →
        Remembers ap4 h' := by
      clear hadopted hformed
      induction h with
      | nil => exact fun _ => hstart
      | snoc _ he ih =>
          intro hempty
          rcases History.next_cases he with ⟨pkt, ctxt, -, -, hadopt, rfl⟩ | ⟨-, hview, hsame⟩
          · exact (ih fun r hmem => hempty r (List.mem_append_left _ hmem)).adopt hadopt
              (hempty pkt (by simp))
          · exact (ih fun r hmem => hempty r (hsame ▸ hmem)).congr hview hsame
    exact key fun r hmem => (hformed r hmem).empty
  have hlast : last ∈ h'.adopted := by simp [hadopted]
  constructor
  · intro hfollows r hmem s
    have hr' : r ∈ h'.adopted := by simp [hadopted, hmem]
    refine congrFun (grants_eq_of_le (fun t ht => ?_) ?_) s
    · exact (hfollows.stages t).1 ((hr.stages t).2 ⟨r, hr', ht⟩)
    · rw [(hformed r hr').length, (hformed last hlast).length]
  · intro hsame
    have hall : ∀ r ∈ h'.adopted, r.grants = last.grants := by
      intro r hmem
      rcases List.mem_append.1 (hadopted ▸ hmem) with hmem | hmem
      · exact funext (hsame r hmem)
      · rw [List.mem_singleton.1 hmem]
    refine ⟨fun s => ?_, hr.ranges rs last hadopted, hr.uniform last hlast hall⟩
    rw [hr.stages s]
    constructor
    · rintro ⟨r, hmem, hs⟩
      rwa [← hall r hmem]
    · exact fun hs => ⟨last, hlast, hs⟩

theorem wellFormed_response (version : BitVec 16) (s : Stage) :
    (response version s).WellFormed 1 := by
  have key : ∀ s : Stage, (∀ t, (response 0 s).grants t = false → (response 0 s).ranges t = (0, 0)) ∧
      ((List.finRange 20).filter (response 0 s).grants).length = 1 := by decide +kernel
  exact ⟨(key s).1, (key s).2⟩

/-- The history of a client from its start. -/
def startingHistory : History := ⟨startingClient oneRead, []⟩

/-- A first response is followed. -/
theorem follows_first :
    ∃ h, Run (fun h e h' => History.next h e = some h') startingHistory firstAllocation h ∧
      FollowsLast oneRead h.client.ctxt (response 1 1) := by
  have hrun : firstAllocation.foldlM History.next startingHistory = some ⟨_, [response 1 1]⟩ := rfl
  have hr := Run.of_foldlM hrun
  refine ⟨_, hr, (follows_last_iff initial_startingClient rfl hr (List.nil_append _).symm ?_).2 ?_⟩
  · intro r hmem
    rw [List.mem_singleton.1 hmem]
    exact wellFormed_response 1 1
  · intro r hmem
    exact absurd hmem List.not_mem_nil

/-- **The stage of an older response stays marked.** -/
theorem older_stage_marked :
    ∃ h : History, Run (fun h e h' => History.next h e = some h') startingHistory
        (firstAllocation ++ savesTwoWords 1 ++ [.receive (response 2 3)]) h ∧
      h.adopted.map (·.header.seq) = [1, 2] ∧ ¬ FollowsLast oneRead h.client.ctxt (response 2 3) := by
  have hrun : ((firstAllocation ++ savesTwoWords 1 ++
      [ClientEvent.receive (response 2 3)]).foldlM History.next startingHistory).map
        (fun h => (h.adopted.map (·.header.seq), h.client.ctxt.allocation.validStages 1)) =
          some ([1, 2], true) := by decide +kernel
  obtain ⟨h, hh, hend⟩ := Option.map_eq_some_iff.1 hrun
  refine ⟨h, Run.of_foldlM hh, (Prod.ext_iff.1 hend).1, fun hfollows => ?_⟩
  exact absurd ((hfollows.stages 1).1 (Prod.ext_iff.1 hend).2) (by decide)

end View

end ActiveRmt
