/-
**Saving the memory of a client.**

When the allocation of a client is withdrawn, or when its timer asks for it, the control loop reads every
word of the stages in `syncmap` with a packet, again and again, until every word has been recorded.  The
receive filter records what replies say, and it takes every reply for one: an acknowledgement of a write
that is late, or the reply to a read of an earlier round, is recorded as well.

Main definitions:

* `answer` — **what the switch does with a packet of the control loop**;
* `SyncSystem` — a client, the memory of the switch, and all packets and replies sent so far; each of
  them may arrive at any time, any number of times, or never;
* `SyncSystem.Leaves`, `Saved` — the client leaves the loop that reads, and what it should have then;
* `SyncSystem.Orderly` — nothing late arrives while the client reads.

Main results:

* `answer_snapshot`, `answer_memremap` — the answers are those of the programs of the packets;
* `snapshot_saved` — **what a client has read is what the memory holds**.
-/

import ActiveRmt.Adoption
import ActiveRmt.MemorySync

set_option relaxedAutoImplicit false
set_option autoImplicit false

namespace ActiveRmt

/-! ### The switch -/

/-- The memory of the switch. -/
abbrev Heap := Stage → Word → Word

/-- The flags of a packet of the control loop that has been executed. -/
def repliedFlags (snapshot : Bool) : BitVec 16 :=
  flagOptArgs ||| flagInitiated ||| flagPreload ||| flagEoe |||
    (if snapshot then flagRemapped else 0)

/-- The arguments of a packet for a word. -/
def wordArgs (s : Stage) (addr mbr result : Word) : Args :=
  ![addr, mbr, BitVec.ofNat 32 s.val, result]

/-- **What the switch does with a packet of the control loop**: the word of a read is the result, the word
of a write is stored.  The programs for the last stage end before their access. -/
def answer (fid : BitVec 16) (heap : Heap) : TxPacket → Option (RxPacket × Heap)
  | .snapshot s addr =>
      let a := BitVec.ofNat 32 addr
      some (⟨⟨repliedFlags true, fid, 0⟩,
        wordArgs s a 0 (if s = Fin.last 19 then 0 else heap s a), fun _ => (0, 0)⟩, heap)
  | .memremap s addr data =>
      let a := BitVec.ofNat 32 addr
      some (⟨⟨repliedFlags false, fid, 0⟩, wordArgs s a data 0, fun _ => (0, 0)⟩,
        if s = Fin.last 19 then heap else writeHeap heap s a data)
  | .reqalloc | .getalloc | .snapshotComplete | .heartbeat => none

theorem ne_nineteen {s : Stage} (hs : s ≠ Fin.last 19) : s ≠ 19 := hs

/-- **The answer to a read is that of its program.** -/
theorem answer_snapshot {s : Stage} (hs : s ≠ Fin.last 19) {fid : BitVec 16} (hfid : fid.toNat ≤ 255)
    {cache : ℕ → ClientProgram} (hcache : Fresh buildMemsyncProgram cache) :
    ∃ program, constructMemsyncProgram cache s = some program ∧
      ∀ env sw pkt, pkt.state.fid = fid → SyncRun env sw pkt s program → ∀ addr : ℕ,
        pkt.state.data 0 = BitVec.ofNat 32 addr →
          ∃ reply, answer fid pkt.state.heap (.snapshot s addr) =
              some (reply, (process env sw pkt).2.heap) ∧
            reply.memData = (process env sw pkt).2.data (Fin.last 3) := by
  obtain ⟨program, hprogram, -, -, hreads⟩ := readsWord (ne_nineteen hs) hfid cache hcache
  refine ⟨program, hprogram, fun env sw pkt hpkt hrun addr haddr => ?_⟩
  obtain ⟨hdata, hheap⟩ := hreads env sw pkt hpkt hrun
  rw [(SyncRun.ingressStart hrun).1, haddr] at hdata
  refine ⟨_, by rw [answer, hheap], ?_⟩
  rw [hdata]
  show (if s = Fin.last 19 then 0 else _) = _
  rw [if_neg hs]

/-- **The answer to a write is that of its program.** -/
theorem answer_memremap {s : Stage} (hs : s ≠ Fin.last 19) {fid : BitVec 16} (hfid : fid.toNat ≤ 255)
    {cache : ℕ → ClientProgram} (hcache : Fresh buildMemsetProgram cache) :
    ∃ program, constructMemsetProgram cache s = some program ∧
      ∀ env sw pkt, pkt.state.fid = fid → SyncRun env sw pkt s program → ∀ (addr : ℕ) (data : Word),
        pkt.state.data 0 = BitVec.ofNat 32 addr → pkt.state.data 1 = data →
          ∃ reply, answer fid pkt.state.heap (.memremap s addr data) =
            some (reply, (process env sw pkt).2.heap) := by
  obtain ⟨program, hprogram, -, -, hwrites⟩ := writesWord (ne_nineteen hs) hfid cache hcache
  refine ⟨program, hprogram, fun env sw pkt hpkt hrun addr data haddr hdata => ?_⟩
  have hheap := hwrites env sw pkt hpkt hrun
  rw [(SyncRun.ingressStart hrun).1, (SyncRun.ingressStart hrun).2, haddr, hdata] at hheap
  exact ⟨_, by rw [answer, if_neg hs, hheap]⟩

/-! ### The system -/

/-- A reply, and where it comes from. -/
structure WordReply where
  /-- The packet. -/
  pkt : RxPacket
  /-- It answers a read. -/
  snapshot : Bool
  /-- How often the client had begun to save its memory when the switch answered. -/
  round : ℕ

/-- **A client that saves its memory, and everything around it.** -/
structure SyncSystem where
  /-- The client. -/
  client : Client
  /-- The memory of the switch. -/
  heap : Heap
  /-- The packets sent. -/
  sent : List TxPacket
  /-- The replies sent. -/
  replies : List WordReply
  /-- How often the client has begun to save its memory. -/
  round : ℕ
  /-- The words that another party has written since then. -/
  touched : Stage → Word → Bool

/-- A step of the system. -/
inductive SyncEvent
  /-- The control loop makes a step. -/
  | control (ch : Choice)
  /-- The client gets a packet that is not a reply to the control loop. -/
  | receive (pkt : RxPacket)
  /-- The switch executes a packet of the control loop. -/
  | execute (i : ℕ)
  /-- A reply arrives. -/
  | deliver (i : ℕ)
  /-- Another party writes a word. -/
  | write (s : Stage) (a data : Word)

/-- The packet is a read. -/
def TxPacket.isSnapshot : TxPacket → Bool
  | .snapshot _ _ => true
  | _ => false

/-- The system after a step of the client. -/
def SyncSystem.moved (y : SyncSystem) (c : Client) (sent : List TxPacket) : SyncSystem :=
  let enters := c.ctxt.status = .snapshotting ∧ y.client.ctxt.status ≠ .snapshotting
  { y with
    client := c
    sent := y.sent ++ sent
    round := if enters then y.round + 1 else y.round
    touched := if enters then fun _ _ => false else y.touched }

/-- **A step of the system**, unless an assertion of the client fails. -/
def SyncSystem.next (y : SyncSystem) : SyncEvent → Option SyncSystem
  | .control ch => some (y.moved (y.client.control ch).1 (y.client.control ch).2)
  | .receive pkt =>
      if pkt.isReply then none
      else (rxControl y.client.ctxt pkt).map fun ctxt => y.moved { y.client with ctxt := ctxt } []
  | .execute i => do
      let pkt ← y.sent[i]?
      let (reply, heap) ← answer (BitVec.ofNat 16 y.client.ctxt.fid) y.heap pkt
      pure { y with heap := heap, replies := y.replies ++ [⟨reply, pkt.isSnapshot, y.round⟩] }
  | .deliver i => do
      let reply ← y.replies[i]?
      let ctxt ← rxControl y.client.ctxt reply.pkt
      pure (y.moved { y.client with ctxt := ctxt } [])
  | .write s a data =>
      some { y with
        heap := writeHeap y.heap s a data
        touched := Function.update y.touched s (Function.update (y.touched s) a true) }

/-- The control loop is before the switch over the status or in the loop that reads. -/
def ControlPoint.MayRead : ControlPoint → Prop
  | .dispatch | .snapshotting _ => True
  | _ => False

instance (p : ControlPoint) : Decidable p.MayRead :=
  match p with
  | .dispatch | .snapshotting _ => .isTrue trivial
  | .resetting _ | .reset | .invalidating _ | .snapshotted => .isFalse id

/-- The client saves its memory, and has not left the loop that reads. -/
def Client.Saving (c : Client) : Prop := c.ctxt.status = .snapshotting ∧ c.point.MayRead

instance (c : Client) : Decidable c.Saving := inferInstanceAs (Decidable (_ ∧ _))

/-- **The client leaves the loop that reads**: every word of a pass was recorded. -/
structure SyncSystem.Leaves (y : SyncSystem) : Prop where
  point : y.client.point = .snapshotting []
  done : y.client.inProgress.snapshotting = false

/-- **What the client should have then.** -/
def Saved (y : SyncSystem) : Prop :=
  ∀ s, y.client.ctxt.allocation.validStages s = true → y.client.ctxt.allocation.syncmap s = true →
    ∀ j, (y.client.ctxt.allocation.syncData s).InRange j →
      y.touched s (BitVec.ofNat 32 j) = false →
        (y.client.ctxt.allocation.syncData s).data j = y.heap s (BitVec.ofNat 32 j)

/-- **Nothing late arrives while the client reads**: a reply answers a read of this round that is not for
the last stage, and no write of the client is executed. -/
def SyncSystem.Orderly (y : SyncSystem) : SyncEvent → Prop
  | .deliver i => y.client.Saving → ∀ reply ∈ y.replies[i]?,
      reply.snapshot = true ∧ reply.round = y.round ∧ reply.pkt.stageId ≠ some (Fin.last 19)
  | .execute i => y.client.Saving → ∀ pkt ∈ y.sent[i]?, pkt.isSnapshot = true
  | .control _ | .receive _ | .write _ _ _ => True

/-! ### What the client has recorded -/

section Recorded

variable {c c' : Client} {heap : Heap} {touched : Stage → Word → Bool}

/-- **What is recorded is what the memory holds**, for words that no other party has written. -/
def Recorded (r : MemoryRegion) (heap : Heap) (touched : Stage → Word → Bool) : Prop :=
  ∀ s j, (r.syncData s).valid j = true → touched s (BitVec.ofNat 32 j) = false →
    (r.syncData s).data j = heap s (BitVec.ofNat 32 j)

/-- The reply says what the memory holds. -/
def Truthful (pkt : RxPacket) (heap : Heap) (touched : Stage → Word → Bool) : Prop :=
  ∀ s, pkt.stageId = some s → touched s (BitVec.ofNat 32 pkt.memAddr) = false →
    pkt.memData = heap s (BitVec.ofNat 32 pkt.memAddr)

/-- **A reply and one word**: it is the word that the reply names, or the word stays as it was. -/
theorem recordReply_word (ctxt : Context) (pkt : RxPacket) (s : Stage) (j : ℕ) :
    (pkt.stageId = some s ∧ pkt.memAddr = j ∧
      ((recordReply ctxt pkt).allocation.syncData s).valid j = true ∧
      ((recordReply ctxt pkt).allocation.syncData s).data j = pkt.memData) ∨
    ((recordReply ctxt pkt).allocation.syncData s).valid j = (ctxt.allocation.syncData s).valid j ∧
      ((recordReply ctxt pkt).allocation.syncData s).data j = (ctxt.allocation.syncData s).data j := by
  unfold recordReply
  cases hs : pkt.stageId with
  | none => exact .inr ⟨rfl, rfl⟩
  | some t =>
      dsimp only [MemoryRegion.setStage]
      by_cases hst : s = t
      · subst hst
        rw [Function.update_self]
        dsimp only [MemoryStage.record, MemoryStage.markValid]
        by_cases hj : j = pkt.memAddr
        · subst hj
          exact .inl ⟨rfl, rfl, Function.update_self _ _ _, Function.update_self _ _ _⟩
        · rw [Function.update_of_ne hj, Function.update_of_ne hj]
          exact .inr ⟨rfl, rfl⟩
      · rw [Function.update_of_ne hst]
        exact .inr ⟨rfl, rfl⟩

theorem Recorded.recordReply {ctxt : Context} {pkt : RxPacket}
    (h : Recorded ctxt.allocation heap touched) (hpkt : Truthful pkt heap touched) :
    Recorded (recordReply ctxt pkt).allocation heap touched := by
  intro s j hvalid htouched
  rcases recordReply_word ctxt pkt s j with ⟨hs, rfl, -, hdata⟩ | ⟨hmark, hdata⟩
  · rw [hdata]
    exact hpkt s hs htouched
  · rw [hdata]
    exact h s j (hmark ▸ hvalid) htouched

/-- Nothing is recorded yet. -/
theorem recorded_of_clear {r : MemoryRegion} (h : ∀ s j, (r.syncData s).valid j = false) :
    Recorded r heap touched := fun s j hvalid => absurd hvalid (by simp [h s j])

/-- What a reply leaves alone, and that marks are only added. -/
theorem recordReply_marks (ctxt : Context) (pkt : RxPacket) :
    (recordReply ctxt pkt).allocation.syncmap = ctxt.allocation.syncmap ∧
      ∀ s j, (ctxt.allocation.syncData s).valid j = true →
        ((recordReply ctxt pkt).allocation.syncData s).valid j = true := by
  refine ⟨?_, fun s j hvalid => ?_⟩
  · unfold recordReply
    cases pkt.stageId <;> rfl
  · rcases recordReply_word ctxt pkt s j with ⟨-, -, hmark, -⟩ | ⟨hmark, -⟩
    · exact hmark
    · exact hmark.trans hvalid

/-- The words of a pass. -/
theorem mem_words {r : MemoryRegion} {s : Stage} {j : ℕ} :
    (s, j) ∈ r.words ↔ r.validStages s = true ∧ (r.syncData s).InRange j := by
  simp only [MemoryRegion.words, List.mem_flatMap, List.mem_filter, List.mem_finRange, true_and,
    List.mem_map, List.mem_range'_1, Prod.mk.injEq, MemoryStage.InRange]
  constructor
  · rintro ⟨t, hvalid, k, hk, rfl, rfl⟩
    exact ⟨hvalid, by omega⟩
  · rintro ⟨hvalid, hj⟩
    exact ⟨s, hvalid, j, by omega, rfl, rfl⟩

/-- **What is left of a pass**: a word that is not left has been recorded, unless a packet was sent. -/
def PassDone (c : Client) : Prop :=
  ∀ todo, c.point = .snapshotting todo → c.inProgress.snapshotting = false →
    ∀ s j, c.ctxt.allocation.validStages s = true → c.ctxt.allocation.syncmap s = true →
      (c.ctxt.allocation.syncData s).InRange j →
        (s, j) ∈ todo ∨ (c.ctxt.allocation.syncData s).valid j = true

theorem passDone_of_point (h : ∀ todo, c.point ≠ .snapshotting todo) : PassDone c :=
  fun todo hpoint => absurd hpoint (h todo)

/-- **A step, seen from the loop that reads**: it goes on, it is left, or it may begin, with nothing
recorded. -/
structure SavesStep (c c' : Client) : Prop where
  saves : c'.point.Saves → c'.ctxt.status = .snapshotting
  pass : PassDone c'
  saving : c'.Saving → (c.Saving ∧ c'.ctxt = c.ctxt) ∨
    (c.ctxt.status ≠ .snapshotting ∧ ∀ s j, (c'.ctxt.allocation.syncData s).valid j = false)

/-- The loop goes on. -/
theorem SavesStep.of_goes (hst : c.ctxt.status = .snapshotting) (hread : c.point.MayRead)
    (hctxt : c'.ctxt = c.ctxt) (hpass : PassDone c') : SavesStep c c' where
  saves _ := by rw [hctxt, hst]
  pass := hpass
  saving _ := Or.inl ⟨⟨hst, hread⟩, hctxt⟩

/-- The loop is not where the step ends, or the memory is not being saved there. -/
theorem SavesStep.of_outside (hsaves : c'.point.Saves → c'.ctxt.status = .snapshotting)
    (hpoint : ∀ todo, c'.point ≠ .snapshotting todo)
    (hout : c'.ctxt.status = .snapshotting → ¬ c'.point.MayRead) : SavesStep c c' where
  saves := hsaves
  pass := passDone_of_point hpoint
  saving hs := absurd hs.2 (hout hs.1)

/-- The timer begins a snapshot with nothing recorded. -/
theorem apply_snapshotting {ctxt : Context} (t : Timer) (hst : ctxt.status = .transmitting)
    (hnew : (t.apply ctxt).status = .snapshotting) (s : Stage) (j : ℕ) :
    ((t.apply ctxt).allocation.syncData s).valid j = false := by
  cases t with
  | lb => simp [Timer.apply, hst] at hnew
  | cache data stored => cases stored <;> simp [Timer.apply, hst] at hnew
  | hh syncmap => rfl

/-- **The switch over the status** enters the loop that reads when the memory is being saved. -/
theorem dispatch_saving (hpoint : c.point = .dispatch) (ch : Choice) :
    SavesStep c (c.dispatch ch).1 := by
  unfold Client.dispatch
  split <;> rename_i hst
  case h_4 =>
      refine .of_goes hst (by rw [hpoint]; trivial) rfl fun todo _ hprogress => ?_
      cases hprogress
  case h_5 | h_6 =>
      refine .of_outside (fun hs => ?_) (fun todo hp => ?_) fun hnew => absurd hnew (by simp [hst])
      · dsimp only at hs
        split_ifs at hs <;> exact hs.elim
      · dsimp only at hp
        split_ifs at hp
  case h_7 =>
      refine ⟨fun hs => ?_, passDone_of_point fun todo hp => ?_, fun hs => Or.inr ⟨by simp [hst], ?_⟩⟩
      · dsimp only at hs
        rw [hpoint] at hs
        exact hs.elim
      · dsimp only at hp
        rw [hpoint] at hp
        cases hp
      · exact apply_snapshotting ch.timer hst hs.1
  all_goals
    refine .of_outside (fun hs => ?_) (fun todo hp => ?_) fun hnew => absurd hnew (by simp [hst])
    · rw [hpoint] at hs
      exact hs.elim
    · rw [hpoint] at hp
      cases hp

/-- **A word of the pass that reads** is recorded if it is skipped. -/
theorem visitSnapshot_saving (hst : c.ctxt.status = .snapshotting) (hpass : PassDone c) (ch : Choice)
    {x : Stage × ℕ} {todo : List (Stage × ℕ)} (hpoint : c.point = .snapshotting (x :: todo)) :
    SavesStep c (c.visitSnapshot ch x todo).1 := by
  have hread : c.point.MayRead := by rw [hpoint]; trivial
  unfold Client.visitSnapshot
  split_ifs with hskip
  · refine .of_goes hst hread rfl fun todo' hp hprogress s j hvalid hmap hrange => ?_
    obtain rfl := ControlPoint.snapshotting.inj hp
    rcases hpass (x :: todo) hpoint hprogress s j hvalid hmap hrange with hmem | hdone
    · rcases List.mem_cons.1 hmem with rfl | hmem
      · dsimp only at hvalid hmap
        exact Or.inr ((hskip.resolve_left (by simp [hvalid])).resolve_left (by simp [hmap]))
      · exact Or.inl hmem
    · exact Or.inr hdone
  · refine .of_goes hst hread rfl fun todo' _ hprogress => ?_
    cases hprogress

/-- After the loop that reads, the client is in another loop. -/
theorem leaveSnapshot_saving (hst : c.ctxt.status = .snapshotting) (ch : Choice) :
    SavesStep c (c.leaveSnapshot ch) := by
  refine .of_outside (fun _ => hst) (fun todo hp => ?_) fun _ => ?_
  · cases hinv : ch.invalidation <;> simp [Client.leaveSnapshot, hinv, Invalidation.apply] at hp
  · cases hinv : ch.invalidation <;>
      simp [Client.leaveSnapshot, hinv, Invalidation.apply, ControlPoint.MayRead]

/-- **A step of the control loop, seen from the loop that reads.** -/
theorem control_saving (hsaves : c.point.Saves → c.ctxt.status = .snapshotting) (hpass : PassDone c)
    (ch : Choice) : SavesStep c (c.control ch).1 := by
  unfold Client.control
  split <;> rename_i hpoint
  case h_1 => exact dispatch_saving hpoint ch
  case h_2 => exact visitSnapshot_saving (hsaves (by rw [hpoint]; trivial)) hpass ch hpoint
  case h_3 =>
      have hst := hsaves (by rw [hpoint]; trivial)
      split_ifs
      · -- a pass begins: every word of it is left
        refine .of_goes hst (by rw [hpoint]; trivial) rfl fun todo hp _ s j hvalid _ hrange => ?_
        obtain rfl := ControlPoint.snapshotting.inj hp
        exact Or.inl (mem_words.2 ⟨hvalid, hrange⟩)
      · exact leaveSnapshot_saving hst ch
  case h_4 =>
      have hst := hsaves (by rw [hpoint]; trivial)
      unfold Client.visitInvalidate
      split_ifs <;> exact .of_outside (fun _ => hst) (fun todo hp => (by cases hp)) fun _ => id
  case h_5 =>
      have hst := hsaves (by rw [hpoint]; trivial)
      split_ifs <;> exact .of_outside (fun _ => hst) (fun todo hp => (by cases hp)) fun _ => id
  case h_6 =>
      refine .of_outside False.elim (fun todo hp => (by cases hp)) fun hnew => absurd hnew ?_
      dsimp only
      split_ifs <;> simp
  case h_7 =>
      unfold Client.visitReset
      split_ifs <;> exact .of_outside False.elim (fun todo hp => (by cases hp)) fun _ => id
  case h_8 =>
      split_ifs <;> exact .of_outside False.elim (fun todo hp => (by cases hp)) fun _ => id
  case h_9 =>
      exact .of_outside False.elim (fun todo hp => (by cases hp)) fun hnew => absurd hnew (by simp)

/-- **A packet, seen from the loop that reads.** -/
theorem receive_saving (hsaves : c.point.Saves → c.ctxt.status = .snapshotting) (hpass : PassDone c)
    {ctxt : Context} {pkt : RxPacket} (hrx : Received c.ctxt pkt ctxt)
    (hc' : c' = { c with ctxt := ctxt }) :
    (c'.point.Saves → c'.ctxt.status = .snapshotting) ∧ PassDone c' ∧
    (c'.Saving → (c.Saving ∧ (ctxt = c.ctxt ∨ pkt.isReply = true ∧ ctxt = recordReply c.ctxt pkt)) ∨
      (c.ctxt.status ≠ .snapshotting ∧ ∀ s j, (ctxt.allocation.syncData s).valid j = false)) := by
  subst hc'
  -- in the loop, the status is the one of a snapshot
  have hloop : c.ctxt.status ≠ .snapshotting → ∀ todo, c.point ≠ .snapshotting todo :=
    fun hst todo hp => hst (hsaves (by rw [hp]; trivial))
  have hout : c.ctxt.status ≠ .snapshotting → ¬ c.point.Saves := fun hst hs => hst (hsaves hs)
  cases hrx with
  | granted hst =>
      have hne : c.ctxt.status ≠ .snapshotting := by simp [hst]
      exact ⟨fun hs => absurd hs (hout hne), passDone_of_point (hloop hne), fun hs => absurd hs.1 (by simp)⟩
  | adopted hadopts hadopt =>
      have hne : c.ctxt.status ≠ .snapshotting := by rcases hadopts.1 with h | h <;> simp [h]
      refine ⟨fun hs => absurd hs (hout hne), passDone_of_point (hloop hne), fun hs => ?_⟩
      obtain ⟨programs, -, rfl⟩ := Option.map_eq_some_iff.1 hadopt
      exact absurd hs.1 (by simp)
  | read hst hr =>
      have hstatus := (invalid_recordReply c.ctxt pkt).2
      obtain ⟨hvalid, hranges⟩ := Context.stages_of_view (view_recordReply c.ctxt pkt)
      obtain ⟨hmap, hmarks⟩ := recordReply_marks c.ctxt pkt
      refine ⟨fun _ => hstatus.trans hst, ?_, fun hs => Or.inl ⟨⟨hst, hs.2⟩, Or.inr ⟨hr, rfl⟩⟩⟩
      intro todo hp hprogress s j hv hm hrange
      dsimp only at hv hm hrange ⊢
      rw [hvalid] at hv
      rw [hmap] at hm
      exact (hpass todo hp hprogress s j hv hm ((hranges s j).1 hrange)).imp_right (hmarks s j)
  | written hst hr =>
      have hne : c.ctxt.status ≠ .snapshotting := by rcases hst with h | h <;> simp [h]
      refine ⟨fun hs => absurd hs (hout hne), passDone_of_point (hloop hne), fun hs => ?_⟩
      exact absurd hs.1 (by rw [(invalid_recordWrite c.ctxt pkt).2]; exact hne)
  | remapped d hd hst hn =>
      have hne : c.ctxt.status ≠ .snapshotting := by rcases hst with h | h <;> simp [h]
      exact ⟨fun _ => rfl, passDone_of_point (hloop hne), fun _ => Or.inr ⟨hne, fun s j => rfl⟩⟩
  | ignored => exact ⟨hsaves, hpass, fun hs => Or.inl ⟨hs, Or.inl rfl⟩⟩

end Recorded

/-! ### Runs -/

section Runs

variable {y y' : SyncSystem} {e : SyncEvent}

/-- **What holds in every state of an orderly run.** -/
structure SyncSystem.Sound (y : SyncSystem) : Prop where
  rounds : ∀ r ∈ y.replies, r.round ≤ y.round
  saves : y.client.point.Saves → y.client.ctxt.status = .snapshotting
  pass : PassDone y.client
  truthful : y.client.Saving → ∀ r ∈ y.replies, r.snapshot = true → r.round = y.round →
    r.pkt.stageId ≠ some (Fin.last 19) → Truthful r.pkt y.heap y.touched
  recorded : y.client.Saving → Recorded y.client.ctxt.allocation y.heap y.touched

/-- **The client has made a step.** -/
theorem SyncSystem.Sound.moved (h : y.Sound) {c : Client} {sent : List TxPacket}
    (hsaves : c.point.Saves → c.ctxt.status = .snapshotting) (hpass : PassDone c)
    (hsaving : c.Saving →
      (y.client.Saving ∧ (Recorded y.client.ctxt.allocation y.heap y.touched →
        Recorded c.ctxt.allocation y.heap y.touched)) ∨
      (y.client.ctxt.status ≠ .snapshotting ∧
        ∀ s j, (c.ctxt.allocation.syncData s).valid j = false)) : (y.moved c sent).Sound := by
  have hround : y.round ≤ (y.moved c sent).round := by
    unfold SyncSystem.moved
    dsimp only
    split_ifs <;> omega
  refine ⟨fun r hr => (h.rounds r hr).trans hround, hsaves, hpass, ?_, ?_⟩
  · intro hs r hr hsnap hrr hstage
    rcases hsaving hs with ⟨hbefore, -⟩ | ⟨hst, -⟩
    · have hno : ¬ (c.ctxt.status = .snapshotting ∧ y.client.ctxt.status ≠ .snapshotting) :=
        fun hn => hn.2 hbefore.1
      simp only [SyncSystem.moved, if_neg hno] at hrr ⊢
      exact h.truthful hbefore r hr hsnap hrr hstage
    · -- no reply is of the round that has just begun
      have henters : c.ctxt.status = .snapshotting ∧ y.client.ctxt.status ≠ .snapshotting := ⟨hs.1, hst⟩
      simp only [SyncSystem.moved, if_pos henters] at hrr
      have := h.rounds r hr
      omega
  · intro hs
    rcases hsaving hs with ⟨hbefore, hkeep⟩ | ⟨hst, hclear⟩
    · have hno : ¬ (c.ctxt.status = .snapshotting ∧ y.client.ctxt.status ≠ .snapshotting) :=
        fun hn => hn.2 hbefore.1
      simp only [SyncSystem.moved, if_neg hno]
      exact hkeep (h.recorded hbefore)
    · exact recorded_of_clear hclear

theorem namedStage_ofNat (s : Stage) : namedStage (BitVec.ofNat 32 s.val) = some s := by
  have key : ∀ s : Stage, namedStage (BitVec.ofNat 32 s.val) = some s := by decide
  exact key s

/-- **The switch tells what its memory holds.** -/
theorem truthful_answer {fid : BitVec 16} {heap heap' : Heap} {pkt : TxPacket} {reply : RxPacket}
    (touched : Stage → Word → Bool) (h : answer fid heap pkt = some (reply, heap'))
    (hsnap : pkt.isSnapshot = true) (hstage : reply.stageId ≠ some (Fin.last 19)) :
    heap' = heap ∧ Truthful reply heap touched := by
  cases pkt with
  | snapshot s addr =>
      obtain ⟨rfl, rfl⟩ := Prod.ext_iff.1 (Option.some.inj h)
      have hnamed : namedStage (BitVec.ofNat 32 s.val) = some s := namedStage_ofNat s
      refine ⟨rfl, fun t ht _ => ?_⟩
      have ht : namedStage (BitVec.ofNat 32 s.val) = some t := ht
      obtain rfl : s = t := Option.some.inj (hnamed.symm.trans ht)
      have hlast : s ≠ Fin.last 19 := fun hs => hstage (hnamed.trans (congrArg some hs))
      show (if s = Fin.last 19 then 0 else heap s (BitVec.ofNat 32 addr)) =
        heap s (BitVec.ofNat 32 (BitVec.ofNat 32 addr).toNat)
      rw [if_neg hlast, BitVec.ofNat_toNat, BitVec.setWidth_eq]
  | reqalloc | getalloc | snapshotComplete | heartbeat => cases h
  | memremap s addr data => cases hsnap

/-- Another party writes a word. -/
theorem untouched_of_update {touched : Stage → Word → Bool} {s t : Stage} {a b : Word}
    (h : Function.update touched s (Function.update (touched s) a true) t b = false) :
    touched t b = false ∧ ¬ (t = s ∧ b = a) := by
  by_cases hts : t = s
  · subst hts
    rw [Function.update_self] at h
    by_cases hba : b = a
    · rw [hba, Function.update_self] at h
      cases h
    · rw [Function.update_of_ne hba] at h
      exact ⟨h, fun hn => hba hn.2⟩
  · rw [Function.update_of_ne hts] at h
    exact ⟨h, fun hn => hts hn.1⟩

theorem writeHeap_of_ne {heap : Heap} {s t : Stage} {a b data : Word} (h : ¬ (t = s ∧ b = a)) :
    writeHeap heap s a data t b = heap t b := by
  unfold writeHeap
  by_cases hts : t = s
  · subst hts
    rw [Function.update_self, Function.update_of_ne fun hba => h ⟨rfl, hba⟩]
  · rw [Function.update_of_ne hts]

theorem SyncSystem.Sound.write (h : y.Sound) (s : Stage) (a data : Word) :
    SyncSystem.Sound { y with
      heap := writeHeap y.heap s a data
      touched := Function.update y.touched s (Function.update (y.touched s) a true) } := by
  refine ⟨h.rounds, h.saves, h.pass, ?_, ?_⟩
  · intro hs r hr hsnap hround hstage t ht htouched
    obtain ⟨hold, hother⟩ := untouched_of_update htouched
    rw [h.truthful hs r hr hsnap hround hstage t ht hold]
    exact (writeHeap_of_ne hother).symm
  · intro hs t j hvalid htouched
    obtain ⟨hold, hother⟩ := untouched_of_update htouched
    rw [h.recorded hs t j hvalid hold]
    exact (writeHeap_of_ne hother).symm

theorem SyncSystem.Sound.next (h : y.Sound) (he : y.next e = some y') (ho : y.Orderly e) :
    y'.Sound := by
  cases e with
  | control ch =>
      obtain rfl := Option.some.inj he
      obtain ⟨hsaves, hpass, hsaving⟩ := control_saving h.saves h.pass ch
      refine h.moved hsaves hpass fun hs => (hsaving hs).imp_left fun hkeep => ⟨hkeep.1, ?_⟩
      rw [hkeep.2]
      exact id
  | receive pkt =>
      rw [SyncSystem.next] at he
      split_ifs at he with hreply
      obtain ⟨ctxt, hrx, rfl⟩ := Option.map_eq_some_iff.1 he
      obtain ⟨hsaves, hpass, hsaving⟩ := receive_saving h.saves h.pass (rxControl_cases hrx) rfl
      refine h.moved hsaves hpass fun hs => (hsaving hs).imp_left fun hkeep => ⟨hkeep.1, ?_⟩
      rcases hkeep.2 with hsame | ⟨hr, -⟩
      · rw [hsame]
        exact id
      · exact absurd hr hreply
  | execute i =>
      obtain ⟨pkt, hpkt, he⟩ := Option.bind_eq_some_iff.1 he
      obtain ⟨⟨reply, heap⟩, hanswer, he⟩ := Option.bind_eq_some_iff.1 he
      obtain rfl := Option.some.inj he
      refine ⟨?_, h.saves, h.pass, ?_, ?_⟩
      · intro r hr
        rcases List.mem_append.1 hr with hr | hr
        · exact h.rounds r hr
        · rw [List.mem_singleton.1 hr]
      · intro hs r hr hsnap hround hstage
        have hread := ho hs pkt hpkt
        rcases List.mem_append.1 hr with hr | hr
        · have hold := h.truthful hs r hr hsnap hround hstage
          cases pkt with
          | snapshot s addr =>
              obtain ⟨-, rfl⟩ := Prod.ext_iff.1 (Option.some.inj hanswer)
              exact hold
          | reqalloc | getalloc | snapshotComplete | heartbeat => cases hanswer
          | memremap s addr data => cases hread
        · obtain rfl := List.mem_singleton.1 hr
          obtain ⟨rfl, htruth⟩ := truthful_answer y.touched hanswer hread hstage
          exact htruth
      · intro hs
        have hread := ho hs pkt hpkt
        have hold := h.recorded hs
        cases pkt with
        | snapshot s addr =>
            obtain ⟨-, rfl⟩ := Prod.ext_iff.1 (Option.some.inj hanswer)
            exact hold
        | reqalloc | getalloc | snapshotComplete | heartbeat => cases hanswer
        | memremap s addr data => cases hread
  | deliver i =>
      obtain ⟨reply, hreply, he⟩ := Option.bind_eq_some_iff.1 he
      obtain ⟨ctxt, hrx, he⟩ := Option.bind_eq_some_iff.1 he
      obtain rfl := Option.some.inj he
      obtain ⟨hsaves, hpass, hsaving⟩ := receive_saving h.saves h.pass (rxControl_cases hrx) rfl
      refine h.moved hsaves hpass fun hs => (hsaving hs).imp_left fun hkeep => ⟨hkeep.1, fun hrec => ?_⟩
      obtain ⟨hsnap, hround, hstage⟩ := ho hkeep.1 reply hreply
      rcases hkeep.2 with hsame | ⟨-, hrecord⟩
      · rw [hsame]
        exact hrec
      · rw [hrecord]
        exact hrec.recordReply
          (h.truthful hkeep.1 reply (List.mem_of_getElem? hreply) hsnap hround hstage)
  | write s a data =>
      obtain rfl := Option.some.inj he
      exact h.write s a data

/-- The system at the start: nothing has been sent. -/
structure SyncSystem.Initial (y : SyncSystem) : Prop where
  client : y.client.Initial
  sent : y.sent = []
  replies : y.replies = []

theorem SyncSystem.Initial.sound (h : y.Initial) : y.Sound := by
  have hst := h.client.status
  refine ⟨by simp [h.replies], fun hs => ?_, passDone_of_point fun todo hp => ?_, fun hs => ?_,
    fun hs => ?_⟩
  · rw [h.client.point] at hs
    exact hs.elim
  · rw [h.client.point] at hp
    cases hp
  · exact absurd hs.1 (by simp [hst])
  · exact absurd hs.1 (by simp [hst])

/-- **What a client has read is what the memory holds**, in every run in which nothing late arrives while
it reads. -/
theorem snapshot_saved {y₀ : SyncSystem} {es : List SyncEvent} (h₀ : y₀.Initial)
    (h : Run (fun y e y' => SyncSystem.next y e = some y' ∧ y.Orderly e) y₀ es y) (hleaves : y.Leaves) :
    Saved y := by
  have hsound := h.invariant (I := SyncSystem.Sound) (fun _ _ _ h he => h.next he.1 he.2) h₀.sound
  have hst := hsound.saves (by rw [hleaves.point]; trivial)
  intro s hvalid hmap j hrange htouched
  refine hsound.recorded ⟨hst, by rw [hleaves.point]; trivial⟩ s j ?_ htouched
  exact (hsound.pass [] hleaves.point hleaves.done s j hvalid hmap hrange).resolve_left
    List.not_mem_nil

/-! ### A late acknowledgement -/

instance : Decidable y.Leaves :=
  decidable_of_iff (y.client.point = .snapshotting [] ∧ y.client.inProgress.snapshotting = false)
    ⟨fun h => ⟨h.1, h.2⟩, fun h => ⟨h.point, h.done⟩⟩

instance (y : SyncSystem) (e : SyncEvent) : Decidable (y.Orderly e) :=
  match e with
  | .deliver _ => inferInstanceAs (Decidable (_ → _))
  | .execute _ => inferInstanceAs (Decidable (_ → _))
  | .control _ | .receive _ | .write _ _ _ => .isTrue trivial

/-- A client that starts, and a memory of zeros. -/
def startingSync : SyncSystem := ⟨startingClient oneRead, fun _ _ => 0, [], [], 0, fun _ _ => false⟩

theorem initial_startingSync : startingSync.Initial := ⟨initial_startingClient, rfl, rfl⟩

/-- The control loop makes steps, and no timer fires. -/
def quietSteps (n : ℕ) : List SyncEvent := List.replicate n (.control quietChoice)

/-- A client gets its first allocation, and transmits. -/
def syncAllocation : List SyncEvent :=
  firstAllocation.map fun
    | .receive pkt => .receive pkt
    | .control ch => .control ch

/-- Another party writes a word, then the client is told to save its memory, and does. -/
def readsTwoWords (s : Stage) : List SyncEvent :=
  [.write s 0 5, .receive (remapNotice 1)] ++ quietSteps 4 ++
    [.execute 1, .execute 0, .deliver 0, .deliver 1] ++ quietSteps 3

/-- A run in which the replies change their order. -/
theorem snapshot_saved_two :
    ∃ y, Run (fun y e y' => SyncSystem.next y e = some y' ∧ y.Orderly e) startingSync
        (syncAllocation ++ readsTwoWords 1) y ∧ y.Leaves ∧ Saved y := by
  have hrun : ((syncAllocation ++ readsTwoWords 1).foldlM
      (fun y e => if SyncSystem.Orderly y e then SyncSystem.next y e else none) startingSync).map
        (fun y => decide y.Leaves) = some true := by
    decide +kernel
  obtain ⟨y, hy, hend⟩ := Option.map_eq_some_iff.1 hrun
  have hleaves := of_decide_eq_true hend
  exact ⟨y, run_of_foldlM hy, hleaves, snapshot_saved initial_startingSync (run_of_foldlM hy) hleaves⟩

/-- The timer starts an update of two words, the switch writes them, and its replies are late: the client
is told to save its memory. -/
def lateReplies : List SyncEvent :=
  [.control ⟨true, .lb, false, .cache (fun _ _ => 7) true⟩, .control ⟨true, .lb, true, .lb⟩] ++
    quietSteps 5 ++ [.execute 1, .execute 2, .receive (remapNotice 1)] ++ quietSteps 2 ++
      [.deliver 0, .deliver 1] ++ quietSteps 2

/-- **The replies to two writes are taken for what was read**: zeros are saved where the memory holds
seven. -/
theorem snapshot_lost :
    ∃ y₀ es y, SyncSystem.Initial y₀ ∧ Run (fun y e y' => SyncSystem.next y e = some y') y₀ es y ∧
      y.Leaves ∧ ¬ Saved y := by
  have hrun : ((syncAllocation ++ lateReplies).foldlM SyncSystem.next startingSync).map
        (fun y => decide (y.Leaves ∧ y.client.ctxt.allocation.validStages 1 = true ∧
          y.client.ctxt.allocation.syncmap 1 = true ∧
          (y.client.ctxt.allocation.syncData 1).InRange 0 ∧ y.touched 1 0 = false ∧
          (y.client.ctxt.allocation.syncData 1).data 0 ≠ y.heap 1 0)) = some true := by
    decide +kernel
  obtain ⟨y, hy, hend⟩ := Option.map_eq_some_iff.1 hrun
  obtain ⟨hleaves, hvalid, hmap, hrange, htouched, hne⟩ := of_decide_eq_true hend
  exact ⟨_, _, y, initial_startingSync, Run.of_foldlM hy, hleaves,
    fun h => hne (h 1 hvalid hmap 0 hrange htouched)⟩

end Runs

end ActiveRmt
