/-
**Recirculation: how often one packet passes through the egress pipeline.**

At the end of a pass through the egress pipeline a packet may leave a copy of itself that enters the
pipeline again, for one of two reasons: its program has not completed, or has changed the port, and
it has passes left (`recirculate`); or its function is to be told that it is remapped, and the table
`mirror_ack` has a session for the port of arrival (`ack`).  The first takes one off `mirror_iter`,
the second clears `remap`, and no instruction touches either.  A copy that comes back after an `ack`
may be recirculated again, because any instruction may change the port.

`egressPasses` follows one packet under fixed tables.  Here a copy may find any tables, any memory
and any clocks when it comes back, as other packets and the controller work on the switch meanwhile.

Main definitions:

* `EgressPacket`, `EgressState` — what the parser extracts, and what the control works on;
* `MirrorTables`, `setMirrorSessions` — the tables of the mirror, and how the controller fills them;
* `egressApply`, `emitted` — a pass, and the copies that it leaves;
* `Reenters`, `Causes` — a copy comes back; one pass causes another.

Main results:

* `length_emitted_le`, `metaValid_of_emitted` — a pass leaves at most one copy, with its metadata;
* `emitted_recirculate` — the copy is the packet that `egressPasses` goes on with;
* `budget_lt_of_causes` — each pass has less left than the one that caused it;
* `recirculation_bounded` — **a packet passes at most `mirror_iter + 2` times**;
* `ack_loops` — a table that acknowledges packets without a remap keeps a packet for ever.
-/

import ActiveRmt.Execution

set_option relaxedAutoImplicit false
set_option autoImplicit false

namespace ActiveRmt

/-! ### Packets and tables -/

/-- `ether_type_t.AP4`. -/
def EtherTypeT.ap4 : BitVec 16 := 0x83B2

/-- **A packet in front of the egress parser**: the header with the metadata, and what follows it. -/
structure EgressPacket where
  /-- The metadata and the headers, with the memory of the switch. -/
  state : PacketState
  /-- `mirror_iter`: how many passes are left. -/
  mirrorIter : BitVec 7
  /-- `mirror_en`. -/
  mirrorEn : Bool
  /-- `mirror_sessid`, of the metadata. -/
  mirrorSessid : BitVec 10
  /-- The type of the frame. -/
  etherType : BitVec 16
  /-- The bytes behind the data words, in pairs. -/
  words : List ActiveInstr

/-- The tables of the mirror. -/
structure MirrorTables where
  /-- `mirror.cfg`: the port of a session. -/
  sessions : Dict (BitVec 10) (BitVec 9)
  /-- `mirror_cfg`: the session for a port of departure. -/
  mirrorCfg : Dict (BitVec 9) (BitVec 10)
  /-- `mirror_ack`: the session for a remap bit and a port of arrival. -/
  mirrorAck : Dict (Bool × BitVec 9) (BitVec 10)

/-- No tables. -/
def MirrorTables.empty : MirrorTables := ⟨Dict.empty, Dict.empty, Dict.empty⟩

/-- **Only remaps are acknowledged.** -/
def MirrorTables.AcksRemaps (tables : MirrorTables) : Prop :=
  ∀ k ∈ tables.mirrorAck.keys, k.1 = true

/-! ### The controller -/

/-- `createSidToPortMapping`: the sessions are numbered from one. -/
def createSidToPortMapping (ports : List (BitVec 9)) : List (ℕ × BitVec 9) :=
  (List.range' 1 ports.length).zip ports

/-- The three entries of one session. -/
def setMirrorSession (e : ℕ × BitVec 9) : EStateM Exn MirrorTables Unit := do
  zoom (·.sessions) (fun t d => { t with sessions := d })
    (Switch.change fun d => Switch.tableAdd d (BitVec.ofNat 10 e.1) e.2)
  zoom (·.mirrorCfg) (fun t d => { t with mirrorCfg := d })
    (Switch.change fun d => Switch.tableAdd d e.2 (BitVec.ofNat 10 e.1))
  zoom (·.mirrorAck) (fun t d => { t with mirrorAck := d })
    (Switch.change fun d => Switch.tableAdd d (true, e.2) (BitVec.ofNat 10 e.1))

/-- `setMirrorSessions`; `usage` is the number of sessions that the driver reports. -/
def setMirrorSessions (recirculationEnabled : Bool) (usage : ℕ) (mapping : List (ℕ × BitVec 9)) :
    EStateM Exn MirrorTables Unit :=
  if recirculationEnabled = false then pure ⟨⟩
  else if 0 < usage then pure ⟨⟩
  else mapping.forM setMirrorSession

theorem MirrorTables.acksRemaps_empty : MirrorTables.empty.AcksRemaps :=
  fun _ he => absurd he List.not_mem_nil

theorem ends_change_acks {t : MirrorTables} (h : t.AcksRemaps) (port : BitVec 9) (sid : BitVec 10) :
    Ends (zoom (·.mirrorAck) (fun t d => { t with mirrorAck := d })
      (Switch.change fun d => Switch.tableAdd d (true, port) sid)) t
      (fun _ => MirrorTables.AcksRemaps) MirrorTables.AcksRemaps := by
  refine ends_zoom.2 ?_
  by_cases hc : t.mirrorAck.contains (true, port) = true
  · have herror : Switch.change (fun d => Switch.tableAdd d (true, port) sid) t.mirrorAck =
        .error .tableError t.mirrorAck := by rw [Switch.change, Switch.tableAdd, if_pos hc]
    exact ends_of_error herror h
  · refine ends_of_ok (a := ⟨⟩) (by rw [Switch.change, Switch.tableAdd, if_neg hc]) fun k hk => ?_
    rcases (Dict.mem_keys_set _ _ _ _).1 hk with rfl | hk
    · rfl
    · exact h k hk

/-- **The controller has remaps acknowledged, and nothing else.** -/
theorem acksRemaps_setMirrorSessions {t : MirrorTables} (h : t.AcksRemaps) (enabled : Bool) (usage : ℕ)
    (mapping : List (ℕ × BitVec 9)) : Ends (setMirrorSessions enabled usage mapping) t
      (fun _ => MirrorTables.AcksRemaps) MirrorTables.AcksRemaps := by
  unfold setMirrorSessions
  refine ends_ite (fun _ => ends_pure.2 h) fun _ => ends_ite (fun _ => ends_pure.2 h) fun _ => ?_
  refine ends_forM_const MirrorTables.AcksRemaps (fun e _ s hs => ?_) h
  -- the first two tables are not that of the acknowledgements
  refine ends_bind.2 (ends_zoom.2 (ends_of_forall (fun _ sessions => ?_) fun _ => hs))
  refine ends_bind.2 (ends_zoom.2 (ends_of_forall (fun _ cfg => ?_) fun _ => hs))
  exact ends_change_acks (t := ⟨sessions, cfg, s.mirrorAck⟩) hs e.2 _

/-! ### A pass -/

/-- **What the egress control works on**: the packet, and its orders to the deparser. -/
structure EgressState where
  /-- The headers. -/
  packet : EgressPacket
  /-- The header with the metadata is there. -/
  metaValid : Bool
  /-- `mirror_sessid`, of the user metadata. -/
  session : BitVec 10
  /-- `mirror_type`. -/
  mirrorType : BitVec 3

/-- The instructions that the parser extracts. -/
def EgressPacket.stack (p : EgressPacket) : List ActiveInstr :=
  if p.etherType = EtherTypeT.ap4 then egressStack p.words p.state else []

/-- The parser: no orders yet. -/
def egressParse (p : EgressPacket) : EgressState :=
  { packet := p, metaValid := true, session := 0, mirrorType := 0 }

/-- `mirror_cfg`, with `set_mirror`. -/
def applyMirrorCfg (tables : MirrorTables) (s : EgressState) : EgressState :=
  match tables.mirrorCfg.get? s.packet.state.egressPort with
  | none => s
  | some sessid => { s with packet := { s.packet with mirrorEn := true, mirrorSessid := sessid } }

/-- The clocks, and the ten instruction tables: each removes its instruction. -/
def applyInstructions (env : Environment) (n : ℕ) (sw : Switch) (s : EgressState) : EgressState :=
  let p := s.packet
  { s with
    packet := { p with
      state := (runSlots env sw egressStage 0 (p.stack.take 10) (egressStart env n p.state)).2
      words := p.words.drop (min 10 p.stack.length) } }

/-- `recirculate`. -/
def recirculate (s : EgressState) : EgressState :=
  { s with
    session := s.packet.mirrorSessid
    mirrorType := 1
    packet := { s.packet with mirrorIter := s.packet.mirrorIter - 1 } }

/-- `ack`. -/
def ack (sessid : BitVec 10) (s : EgressState) : EgressState :=
  { s with
    session := sessid
    mirrorType := 1
    packet := { s.packet with
      state := { s.packet.state with remap := false, flagRemapped := true } } }

/-- The packet is dropped, unless it is to be duplicated. -/
def dropOriginal (s : EgressState) : EgressState :=
  let σ := s.packet.state
  { s with packet := { s.packet with
      state := { σ with dropped := σ.dropped || !σ.duplicate, duplicate := false } } }

/-- The packet is to go on. -/
def Unfinished (p : EgressPacket) : Prop := 0 < p.mirrorIter ∧ Mirrored p.state

instance (p : EgressPacket) : Decidable (Unfinished p) := inferInstanceAs (Decidable (_ ∧ _))

/-- The end of the control: to recirculate, or to acknowledge a remap. -/
def applyMirror (tables : MirrorTables) (s : EgressState) : EgressState :=
  if Unfinished s.packet then dropOriginal (recirculate s)
  else
    match tables.mirrorAck.get? (s.packet.state.remap, s.packet.state.ingressPort) with
    | some sessid => ack sessid s
    | none => { s with metaValid := false }

/-- **`Egress`**: a pass, the `n`-th one of the clocks. -/
def egressApply (env : Environment) (n : ℕ) (sw : Switch) (tables : MirrorTables) (p : EgressPacket) :
    EgressState :=
  applyMirror tables (applyInstructions env n sw (applyMirrorCfg tables (egressParse p)))

/-- What `mirror.emit` hands to a session. -/
structure MirrorCopy where
  /-- The session. -/
  session : BitVec 10
  /-- The header with the metadata is there. -/
  metaValid : Bool
  /-- The headers. -/
  packet : EgressPacket

/-- **The copies that the deparser emits.** -/
def emitted (s : EgressState) : List MirrorCopy :=
  if s.mirrorType = 1 then [⟨s.session, s.metaValid, s.packet⟩] else []

/-- **A copy comes back**, through the port of its session: its headers as they were written, without
user metadata, to a memory on which others have worked.  Where the metadata header was not written,
the parser takes other bytes for it. -/
def Reenters (tables : MirrorTables) (c : MirrorCopy) (q : EgressPacket) : Prop :=
  tables.sessions.get? c.session = some q.state.egressPort ∧
    (c.metaValid = true → q = { c.packet with
      state := { c.packet.state with
        egressPort := q.state.egressPort
        portChange := false
        dropped := false
        heap := q.state.heap } })

/-- **The pass of one packet causes the pass of another**, where the tables have `P`. -/
def Causes (P : MirrorTables → Prop) (p q : EgressPacket) : Prop :=
  ∃ env n sw tables, P tables ∧ ∃ c ∈ emitted (egressApply env n sw tables p), Reenters tables c q

/-! ### What an instruction does not touch -/

section Slots

variable {env : Environment} {sw : Switch} {stageAt : ℕ → Stage}

theorem exec_remap (i : Stage) (goto : Bool) (a : BoundAction) (σ : PacketState) :
    (exec env i goto a σ).remap = σ.remap := by
  obtain ⟨act, arg⟩ := a
  cases act <;> simp only [exec] <;> (try split_ifs) <;> rfl

theorem slot_remap (i : Stage) (instr : ActiveInstr) (σ : PacketState) :
    (slot env sw i instr σ).remap = σ.remap := by
  rw [slot]
  cases sw.lookup i (σ.key instr) with
  | none => rfl
  | some a => exact exec_remap i _ a σ

/-- No program clears or sets `remap`. -/
theorem runSlots_remap (k : ℕ) (stack : List ActiveInstr) (σ : PacketState) :
    (runSlots env sw stageAt k stack σ).2.remap = σ.remap := by
  induction stack generalizing k σ with
  | nil => rfl
  | cons instr stack ih => exact (ih _ _).trans (slot_remap _ _ _)

end Slots

/-! ### The copies of a pass -/

section Pass

variable {env : Environment} {n : ℕ} {sw : Switch} {tables : MirrorTables} {p q : EgressPacket}
  {s : EgressState}

/-- The state in front of the decision. -/
def egressRun (env : Environment) (n : ℕ) (sw : Switch) (tables : MirrorTables) (p : EgressPacket) :
    EgressState :=
  applyInstructions env n sw (applyMirrorCfg tables (egressParse p))

theorem egressApply_eq : egressApply env n sw tables p =
    applyMirror tables (egressRun env n sw tables p) := rfl

theorem applyMirrorCfg_fields (tables : MirrorTables) (s : EgressState) :
    (applyMirrorCfg tables s).packet.state = s.packet.state ∧
    (applyMirrorCfg tables s).packet.mirrorIter = s.packet.mirrorIter ∧
    (applyMirrorCfg tables s).packet.words = s.packet.words ∧
    (applyMirrorCfg tables s).packet.etherType = s.packet.etherType ∧
    (applyMirrorCfg tables s).metaValid = s.metaValid ∧
    (applyMirrorCfg tables s).mirrorType = s.mirrorType := by
  unfold applyMirrorCfg
  cases tables.mirrorCfg.get? s.packet.state.egressPort with
  | none => exact ⟨rfl, rfl, rfl, rfl, rfl, rfl⟩
  | some sessid => exact ⟨rfl, rfl, rfl, rfl, rfl, rfl⟩

theorem egressRun_mirrorIter : (egressRun env n sw tables p).packet.mirrorIter = p.mirrorIter :=
  (applyMirrorCfg_fields _ _).2.1

theorem egressRun_metaValid : (egressRun env n sw tables p).metaValid = true :=
  (applyMirrorCfg_fields _ _).2.2.2.2.1

theorem egressRun_mirrorType : (egressRun env n sw tables p).mirrorType = 0 :=
  (applyMirrorCfg_fields _ _).2.2.2.2.2

theorem egressRun_remap : (egressRun env n sw tables p).packet.state.remap = p.state.remap := by
  have hstate : (applyMirrorCfg tables (egressParse p)).packet.state = p.state :=
    (applyMirrorCfg_fields _ _).1
  calc (egressRun env n sw tables p).packet.state.remap
      = (applyMirrorCfg tables (egressParse p)).packet.state.remap := runSlots_remap 0 _ _
    _ = p.state.remap := congrArg PacketState.remap hstate

theorem emitted_of_ordered (h : s.mirrorType = 1) :
    emitted s = [⟨s.session, s.metaValid, s.packet⟩] := if_pos h

/-- **A pass leaves at most one copy.** -/
theorem length_emitted_le (s : EgressState) : (emitted s).length ≤ 1 := by
  unfold emitted
  split_ifs with h
  · exact le_rfl
  · exact Nat.zero_le _

/-- **Why a copy is left**: the packet goes on, or a remap is acknowledged. -/
theorem emitted_cases {c : MirrorCopy} (hc : c ∈ emitted (egressApply env n sw tables p)) :
    (Unfinished (egressRun env n sw tables p).packet ∧
      c = ⟨(egressRun env n sw tables p).packet.mirrorSessid, true,
        (dropOriginal (recirculate (egressRun env n sw tables p))).packet⟩) ∨
    ∃ sessid, tables.mirrorAck.get? (p.state.remap,
        (egressRun env n sw tables p).packet.state.ingressPort) = some sessid ∧
      c = ⟨sessid, true, (ack sessid (egressRun env n sw tables p)).packet⟩ := by
  have hmeta : (egressRun env n sw tables p).metaValid = true := egressRun_metaValid
  have htype : (egressRun env n sw tables p).mirrorType = 0 := egressRun_mirrorType
  have hremap : (egressRun env n sw tables p).packet.state.remap = p.state.remap := egressRun_remap
  rw [egressApply_eq] at hc
  by_cases hunf : Unfinished (egressRun env n sw tables p).packet
  · refine .inl ⟨hunf, ?_⟩
    rw [applyMirror, if_pos hunf, emitted_of_ordered rfl, List.mem_singleton] at hc
    rw [hc, ← hmeta]
    rfl
  · rw [applyMirror, if_neg hunf, hremap] at hc
    cases hack : tables.mirrorAck.get? (p.state.remap,
        (egressRun env n sw tables p).packet.state.ingressPort) with
    | some sessid =>
        rw [hack] at hc
        dsimp only at hc
        rw [emitted_of_ordered rfl, List.mem_singleton] at hc
        refine .inr ⟨sessid, rfl, ?_⟩
        rw [hc, ← hmeta]
        rfl
    | none =>
        -- the deparser has no order
        rw [hack] at hc
        dsimp only at hc
        rw [emitted, if_neg (by rw [htype]; decide)] at hc
        exact absurd hc List.not_mem_nil

/-- A copy has its metadata. -/
theorem metaValid_of_emitted {c : MirrorCopy} (hc : c ∈ emitted (egressApply env n sw tables p)) :
    c.metaValid = true := by
  rcases emitted_cases hc with ⟨_, rfl⟩ | ⟨_, _, rfl⟩
  · rfl
  · rfl

/-- **The copy of a program that goes on is the packet of the next pass**: one pass less, what is left
of the program, and the state of the mirrored packet. -/
theorem emitted_recirculate (hap4 : p.etherType = EtherTypeT.ap4)
    (hunf : Unfinished (egressRun env n sw tables p).packet) :
    ∃ c, emitted (egressApply env n sw tables p) = [c] ∧
      c.packet.mirrorIter = p.mirrorIter - 1 ∧ c.packet.words = remaining p.words p.state ∧
      { c.packet.state with dropped := false } =
        { mirror (egressPass env sw n p.words p.state).2 with dropped := false } := by
  have hstate : (applyMirrorCfg tables (egressParse p)).packet.state = p.state :=
    (applyMirrorCfg_fields _ _).1
  obtain ⟨-, hiter, hwords, hether, -, -⟩ := applyMirrorCfg_fields tables (egressParse p)
  have hstack : (applyMirrorCfg tables (egressParse p)).packet.stack = egressStack p.words p.state := by
    rw [EgressPacket.stack, hether, hstate, hwords]
    exact if_pos hap4
  let last := dropOriginal (recirculate (egressRun env n sw tables p))
  refine ⟨⟨last.session, last.metaValid, last.packet⟩, ?_, ?_, ?_, ?_⟩
  · exact congrArg emitted (egressApply_eq.trans (if_pos hunf))
  · exact congrArg (· - 1) hiter
  · show (applyMirrorCfg tables (egressParse p)).packet.words.drop
      (min 10 (applyMirrorCfg tables (egressParse p)).packet.stack.length) = _
    rw [hstack, hwords]
    rfl
  · have hrun : (egressRun env n sw tables p).packet.state =
        (egressPass env sw n p.words p.state).2 := by
      show (runSlots env sw egressStage 0
        ((applyMirrorCfg tables (egressParse p)).packet.stack.take 10)
        (egressStart env n (applyMirrorCfg tables (egressParse p)).packet.state)).2 = _
      rw [hstack, hstate]
      rfl
    rw [← hrun]
    rfl

end Pass

/-! ### How many passes -/

/-- **What a packet has left**: its passes, and the notice of a remap. -/
def EgressPacket.budget (p : EgressPacket) : ℕ := p.mirrorIter.toNat + p.state.remap.toNat

theorem EgressPacket.budget_le (p : EgressPacket) : p.budget ≤ p.mirrorIter.toNat + 1 :=
  Nat.add_le_add_left (Bool.toNat_le p.state.remap) _

/-- **Each pass has less left than the one that caused it.** -/
theorem budget_lt_of_causes {p q : EgressPacket} (h : Causes MirrorTables.AcksRemaps p q) :
    q.budget < p.budget := by
  obtain ⟨env, n, sw, tables, hacks, c, hc, _, hq⟩ := h
  have hq := hq (metaValid_of_emitted hc)
  have hremap : (egressRun env n sw tables p).packet.state.remap = p.state.remap := egressRun_remap
  have hiter : (egressRun env n sw tables p).packet.mirrorIter = p.mirrorIter := egressRun_mirrorIter
  rw [hq]
  rcases emitted_cases hc with ⟨hunf, rfl⟩ | ⟨sessid, hget, rfl⟩
  · -- `recirculate`
    show ((egressRun env n sw tables p).packet.mirrorIter - 1).toNat +
      (egressRun env n sw tables p).packet.state.remap.toNat < p.budget
    have hpos : 0 < p.mirrorIter.toNat := by
      have := hunf.1
      rw [hiter] at this
      exact this
    have hsub : (p.mirrorIter - 1).toNat = p.mirrorIter.toNat - 1 := by
      bv_omega
    rw [hremap, hiter, hsub, EgressPacket.budget]
    omega
  · -- `ack`: the entry is one for a remap
    show (egressRun env n sw tables p).packet.mirrorIter.toNat + 0 < p.budget
    have hone : p.state.remap = true := hacks _ ((Dict.mem_keys_iff _ _).2 ⟨sessid, hget⟩)
    rw [hiter, EgressPacket.budget, hone]
    exact Nat.lt_succ_self _

/-- A chain along which a number decreases is no longer than the number. -/
theorem length_le_of_isChain {α : Type} {R : α → α → Prop} {μ : α → ℕ}
    (hR : ∀ p q, R p q → μ q < μ p) (chain : List α) (p : α) (h : List.IsChain R (p :: chain)) :
    (p :: chain).length ≤ μ p + 1 := by
  induction chain generalizing p with
  | nil => exact Nat.le_add_left 1 _
  | cons q chain ih =>
      obtain ⟨hpq, hrest⟩ := List.isChain_cons_cons.1 h
      have hlt := hR p q hpq
      have hle := ih q hrest
      rw [List.length_cons]
      omega

/-- **A packet passes through the egress pipeline at most `mirror_iter + 2` times**, whatever its
program and whatever it finds in each pass, and each pass leaves at most one copy. -/
theorem recirculation_bounded (p : EgressPacket) :
    (∀ chain, List.IsChain (Causes MirrorTables.AcksRemaps) (p :: chain) →
      (p :: chain).length ≤ p.mirrorIter.toNat + 2) ∧
    ∀ env n sw tables, (emitted (egressApply env n sw tables p)).length ≤ 1 := by
  refine ⟨fun chain h => ?_, fun env n sw tables => length_emitted_le _⟩
  have hdecr : ∀ p q, Causes MirrorTables.AcksRemaps p q → q.budget < p.budget :=
    fun _ _ => budget_lt_of_causes
  have hlen := length_le_of_isChain hdecr chain p h
  have hbudget := p.budget_le
  omega

/-- The tables of a switch with port zero only. -/
def onePort : MirrorTables :=
  { sessions := Dict.empty.set 1 0, mirrorCfg := Dict.empty.set 0 1, mirrorAck := Dict.empty.set (true, 0) 1 }

/-- They are what the controller installs. -/
theorem onePort_installed :
    setMirrorSessions true 0 (createSidToPortMapping [0]) MirrorTables.empty = .ok ⟨⟩ onePort := rfl

/-- A packet without a program. -/
def noProgram (mirrorIter : BitVec 7) (mirrorEn remap flagRemapped : Bool) (mirrorSessid : BitVec 10) :
    EgressPacket :=
  { state := { blankState 1 with remap := remap, flagRemapped := flagRemapped }
    mirrorIter := mirrorIter, mirrorEn := mirrorEn, mirrorSessid := mirrorSessid
    etherType := EtherTypeT.ap4, words := [] }

/-- The bound is met: a packet is recirculated, then acknowledged, and passes once more. -/
theorem recirculation_bounded_three :
    List.IsChain (Causes MirrorTables.AcksRemaps) [noProgram 1 false true false 0,
      noProgram 0 true true false 1, noProgram 0 true false true 1] ∧
    [noProgram 1 false true false 0, noProgram 0 true true false 1,
      noProgram 0 true false true 1].length ≤ 3 := by
  have hacks : onePort.AcksRemaps :=
    (acksRemaps_setMirrorSessions MirrorTables.acksRemaps_empty true 0 _).1 _ _ onePort_installed
  have hchain : List.IsChain (Causes MirrorTables.AcksRemaps) [noProgram 1 false true false 0,
      noProgram 0 true true false 1, noProgram 0 true false true 1] := by
    refine List.isChain_cons_cons.2 ⟨?_, List.isChain_cons_cons.2 ⟨?_, List.isChain_singleton _⟩⟩
    · let copied := noProgram 0 true true false 1
      exact ⟨quietEnvironment, 0, Switch.init, onePort, hacks,
        ⟨1, true, { copied with state := { copied.state with dropped := true } }⟩,
        List.mem_singleton.2 rfl, rfl, fun _ => rfl⟩
    · exact ⟨quietEnvironment, 0, Switch.init, onePort, hacks, ⟨1, true, noProgram 0 true false true 1⟩,
        List.mem_singleton.2 rfl, rfl, fun _ => rfl⟩
  exact ⟨hchain, (recirculation_bounded _).1 _ hchain⟩

/-! ### A table that keeps a packet -/

/-- Tables that acknowledge a packet without a remap. -/
def ackAll : MirrorTables :=
  { sessions := Dict.empty.set 1 0, mirrorCfg := Dict.empty, mirrorAck := Dict.empty.set (false, 0) 1 }

/-- A packet whose program has completed. -/
def completedPacket : EgressPacket :=
  { state := { blankState 1 with complete := true, flagDone := true, flagRemapped := true }
    mirrorIter := 0, mirrorEn := false, mirrorSessid := 0, etherType := EtherTypeT.ap4, words := [] }

/-- Its copy comes back as the same packet. -/
theorem completedPacket_causes : Causes (fun _ => True) completedPacket completedPacket :=
  ⟨quietEnvironment, 0, Switch.init, ackAll, trivial, ⟨1, true, completedPacket⟩,
    List.mem_singleton.2 rfl, rfl, fun _ => rfl⟩

/-- **With such a table a packet stays for ever.** -/
theorem ack_loops : ∃ p : EgressPacket, p.mirrorIter = 0 ∧ ∀ m : ℕ, ∃ chain,
    List.IsChain (Causes fun _ => True) (p :: chain) ∧ (p :: chain).length = m + 1 := by
  refine ⟨completedPacket, rfl, fun m => ⟨List.replicate m completedPacket, ?_, by simp⟩⟩
  induction m with
  | zero => exact List.isChain_singleton _
  | succ m ih =>
      rw [List.replicate_succ]
      exact List.isChain_cons_cons.2 ⟨completedPacket_causes, ih⟩

end ActiveRmt
