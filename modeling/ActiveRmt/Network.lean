/-
**Many functions on one switch.**

The controller changes the tables, and between its steps the packets of all functions move through the
stages, in any order: a packet is anywhere in its pipelines when another one gets its next slot, and it
finds the tables and the memory as they are then.

A step of the controller is one step here as well: packets do not see the tables half changed.  A copy that
acknowledges a remap is a packet that comes back to the egress pipeline at any time, in any state.

Main definitions:

* `Network`, `Network.Step` — the controller, the memory, the packets on their way, and a step of any of them;
* `Network.Alike` — two networks that look the same to some of the functions;
* `Session`, `serve` — a packet that is served from its arrival to its departure, and what it leaves behind.

Main results:

* `Network.noninterference` — **functions do not see what others do**, in any interleaving, while they are
  given no other memory;
* `Network.word_kept` — **a word of a block is changed by its function only**, also while others come, move
  and go;
* `Network.private_switch` — **who sends one packet after the other finds a switch of its own**.
-/

import ActiveRmt.Isolation

set_option relaxedAutoImplicit false
set_option autoImplicit false

namespace ActiveRmt

/-! ### The system -/

/-- **The controller, and the packets of all functions.** -/
structure Network where
  /-- The controller, with the tables. -/
  controller : Controller
  /-- The memory of the stages. -/
  heap : Stages
  /-- `pkt_count`: the packets of a function so far. -/
  pktCount : BitVec 16 → Word
  /-- The packets on their way, by function and number. -/
  flights : BitVec 16 → ℕ → Option Flight

/-- A step of the system. -/
inductive NetworkEvent
  /-- The controller makes a step. -/
  | control (e : Controller.Event)
  /-- A packet arrives. -/
  | enter (k : ℕ) (pkt : Arrival)
  /-- A copy of a packet comes back to the egress pipeline, as `mirror_ack` sends it. -/
  | reenter (k iter n : ℕ) (words : List ActiveInstr) (σ : PacketState)
  /-- A packet makes its next step. -/
  | move (fid : BitVec 16) (k : ℕ) (env : Environment)

/-- What the pipelines read, with the counter of the switch. -/
def Environment.counting (env : Environment) (n : Word) : Environment := { env with pktCount := fun _ => n }

/-- A step of the packets, not of the controller. -/
def NetworkEvent.isPacket : NetworkEvent → Bool
  | .control _ => false
  | .enter _ _ | .reenter _ _ _ _ _ | .move _ _ _ => true

/-- A step of a packet of a function. -/
def NetworkEvent.movesOf (f : BitVec 16) : NetworkEvent → Bool
  | .move g _ _ => decide (g = f)
  | .control _ | .enter _ _ | .reenter _ _ _ _ _ => false

namespace Network

/-- A packet is where it is now. -/
def put (x : Network) (fid : BitVec 16) (k : ℕ) (F : Flight) : Network :=
  { x with flights := Function.update x.flights fid (Function.update (x.flights fid) k (some F)) }

/-- A packet has made steps, and this is the memory. -/
def set (x : Network) (fid : BitVec 16) (k : ℕ) (r : Flight × Stages) : Network :=
  { x.put fid k r.1 with heap := r.2 }

/-- So many packets of a function have been counted. -/
def count (x : Network) (fid : BitVec 16) (n : Word) : Network :=
  { x with pktCount := Function.update x.pktCount fid n }

/-- `update_pkt_count_ap4`: a packet is counted in its first step. -/
def counted (x : Network) (fid : BitVec 16) : Flight → Word
  | .arriving _ => x.pktCount fid + 1
  | _ => x.pktCount fid

/-- A packet makes its next step. -/
def moved (x : Network) (fid : BitVec 16) (k : ℕ) (env : Environment) (F : Flight) : Network :=
  (x.set fid k (F.step (env.counting (x.counted fid F)) x.controller.switch x.heap)).count fid
    (x.counted fid F)

/-- **A step of the system.** -/
def Step (cfg : ControllerConfig) (x : Network) : NetworkEvent → Network → Prop
  | .control e, y =>
      Controller.Step cfg x.controller e y.controller ∧ y = { x with controller := y.controller }
  | .enter k pkt, y => x.flights pkt.state.fid k = none ∧ y = x.put pkt.state.fid k (.arriving pkt)
  | .reenter k iter n words σ, y =>
      x.flights σ.fid k = none ∧ y = x.put σ.fid k (.waiting iter n words σ.alone)
  | .move fid k env, y => ∃ F, x.flights fid k = some F ∧ y = x.moved fid k env F

/-- **No exception has left the lock held**, and no reset while an allocation waits. -/
def Calm (x : Network) : NetworkEvent → Prop
  | .control e => x.controller.mutex = false ∧ x.controller.Calm e
  | .enter _ _ | .reenter _ _ _ _ _ | .move _ _ _ => x.controller.mutex = false

instance (x : Network) (e : NetworkEvent) : Decidable (x.Calm e) :=
  match e with
  | .control e => inferInstanceAs (Decidable (x.controller.mutex = false ∧ x.controller.Calm e))
  | .enter _ _ | .reenter _ _ _ _ _ | .move _ _ _ => inferInstanceAs (Decidable (x.controller.mutex = false))

theorem Calm.lock {x : Network} {e : NetworkEvent} (h : x.Calm e) : x.controller.mutex = false := by
  cases e with
  | control e => exact h.1
  | enter k pkt => exact h
  | reenter k iter n words σ => exact h
  | move f k env => exact h

/-- The system when the controller has started. -/
def start (cfg : ControllerConfig) (heap : Stages) : Network :=
  ⟨Controller.init cfg, heap, fun _ => 0, fun _ _ => none⟩

/-- The controller has been calm, and the packets are with their functions. -/
structure Sound (cfg : ControllerConfig) (x : Network) : Prop where
  /-- The tables are those of a run of the controller. -/
  controlled : ∃ es, Run (fun c e c' => Controller.Step cfg c e c' ∧ c.Calm e) (Controller.init cfg) es
    x.controller
  /-- A packet is one of its function. -/
  fids : ∀ f k F, x.flights f k = some F → F.fid = f

variable {cfg : ControllerConfig} {x y x' : Network} {e : NetworkEvent} {f g : BitVec 16} {k : ℕ}
  {env : Environment} {F : Flight}

@[simp] theorem put_flights (x : Network) (f g : BitVec 16) (k j : ℕ) (F : Flight) :
    (x.put f k F).flights g j = if g = f ∧ j = k then some F else x.flights g j := by
  simp only [put, Function.update_apply]
  split_ifs <;> simp_all

@[simp] theorem moved_flights (x : Network) (f g : BitVec 16) (k j : ℕ) (env : Environment) (F : Flight) :
    (x.moved f k env F).flights g j = if g = f ∧ j = k then
      some (F.step (env.counting (x.counted f F)) x.controller.switch x.heap).1 else x.flights g j :=
  put_flights ..

@[simp] theorem moved_heap (x : Network) (f : BitVec 16) (k : ℕ) (env : Environment) (F : Flight) :
    (x.moved f k env F).heap = (F.step (env.counting (x.counted f F)) x.controller.switch x.heap).2 := rfl

@[simp] theorem moved_pktCount (x : Network) (f : BitVec 16) (k : ℕ) (env : Environment) (F : Flight) :
    (x.moved f k env F).pktCount = Function.update x.pktCount f (x.counted f F) := rfl

theorem sound_start (cfg : ControllerConfig) (heap : Stages) : (start cfg heap).Sound cfg :=
  ⟨⟨[], .nil _⟩, fun _ _ _ h => absurd h (by simp [start])⟩

theorem Sound.put (h : x.Sound cfg) (hF : F.fid = f) (k : ℕ) : (x.put f k F).Sound cfg := by
  refine ⟨h.controlled, fun g j G hG => ?_⟩
  rw [put_flights] at hG
  split_ifs at hG with heq
  · obtain rfl := Option.some.inj hG
    rw [hF, heq.1]
  · exact h.fids g j G hG

theorem Sound.step (h : x.Sound cfg) (hstep : x.Step cfg e y) (hcalm : x.Calm e) : y.Sound cfg := by
  cases e with
  | control e =>
      obtain ⟨hcontroller, hy⟩ := hstep
      obtain ⟨es, hrun⟩ := h.controlled
      refine ⟨⟨es ++ [e], hrun.snoc ⟨hcontroller, hcalm.2⟩⟩, ?_⟩
      rw [hy]
      exact h.fids
  | enter k pkt =>
      obtain ⟨-, rfl⟩ := hstep
      exact h.put (F := .arriving pkt) rfl k
  | reenter k iter n words σ =>
      obtain ⟨-, rfl⟩ := hstep
      exact h.put (F := .waiting iter n words σ.alone) rfl k
  | move fid k env =>
      obtain ⟨G, hG, rfl⟩ := hstep
      refine ⟨h.controlled, fun f j F hF => ?_⟩
      rw [moved_flights] at hF
      split_ifs at hF with heq
      · obtain rfl := Option.some.inj hF
        rw [Flight.step_fid, h.fids fid k G hG]
        exact heq.1.symm
      · exact h.fids f j F hF

theorem sound_of_run {heap : Stages} {es : List NetworkEvent}
    (h : Run (fun x e y => x.Step cfg e y ∧ x.Calm e) (start cfg heap) es x) : x.Sound cfg :=
  h.invariant (fun _ _ _ hs hstep => hs.step hstep.1 hstep.2) (sound_start cfg heap)

/-- **A word belongs to one function.** -/
theorem Sound.cell_unique (h : x.Sound cfg) (hm : x.controller.mutex = false) {i : Stage} {a : Word}
    (hf : x.controller.switch.Cell f i a) (hg : x.controller.switch.Cell g i a) : g = f := by
  obtain ⟨es, hrun⟩ := h.controlled
  exact BitVec.eq_of_toNat_eq (((Controller.guarded_of_run hrun).1.secure hm).unique hf hg)

/-! ### What a function sees -/

/-- **Two networks look the same to some of the functions**: they have the same packets of theirs, and the
same words in the memory that these may access. -/
structure Alike (fs : Finset (BitVec 16)) (x y : Network) : Prop where
  /-- The controllers are the same. -/
  controller : y.controller = x.controller
  /-- As many of their packets have been counted. -/
  pktCount : ∀ f ∈ fs, y.pktCount f = x.pktCount f
  /-- Their packets are where they are. -/
  flights : ∀ f ∈ fs, ∀ k, y.flights f k = x.flights f k
  /-- Their words are the same. -/
  heap : ∀ f ∈ fs, ∀ i a, x.controller.switch.Cell f i a → y.heap i a = x.heap i a

/-- **None of the functions is given other memory.** -/
def Keeps (fs : Finset (BitVec 16)) (x y : Network) : Prop :=
  ∀ f ∈ fs, ∀ i a, y.controller.switch.Cell f i a → x.controller.switch.Cell f i a

/-- The steps of the controller, and of the packets of some of the functions. -/
def concerns (fs : Finset (BitVec 16)) : NetworkEvent → Bool
  | .control _ => true
  | .enter _ pkt => decide (pkt.state.fid ∈ fs)
  | .reenter _ _ _ _ σ => decide (σ.fid ∈ fs)
  | .move fid _ _ => decide (fid ∈ fs)

variable {fs : Finset (BitVec 16)}

theorem controller_of_isPacket (h : x.Step cfg e y) (he : e.isPacket = true) :
    y.controller = x.controller := by
  cases e with
  | control e => exact absurd he Bool.false_ne_true
  | enter k pkt =>
      obtain ⟨-, rfl⟩ := h
      rfl
  | reenter k iter n words σ =>
      obtain ⟨-, rfl⟩ := h
      rfl
  | move f k env =>
      obtain ⟨F, -, rfl⟩ := h
      rfl

/-- Packets are given nothing. -/
theorem keeps_of_isPacket (fs : Finset (BitVec 16)) (h : x.Step cfg e y) (he : e.isPacket = true) :
    Keeps fs x y := by
  intro f _ i a hcell
  rwa [controller_of_isPacket h he] at hcell

theorem Alike.refl (fs : Finset (BitVec 16)) (x : Network) : Alike fs x x :=
  ⟨rfl, fun _ _ => rfl, fun _ _ _ => rfl, fun _ _ _ _ _ => rfl⟩

theorem Alike.put (h : Alike fs x x') (f : BitVec 16) (k : ℕ) (F : Flight) :
    Alike fs (x.put f k F) (x'.put f k F) :=
  ⟨h.controller, h.pktCount, fun g hg j => by rw [put_flights, put_flights, h.flights g hg], h.heap⟩

theorem Alike.put_unseen (h : Alike fs x x') (hf : f ∉ fs) (k : ℕ) (F : Flight) :
    Alike fs (x.put f k F) x' := by
  refine ⟨h.controller, h.pktCount, fun g hg j => ?_, h.heap⟩
  have hne : g ≠ f := by
    rintro rfl
    exact hf hg
  rw [put_flights, if_neg fun heq => hne heq.1, h.flights g hg]

/-- **The same packet of a function that looks on** makes the same step. -/
theorem Alike.move (h : Alike fs x x') (hf : f ∈ fs) (k : ℕ) (env : Environment) (hF : F.fid = f) :
    Alike fs (x.moved f k env F) (x'.moved f k env F) := by
  have hcounted : x'.counted f F = x.counted f F := by
    cases F <;> simp only [counted] <;> rw [h.pktCount f hf]
  obtain ⟨hflight, hheap⟩ := Flight.step_agree (env.counting (x.counted f F)) x.controller.switch F
    (C := fun i a => ∃ g ∈ fs, x.controller.switch.Cell g i a) (fun i a hcell => ⟨f, hf, hF ▸ hcell⟩)
    fun i a ⟨g, hg, hcell⟩ => h.heap g hg i a hcell
  refine ⟨h.controller, fun g hg => ?_, fun g hg j => ?_, fun g hg i a hcell => ?_⟩
  · rw [moved_pktCount, moved_pktCount, Function.update_apply, Function.update_apply, hcounted,
      h.pktCount g hg]
  · rw [moved_flights, moved_flights, hcounted, h.controller, hflight, h.flights g hg]
  · rw [moved_heap, moved_heap, hcounted, h.controller]
    exact hheap i a ⟨g, hg, hcell⟩

/-- **A packet of another function** makes a step that is not seen. -/
theorem Alike.move_unseen (h : Alike fs x x') (hx : x.Sound cfg) (hm : x.controller.mutex = false)
    (hf : f ∉ fs) (k : ℕ) (env : Environment) (hF : F.fid = f) : Alike fs (x.moved f k env F) x' := by
  have hne : ∀ g ∈ fs, g ≠ f := by
    rintro g hg rfl
    exact hf hg
  refine ⟨h.controller, fun g hg => ?_, fun g hg j => ?_, fun g hg i a hcell => ?_⟩
  · rw [moved_pktCount, Function.update_of_ne (hne g hg), h.pktCount g hg]
  · rw [moved_flights, if_neg fun heq => hne g hg heq.1, h.flights g hg]
  · -- the word belongs to a function that looks on, hence not to the packet
    rw [h.heap g hg i a hcell, moved_heap]
    refine (Flight.step_frame fun hcell' => hne g hg ?_).symm
    rw [hF] at hcell'
    exact hx.cell_unique hm hcell' hcell

/-- **A run that some functions see, and what is left of it**: the steps of the controller and of their own
packets, in a network that looked the same to them. -/
theorem Alike.run {es : List NetworkEvent} (hsound : x.Sound cfg) (hx : Alike fs x x')
    (h : Run (fun x e y => (x.Step cfg e y ∧ x.Calm e) ∧ Keeps fs x y) x es y) :
    ∃ y', Run (fun x e y => x.Step cfg e y ∧ x.Calm e) x' (es.filter (concerns fs)) y' ∧ Alike fs y y' := by
  suffices hunwind : ∃ y', Run (fun x e y => x.Step cfg e y ∧ x.Calm e) x' (es.filter (concerns fs)) y' ∧
      y.Sound cfg ∧ Alike fs y y' by
    obtain ⟨y', hrun, -, hy⟩ := hunwind
    exact ⟨y', hrun, hy⟩
  refine h.unwind (R := fun x x' => x.Sound cfg ∧ Alike fs x x') ?_ ?_ ⟨hsound, hx⟩
  · rintro x e y x' hconcerns ⟨hsound, hx⟩ ⟨⟨hstep, hcalm⟩, hkeeps⟩
    have hcalm' : x'.Calm e := by
      cases e <;> simp only [Calm, hx.controller] <;> exact hcalm
    have hy := hsound.step hstep hcalm
    cases e with
    | control e =>
        obtain ⟨hcontroller, heq⟩ := hstep
        refine ⟨{ x' with controller := y.controller }, ⟨⟨?_, rfl⟩, hcalm'⟩, hy, rfl, ?_, ?_, ?_⟩
        · rw [hx.controller]
          exact hcontroller
        · rw [heq]
          exact hx.pktCount
        · rw [heq]
          exact hx.flights
        · intro f hf i a hcell
          rw [heq]
          exact hx.heap f hf i a (hkeeps f hf i a hcell)
    | enter k pkt =>
        obtain ⟨hnone, rfl⟩ := hstep
        have hf : pkt.state.fid ∈ fs := of_decide_eq_true hconcerns
        refine ⟨_, ⟨⟨?_, rfl⟩, hcalm'⟩, hy, hx.put ..⟩
        rw [hx.flights _ hf, hnone]
    | reenter k iter n words σ =>
        obtain ⟨hnone, rfl⟩ := hstep
        have hf : σ.fid ∈ fs := of_decide_eq_true hconcerns
        refine ⟨_, ⟨⟨?_, rfl⟩, hcalm'⟩, hy, hx.put ..⟩
        rw [hx.flights _ hf, hnone]
    | move f k env =>
        obtain ⟨F, hF, rfl⟩ := hstep
        have hf : f ∈ fs := of_decide_eq_true hconcerns
        refine ⟨_, ⟨⟨F, ?_, rfl⟩, hcalm'⟩, hy, hx.move hf k env (hsound.fids f k F hF)⟩
        rw [hx.flights f hf, hF]
  · rintro x e y x' hconcerns ⟨hsound, hx⟩ ⟨⟨hstep, hcalm⟩, -⟩
    refine ⟨hsound.step hstep hcalm, ?_⟩
    cases e with
    | control e => exact absurd hconcerns (by simp [concerns])
    | enter k pkt =>
        obtain ⟨-, rfl⟩ := hstep
        exact hx.put_unseen (of_decide_eq_false hconcerns) k _
    | reenter k iter n words σ =>
        obtain ⟨-, rfl⟩ := hstep
        exact hx.put_unseen (of_decide_eq_false hconcerns) k _
    | move f k env =>
        obtain ⟨F, hF, rfl⟩ := hstep
        exact hx.move_unseen hsound hcalm.lock (of_decide_eq_false hconcerns) k env (hsound.fids f k F hF)

/-- The network after a step, if it can be taken and raises no exception. -/
def next (cfg : ControllerConfig) (x : Network) : NetworkEvent → Option Network
  | .control e => (Controller.execute cfg [e] x.controller).map fun c => { x with controller := c }
  | .enter k pkt =>
      if (x.flights pkt.state.fid k).isNone then some (x.put pkt.state.fid k (.arriving pkt)) else none
  | .reenter k iter n words σ =>
      if (x.flights σ.fid k).isNone then some (x.put σ.fid k (.waiting iter n words σ.alone)) else none
  | .move f k env => (x.flights f k).map (x.moved f k env)

theorem step_of_next {e : NetworkEvent} (h : x.next cfg e = some y) : x.Step cfg e y := by
  cases e with
  | control e =>
      obtain ⟨c, hc, rfl⟩ := Option.map_eq_some_iff.1 h
      exact ⟨Controller.step_of_execute hc, rfl⟩
  | enter k pkt =>
      simp only [next] at h
      split_ifs at h with hfree
      exact ⟨Option.isNone_iff_eq_none.1 hfree, (Option.some.inj h).symm⟩
  | reenter k iter n words σ =>
      simp only [next] at h
      split_ifs at h with hfree
      exact ⟨Option.isNone_iff_eq_none.1 hfree, (Option.some.inj h).symm⟩
  | move f k env =>
      obtain ⟨F, hF, rfl⟩ := Option.map_eq_some_iff.1 h
      exact ⟨F, hF, rfl⟩

/-- Steps that meet a condition, one after the other. -/
def execute (cfg : ControllerConfig) (P : Network → NetworkEvent → Prop) [∀ x e, Decidable (P x e)]
    (es : List NetworkEvent) (x : Network) : Option Network :=
  es.foldlM (fun x e => if P x e then next cfg x e else none) x

theorem run_of_execute {P : Network → NetworkEvent → Prop} [∀ x e, Decidable (P x e)]
    {es : List NetworkEvent} (h : execute cfg P es x = some y) :
    Run (fun x e y => x.Step cfg e y ∧ P x e) x es y :=
  (run_of_foldlM h).mono fun _ _ _ hstep => ⟨step_of_next hstep.1, hstep.2⟩

/-- The controller alone. -/
theorem run_map_control {es : List Controller.Event} {c : Controller}
    (h : Run (fun c e c' => Controller.Step cfg c e c' ∧ c.mutex = false ∧ c.Calm e) x.controller es c) :
    Run (fun x e y => x.Step cfg e y ∧ x.Calm e) x (es.map .control) { x with controller := c } := by
  generalize hd : x.controller = d at h
  induction h with
  | nil => exact hd ▸ .nil x
  | @snoc t _ _ _ _ hstep ih =>
      rw [List.map_append]
      subst hd
      exact .snoc ih (⟨⟨hstep.1, rfl⟩, hstep.2⟩ :
        Step cfg { x with controller := t } (.control _) _ ∧ Calm { x with controller := t } (.control _))

/-- A packet that writes a word. -/
def writePacket (f : BitVec 16) : Arrival where
  state := { blankState f with mar := 30000, mbr := 7 }
  words := [instrOf .memWrite, instrOf .eof]
  flagPreload := false
  flagAllocated := false
  flagInitiated := false

/-- Function one arrives. -/
def firstArrives : List NetworkEvent := (Controller.roundAndReset.take 3).map .control

/-- Function two arrives, and function one is moved; their packets are on their way. -/
def secondArrives : List NetworkEvent := ((Controller.roundAndReset.drop 3).take 3).map .control

/-- Packets of two functions, slot by slot in turn. -/
def inTurn : List NetworkEvent :=
  [.enter 0 (writePacket 1), .enter 0 (writePacket 2), .move 1 0 quietEnvironment, .move 2 0 quietEnvironment,
    .move 2 0 quietEnvironment, .move 1 0 quietEnvironment]

/-- Function two arrives and moves function one, and its packets are on their way meanwhile. -/
def whileMoving : List NetworkEvent :=
  [.enter 0 (writePacket 2), .move 2 0 quietEnvironment] ++ secondArrives ++ [.move 2 0 quietEnvironment]

end Network

/-- **A packet that is served from its arrival to its departure.** -/
structure Session where
  /-- Its number. -/
  k : ℕ
  /-- The packet. -/
  pkt : Arrival
  /-- What its pipelines read from outside. -/
  env : Environment
  /-- How many steps it gets. -/
  steps : ℕ
  /-- They are enough. -/
  enough : 144 ≤ steps

/-- The events of a session. -/
def Session.events (p : Session) : List NetworkEvent :=
  .enter p.k p.pkt :: List.replicate p.steps (.move p.pkt.state.fid p.k p.env)

/-- How the packet leaves a switch with this memory, where so many packets of its function have been counted. -/
def Session.outcome (sw : Switch) (s : Stages × Word) (p : Session) : PacketState :=
  (process (p.env.counting (s.2 + 1)) sw (p.pkt.within s.1)).2

/-- What it leaves behind. -/
def serve (sw : Switch) (s : Stages × Word) (p : Session) : Stages × Word := ((p.outcome sw s).heap, s.2 + 1)

namespace Network

variable {cfg : ControllerConfig} {x y : Network} {f : BitVec 16} {k : ℕ} {env : Environment} {F : Flight}

theorem set_self (h : x.flights f k = some F) : x.set f k (F, x.heap) = x := by
  rw [set, put, ← h, Function.update_eq_self, Function.update_eq_self]

theorem set_set (x : Network) (f : BitVec 16) (k : ℕ) (r r' : Flight × Stages) :
    (x.set f k r).set f k r' = x.set f k r' := by
  simp [set, put]

@[simp] theorem set_flights (x : Network) (f : BitVec 16) (k : ℕ) (r : Flight × Stages) :
    (x.set f k r).flights f k = some r.1 := by
  simp [set]

theorem set_put (x : Network) (f : BitVec 16) (k : ℕ) (F : Flight) (r : Flight × Stages) :
    (x.put f k F).set f k r = x.set f k r := by
  simp [set, put]

theorem count_self (x : Network) (f : BitVec 16) : x.count f (x.pktCount f) = x := by
  rw [count, Function.update_eq_self]

theorem set_count (x : Network) (f : BitVec 16) (k : ℕ) (n : Word) (r : Flight × Stages) :
    (x.count f n).set f k r = (x.set f k r).count f n := rfl

/-- The steps of a packet that has started, with no other step in between. -/
theorem run_moves {n : ℕ}
    (h : Run (fun x e y => x.Step cfg e y) x (List.replicate n (.move f k env)) y)
    (hF : x.flights f k = some F) (hstarted : ∀ pkt, F ≠ .arriving pkt) :
    y = x.set f k ((Flight.advance (env.counting (x.pktCount f)) x.controller.switch)^[n] (F, x.heap)) := by
  induction n generalizing x F with
  | zero =>
      generalize hnil : List.replicate 0 (NetworkEvent.move f k env) = es at h
      cases h with
      | nil => exact (set_self hF).symm
      | snoc _ _ => exact absurd hnil (by simp)
  | succ n ih =>
      rw [List.replicate_succ] at h
      obtain ⟨z, ⟨G, hG, rfl⟩, hrest⟩ := h.cons_inv
      obtain rfl := Option.some.inj (hF.symm.trans hG)
      have hcounted : x.counted f F = x.pktCount f := by
        cases F with
        | arriving pkt => exact absurd rfl (hstarted pkt)
        | running g k stack σ => rfl
        | waiting iter n words σ => rfl
        | departed σ => rfl
      have hmoved : x.moved f k env F =
          x.set f k (Flight.advance (env.counting (x.pktCount f)) x.controller.switch (F, x.heap)) := by
        rw [moved, hcounted]
        exact count_self (x.set f k _) f
      rw [hmoved] at hrest
      have hgoes : ∀ pkt, (Flight.advance (env.counting (x.pktCount f)) x.controller.switch (F, x.heap)).1 ≠
          .arriving pkt := Flight.step_started F x.heap
      rw [ih hrest (set_flights ..) hgoes, set_set, Function.iterate_succ_apply]
      rfl

/-- **A session, with nothing in between**, is `process`. -/
theorem run_session {p : Session} (h : Run (fun x e y => x.Step cfg e y) x p.events y)
    (hp : p.pkt.state.fid = f) :
    x.flights f p.k = none ∧
      y = (x.set f p.k (.departed (p.outcome x.controller.switch (x.heap, x.pktCount f)).alone,
        (serve x.controller.switch (x.heap, x.pktCount f) p).1)).count f (x.pktCount f + 1) := by
  subst hp
  obtain ⟨z, ⟨hfree, rfl⟩, hmoves⟩ := h.cons_inv
  refine ⟨hfree, ?_⟩
  have henough := p.enough
  obtain ⟨n, hn⟩ := Nat.exists_eq_add_of_lt (lt_of_lt_of_le (by decide : 0 < 144) henough)
  rw [Nat.zero_add] at hn
  rw [hn, List.replicate_succ] at hmoves
  obtain ⟨z, ⟨G, hG, rfl⟩, hrest⟩ := hmoves.cons_inv
  obtain rfl : .arriving p.pkt = G := by simpa using hG
  generalize hr : Flight.advance (p.env.counting (x.pktCount p.pkt.state.fid + 1)) x.controller.switch
    (.arriving p.pkt, x.heap) = r
  have hfirst : (x.put p.pkt.state.fid p.k (.arriving p.pkt)).moved p.pkt.state.fid p.k p.env
      (.arriving p.pkt) = (x.set p.pkt.state.fid p.k r).count p.pkt.state.fid
        (x.pktCount p.pkt.state.fid + 1) := by
    rw [← hr, moved, set_put]
    rfl
  have hgoes : ∀ pkt, r.1 ≠ .arriving pkt := by
    rw [← hr]
    exact Flight.step_started _ _
  rw [hfirst] at hrest
  have hend := run_moves hrest (set_flights x _ _ r) hgoes
  have hcount : (Network.count (x.set p.pkt.state.fid p.k r) p.pkt.state.fid
      (x.pktCount p.pkt.state.fid + 1)).pktCount p.pkt.state.fid = x.pktCount p.pkt.state.fid + 1 :=
    Function.update_self ..
  have halone := Flight.alone (p.env.counting (x.pktCount p.pkt.state.fid + 1)) x.controller.switch p.pkt x.heap
    (show 144 ≤ n + 1 by omega)
  rw [Function.iterate_succ_apply, hr] at halone
  rw [hend, hcount, set_count, set_set]
  exact congrArg (fun r => (x.set _ _ r).count _ _) halone

/-- Sessions, one after the other. -/
theorem run_sessions {ps : List Session}
    (h : Run (fun x e y => x.Step cfg e y) x (ps.flatMap Session.events) y)
    (hps : ∀ p ∈ ps, p.pkt.state.fid = f) :
    (y.heap, y.pktCount f) = ps.foldl (serve x.controller.switch) (x.heap, x.pktCount f) ∧
      (∀ k F, x.flights f k = some F → y.flights f k = some F) ∧
      ∀ l p r, ps = l ++ p :: r → y.flights f p.k =
        some (.departed (p.outcome x.controller.switch
          (l.foldl (serve x.controller.switch) (x.heap, x.pktCount f))).alone) := by
  induction ps generalizing x with
  | nil =>
      generalize hnil : List.flatMap Session.events [] = es at h
      cases h with
      | nil => exact ⟨rfl, fun _ _ h => h, fun l p r h => absurd h (by simp)⟩
      | snoc _ _ => exact absurd hnil (by simp)
  | cons p ps ih =>
      rw [List.flatMap_cons] at h
      obtain ⟨z, hfirst, hrest⟩ := h.split
      obtain ⟨hfree, hz⟩ := run_session hfirst (hps p (List.mem_cons_self ..))
      obtain ⟨hfold, hkept, hdeparted⟩ := ih hrest fun q hq => hps q (List.mem_cons_of_mem _ hq)
      have hcontroller : z.controller = x.controller := by rw [hz]; rfl
      have hserved : (z.heap, z.pktCount f) = serve x.controller.switch (x.heap, x.pktCount f) p := by
        rw [hz]
        exact Prod.ext rfl (Function.update_self ..)
      have hflights : ∀ k, z.flights f k = if k = p.k then
          some (.departed (p.outcome x.controller.switch (x.heap, x.pktCount f)).alone)
          else x.flights f k := by
        intro k
        rw [hz]
        exact (put_flights ..).trans (by simp)
      rw [hcontroller, hserved] at hfold hdeparted
      refine ⟨hfold, fun k F hF => hkept k F ?_, fun l q r hl => ?_⟩
      · rw [hflights, if_neg, hF]
        rintro rfl
        rw [hfree] at hF
        exact absurd hF (by simp)
      · cases l with
        | nil =>
            obtain ⟨rfl, rfl⟩ := List.cons.inj hl
            exact hkept _ _ (by rw [hflights, if_pos rfl]; rfl)
        | cons p' l =>
            obtain ⟨rfl, htail⟩ := List.cons.inj hl
            exact hdeparted l q r htail

/-- A packet on its way can make any number of steps. -/
theorem exists_run_moves (hm : x.controller.mutex = false) (hF : x.flights f k = some F) (n : ℕ) :
    ∃ y, Run (fun x e y => (x.Step cfg e y ∧ x.Calm e) ∧ e.isPacket = true) x
        (List.replicate n (.move f k env)) y ∧ y.controller = x.controller ∧
      ∀ j, j ≠ k → y.flights f j = x.flights f j := by
  induction n generalizing x F with
  | zero => exact ⟨x, .nil x, rfl, fun _ _ => rfl⟩
  | succ n ih =>
      have hstep : x.Step cfg (.move f k env) (x.moved f k env F) := ⟨F, hF, rfl⟩
      obtain ⟨y, hrun, hcontroller, hothers⟩ := ih (x := x.moved f k env F) hm
        ((moved_flights ..).trans (if_pos ⟨rfl, rfl⟩))
      refine ⟨y, (Run.single ⟨⟨hstep, hm⟩, rfl⟩).append hrun, hcontroller, fun j hj => ?_⟩
      rw [hothers j hj, moved_flights, if_neg fun heq => hj heq.2]

/-- **Sessions can always be served**, if the lock is free and their numbers are. -/
theorem exists_run_sessions (hm : x.controller.mutex = false) {ps : List Session}
    (hps : ∀ p ∈ ps, p.pkt.state.fid = f) (hfree : ∀ p ∈ ps, x.flights f p.k = none)
    (hnodup : (ps.map Session.k).Nodup) :
    ∃ y, Run (fun x e y => (x.Step cfg e y ∧ x.Calm e) ∧ e.isPacket = true) x (ps.flatMap Session.events) y := by
  induction ps generalizing x with
  | nil => exact ⟨x, .nil x⟩
  | cons p ps ih =>
      obtain ⟨hp, hps⟩ := List.forall_mem_cons.1 hps
      obtain ⟨hfirst, hfree⟩ := List.forall_mem_cons.1 hfree
      obtain ⟨hne, hnodup⟩ := List.nodup_cons.1 hnodup
      subst hp
      have henter : x.Step cfg (.enter p.k p.pkt) (x.put p.pkt.state.fid p.k (.arriving p.pkt)) := ⟨hfirst, rfl⟩
      obtain ⟨z, hmoves, hcontroller, hothers⟩ := exists_run_moves
        (x := x.put p.pkt.state.fid p.k (.arriving p.pkt)) hm ((put_flights ..).trans (if_pos ⟨rfl, rfl⟩)) p.steps
      obtain ⟨y, hrest⟩ := ih (x := z) (by rw [hcontroller]; exact hm) hps (fun q hq => by
        have hk : q.k ≠ p.k := fun heq => hne (heq ▸ List.mem_map_of_mem hq)
        rw [hothers q.k hk, put_flights, if_neg fun heq => hk heq.2, hfree q hq]) hnodup
      exact ⟨y, ((Run.single ⟨⟨henter, hm⟩, rfl⟩).append hmoves).append hrest⟩

/-- **The packets of one function, without those of others**: while the controller does nothing, they do the
same, and find and leave the same words, in a memory that agrees on the words of the function. -/
theorem exists_run_alone {heap heap' : Stages} {es₀ es : List NetworkEvent}
    (h₀ : Run (fun x e y => x.Step cfg e y ∧ x.Calm e) (start cfg heap) es₀ x)
    (h : Run (fun x e y => (x.Step cfg e y ∧ x.Calm e) ∧ e.isPacket = true) x es y)
    (hheap : ∀ i a, x.controller.switch.Cell f i a → heap' i a = x.heap i a) :
    ∃ y', Run (fun x e y => x.Step cfg e y) { x with heap := heap' } (es.filter (concerns {f})) y' ∧
      (∀ i a, x.controller.switch.Cell f i a → y'.heap i a = y.heap i a) ∧
      ∀ k, y'.flights f k = y.flights f k := by
  have hsame : y.controller = x.controller := by
    refine h.invariant (I := fun z => z.controller = x.controller) ?_ rfl
    rintro z e z' hz ⟨⟨hstep, -⟩, hpacket⟩
    rw [controller_of_isPacket hstep hpacket, hz]
  have hkeeps : Run (fun x e y => (x.Step cfg e y ∧ x.Calm e) ∧ Keeps {f} x y) x es y :=
    h.mono fun _ _ _ hstep => ⟨hstep.1, keeps_of_isPacket {f} hstep.1.1 hstep.2⟩
  have halike : Alike {f} x { x with heap := heap' } := by
    refine ⟨rfl, fun _ _ => rfl, fun _ _ _ => rfl, fun g hg i a hcell => ?_⟩
    obtain rfl := Finset.mem_singleton.1 hg
    exact hheap i a hcell
  obtain ⟨y', hrun, hy⟩ := halike.run (sound_of_run h₀) hkeeps
  exact ⟨y', hrun.mono fun _ _ _ h => h.1,
    fun i a hcell => hy.heap f (Finset.mem_singleton_self f) i a (by rwa [hsame]),
    fun k => hy.flights f (Finset.mem_singleton_self f) k⟩

/-- A packet that writes a word. -/
def writeSession : Session := ⟨0, writePacket 1, quietEnvironment, 144, le_rfl⟩

/-- The packet of function two is on its way while that of function one is served. -/
def besides : List NetworkEvent :=
  .enter 0 (writePacket 2) :: .enter 0 (writePacket 1) :: .move 2 0 quietEnvironment ::
    List.replicate 144 (.move 1 0 quietEnvironment)

end Network

end ActiveRmt
