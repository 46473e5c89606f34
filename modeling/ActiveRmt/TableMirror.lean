/-
**The controller's copy of the instruction tables.**

The driver cannot be asked what is installed, so the controller lists the keys of every instruction
table itself, and removes what the list says.  The list is kept by hand: an entry is added to the table
and then to the list, and a removal takes keys off the table one by one and off the list at the end.  A
list with a key too many would make the driver refuse a removal half way, and one with a key too few
would leave an entry behind.

Main definitions:

* `Switch.Restocks` — one table and its list are others;
* `Switch.Kept` — **the tables as the controller keeps them, and the list of their keys**;
* `Controller.KeepsTables` — a property of the tables that everything the controller does to them keeps.

Main results:

* `Switch.ends_removeEntries` — a removal with a right list never fails;
* `Controller.KeepsTables.of_run` — **a property that the table programs keep holds in every run**;
* `Controller.tables_kept` — the list is right, and the common entries are there, in every run.
-/

import ActiveRmt.Residents
import ActiveRmt.InstructionTable

set_option relaxedAutoImplicit false
set_option autoImplicit false

namespace ActiveRmt

open Allocator (Remaps)

namespace Switch

variable {sw sw' : Switch} {i : Stage}

/-! ### Changing one table -/

/-- **One table and its list are others**, and the rest of the programs is the same. -/
structure Restocks (i : Stage) (items : List (EntryKey × BoundAction)) (sw sw' : Switch) : Prop where
  /-- The entries of the table. -/
  items_eq : (sw'.instruction i).items = items
  /-- The list of its keys. -/
  params_eq : sw'.params i = items.map Prod.fst
  /-- The other tables. -/
  instruction_ne : ∀ j ≠ i, sw'.instruction j = sw.instruction j
  /-- The other lists. -/
  params_ne : ∀ j ≠ i, sw'.params j = sw.params j

/-- The lists of keys are right. -/
def Mirrored (sw : Switch) : Prop := ∀ i, sw.params i = (sw.instruction i).keys

theorem Restocks.mirrored {items : List (EntryKey × BoundAction)} (h : Restocks i items sw sw')
    (hsw : sw.Mirrored) : sw'.Mirrored := by
  intro j
  by_cases hj : j = i
  · subst hj
    rw [h.params_eq, Dict.keys, h.items_eq]
  · rw [h.params_ne j hj, h.instruction_ne j hj]
    exact hsw j

/-- **An entry is added**, unless its key is there. -/
theorem ends_addEntry (hsw : sw.Mirrored) (e : EntryKey × BoundAction) :
    Ends (addEntry i e) sw
      (fun _ sw' => Restocks i ((sw.instruction i).items ++ [e]) sw sw' ∧
        e.1 ∉ (sw.instruction i).keys)
      fun sw' => sw' = sw ∧ e.1 ∈ (sw.instruction i).keys := by
  by_cases hk : e.1 ∈ (sw.instruction i).keys
  · have hx : addEntry i e sw = .error .tableError sw := by
      simp only [addEntry, tableAdd, (Dict.contains_iff _ _).2 hk, if_true]
    exact ends_of_error hx ⟨rfl, hk⟩
  · have hc : (sw.instruction i).contains e.1 = false := by
      rw [Bool.eq_false_iff, Ne, Dict.contains_iff]
      exact hk
    have hx : addEntry i e sw = .ok ()
        { sw with
          instruction := Function.update sw.instruction i ((sw.instruction i).set e.1 e.2)
          params := Function.update sw.params i (sw.params i ++ [e.1]) } := by
      simp [addEntry, tableAdd, hc]
    have hput : ((sw.instruction i).set e.1 e.2).items = (sw.instruction i).items ++ [e] :=
      put_of_notMem hk e.2
    refine ends_of_ok hx ⟨⟨?_, ?_, ?_, ?_⟩, hk⟩
    · simp only [Function.update_self, hput]
    · simp only [Function.update_self, hsw i, Dict.keys, List.map_append, List.map_singleton]
    · exact fun j hj => Function.update_of_ne hj _ _
    · exact fun j hj => Function.update_of_ne hj _ _

theorem ends_deleteEntry {k : EntryKey} (hk : k ∈ (sw.instruction i).keys) {E : Switch → Prop} :
    Ends (deleteEntry i k) sw (fun _ sw' => sw' =
      { sw with instruction := Function.update sw.instruction i ((sw.instruction i).erase k) }) E :=
  ends_zoom.2 (ends_delete (fun _ => rfl) fun h => absurd hk h)

/-- **A removal never fails** when the list of keys is right, and leaves it right. -/
theorem ends_removeEntries (hsw : sw.Mirrored) (p : EntryKey → Bool) (i : Stage) :
    Ends (removeEntries p i) sw
      (fun _ sw' => Restocks i ((sw.instruction i).items.filter fun e => !p e.1) sw sw')
      fun _ => False := by
  have hnodup := (sw.instruction i).nodup
  -- the keys that have been taken off the table
  have hloop := ends_forM (E := fun _ => False) (f := deleteEntry i) (l := (sw.params i).filter p)
    (fun done t => (t.instruction i).items = (sw.instruction i).items.filter (fun e => e.1 ∉ done) ∧
      (∀ j ≠ i, t.instruction j = sw.instruction j) ∧ t.params = sw.params)
    (fun done k rest hsplit t ht => ?_) _ [] sw rfl ⟨by simp, fun _ _ => rfl, rfl⟩
  · cases h : ((sw.params i).filter p).forM (deleteEntry i) sw with
    | error ex t => exact absurd (hloop.2 ex t h) id
    | ok u t =>
        obtain ⟨hitems, hother, hparams⟩ := hloop.1 u t h
        have hx : removeEntries p i sw = .ok ()
            { t with params := Function.update t.params i ((sw.params i).filter fun k => !p k) } := by
          simp only [removeEntries, h]
        have hgone : (sw.instruction i).items.filter (fun e => e.1 ∉ (sw.params i).filter p) =
            (sw.instruction i).items.filter fun e => !p e.1 := by
          refine List.filter_congr fun e he => ?_
          have hmem : e.1 ∈ sw.params i := by
            rw [hsw i]
            exact List.mem_map_of_mem he
          simp [List.mem_filter, hmem]
        refine ends_of_ok hx ⟨hitems.trans hgone, ?_, hother, fun j hj => ?_⟩
        · simp only [Function.update_self, hsw i, Dict.keys, List.filter_map, Function.comp_def]
        · simp only [Function.update_of_ne hj, hparams]
  · obtain ⟨hitems, hother, hparams⟩ := ht
    have hk : k ∈ sw.params i ∧ k ∉ done := by
      constructor
      · have hmem : k ∈ (sw.params i).filter p :=
          hsplit ▸ List.mem_append_right _ (List.mem_cons_self ..)
        exact (List.mem_filter.1 hmem).1
      · have hn : ((sw.params i).filter p).Nodup := by
          rw [hsw i]
          exact hnodup.filter _
        rw [hsplit] at hn
        exact fun hmem => List.disjoint_of_nodup_append hn hmem (List.mem_cons_self ..)
    have hthere : k ∈ (t.instruction i).keys := by
      rw [hsw i, Dict.keys] at hk
      obtain ⟨⟨e, he, rfl⟩, hnot⟩ := And.imp_left List.mem_map.1 hk
      rw [Dict.keys, hitems]
      exact List.mem_map_of_mem (List.mem_filter.2 ⟨he, by simpa using hnot⟩)
    refine (ends_deleteEntry hthere).mono ?_ fun _ h => h
    rintro _ _ rfl
    refine ⟨?_, fun j hj => ?_, hparams⟩
    · simp only [Function.update_self, Dict.erase, hitems, List.filter_filter, List.mem_append,
        List.mem_singleton, not_or, ← Bool.decide_and]
      refine List.filter_congr fun e _ => ?_
      rw [decide_eq_decide]
      exact and_comm
    · simp only [Function.update_of_ne hj]
      exact hother j hj

/-! ### The tables as the controller keeps them -/

/-- An entry of a memory instruction, or of an address translation. -/
def ForFunction (e : EntryKey × BoundAction) : Prop :=
  (∃ fid lo hi, ∃ act ∈ memoryInstructions, e ∈ entriesOf fid act lo hi) ∨
    ∃ bs fid allocation, ∃ act ∈ instructionSet.filter (·.vaddr),
      e ∈ vaddrEntries bs fid allocation act

/-- **The tables as the controller keeps them, and the list of their keys.** -/
structure Kept (sw : Switch) : Prop extends Equipped sw where
  /-- The list is right. -/
  mirrored : sw.Mirrored

theorem kept_init : Kept init := ⟨equipped_init, fun _ => rfl⟩

theorem Kept.congr (h : Kept sw) (hsw : programs sw' = programs sw) : Kept sw' := by
  obtain ⟨hi, hp⟩ := Prod.mk.inj hsw
  refine ⟨⟨?_, ?_⟩, ?_⟩
  · rw [hi]
    exact h.common
  · rw [hi]
    exact h.others
  · intro i
    rw [hp, hi]
    exact h.mirrored i

/-- A memory instruction is known by its opcode. -/
theorem mem_opcodesMemaccess {act : Instruction} (hact : act ∈ instructionSet) :
    act.opcode ∈ opcodesMemaccess ↔ act.memory = true := by
  constructor
  · intro h
    obtain ⟨act', hact', heq⟩ := List.mem_map.1 h
    obtain ⟨hset', hmem⟩ := List.mem_filter.1 hact'
    rwa [instruction_eq hact hset' heq.symm]
  · exact fun h => List.mem_map_of_mem (List.mem_filter.2 ⟨hact, h⟩)

/-- So is an address translation. -/
theorem mem_opcodesVaddr {act : Instruction} (hact : act ∈ instructionSet) :
    act.opcode ∈ opcodesVaddr ↔ act.vaddr = true := by
  constructor
  · intro h
    obtain ⟨act', hact', heq⟩ := List.mem_map.1 h
    obtain ⟨hset', hmem⟩ := List.mem_filter.1 hact'
    rwa [instruction_eq hact hset' heq.symm]
  · exact fun h => List.mem_map_of_mem (List.mem_filter.2 ⟨hact, h⟩)

/-- A common entry is none of a function. -/
theorem opcode_of_common {e : EntryKey × BoundAction} (he : e ∈ commonEntries) :
    e.1.opcode ∉ opcodesMemaccess ∧ e.1.opcode ∉ opcodesVaddr := by
  obtain ⟨act, hact, he⟩ := List.mem_flatMap.1 he
  obtain ⟨hset, -, hmem, hvaddr⟩ := mem_instructionSet_of_common hact
  rw [opcode_of_mem_entriesOf he, mem_opcodesMemaccess hset, mem_opcodesVaddr hset, hmem, hvaddr]
  exact ⟨Bool.false_ne_true, Bool.false_ne_true⟩

/-- Adding an entry of a function. -/
theorem upholds_addEntry (i : Stage) {e : EntryKey × BoundAction} (he : ForFunction e) :
    Upholds Kept (addEntry i e) := by
  intro sw hsw
  refine (ends_addEntry hsw.mirrored e).mono ?_ ?_
  · rintro _ sw' ⟨hre, -⟩
    refine ⟨⟨fun j e' he' => ?_, fun j e' he' => ?_⟩, hre.mirrored hsw.mirrored⟩
    · by_cases hj : j = i
      · subst hj
        rw [hre.items_eq]
        exact List.mem_append_left _ (hsw.common j e' he')
      · rw [hre.instruction_ne j hj]
        exact hsw.common j e' he'
    · by_cases hj : j = i
      · subst hj
        rw [hre.items_eq] at he'
        rcases List.mem_append.1 he' with he' | he'
        · exact hsw.others j e' he'
        · rw [List.mem_singleton.1 he']
          exact Or.inr he
      · rw [hre.instruction_ne j hj] at he'
        exact hsw.others j e' he'
  · rintro _ ⟨rfl, -⟩
    exact hsw

/-- Removing entries that are none of the common ones. -/
theorem upholds_removeEntries {p : EntryKey → Bool} (hp : ∀ e ∈ commonEntries, p e.1 = false)
    (i : Stage) : Upholds Kept (removeEntries p i) := by
  intro sw hsw
  refine (ends_removeEntries hsw.mirrored p i).mono ?_ fun _ h => h.elim
  rintro _ sw' hre
  refine ⟨⟨fun j e he => ?_, fun j e he => ?_⟩, hre.mirrored hsw.mirrored⟩
  · by_cases hj : j = i
    · subst hj
      rw [hre.items_eq]
      exact List.mem_filter.2 ⟨hsw.common j e he, by rw [hp e he]; rfl⟩
    · rw [hre.instruction_ne j hj]
      exact hsw.common j e he
  · by_cases hj : j = i
    · subst hj
      rw [hre.items_eq] at he
      exact hsw.others j e (List.mem_filter.1 he).1
    · rw [hre.instruction_ne j hj] at he
      exact hsw.others j e he

theorem isMemaccess_of_common (f : Fid) : ∀ e ∈ commonEntries, isMemaccess f e.1 = false := by
  intro e he
  simp [isMemaccess, (opcode_of_common he).1]

theorem isVaddr_of_common (f : Fid) : ∀ e ∈ commonEntries, isVaddr f e.1 = false := by
  intro e he
  simp [isVaddr, (opcode_of_common he).2]

theorem forFunction_of_memoryEntries {bs : ℚ} {f : Fid} {blocks : List ℕ}
    {e : EntryKey × BoundAction} (he : e ∈ memoryEntries bs f blocks) : ForFunction e := by
  obtain ⟨act, hact, he⟩ := List.mem_flatMap.1 he
  exact Or.inl ⟨f, _, _, act, hact, he⟩

theorem upholds_installMemoryAccessEntries (bs : ℚ) (i : Stage) (f : Fid) (blocks : List ℕ) :
    Upholds Kept (installMemoryAccessEntries bs i f blocks) :=
  Upholds.forM fun _ he => upholds_addEntry i (forFunction_of_memoryEntries he)

theorem upholds_removeVaddrEntries (f : Fid) : Upholds Kept (removeVaddrEntries f) :=
  Upholds.forM fun i _ => upholds_removeEntries (isVaddr_of_common f) i

theorem upholds_installVirtualAddressEntries (bs : ℚ) (v : Bool) (f : Fid)
    (allocation : Dict Stage (List ℕ)) :
    Upholds Kept (installVirtualAddressEntries bs v f allocation) := by
  unfold installVirtualAddressEntries
  split_ifs
  · refine Upholds.forM fun i _ => Upholds.forM fun e he => upholds_addEntry i ?_
    obtain ⟨act, hact, he⟩ := List.mem_flatMap.1 he
    exact Or.inr ⟨bs, f, allocation, act, hact, he⟩
  · exact Upholds.pure

end Switch

namespace Controller

variable {cfg : ControllerConfig} {c c' : Controller}

/-! ### Properties that the table programs keep -/

/-- A property of the instruction tables and their lists. -/
def OfPrograms (P : Switch → Prop) : Prop :=
  ∀ sw sw', Switch.programs sw' = Switch.programs sw → P sw → P sw'

/-- **A property of the tables that everything the controller does to them keeps**, whether or not an
exception is raised. -/
structure KeepsTables (cfg : ControllerConfig) (P : Switch → Prop) : Prop where
  /-- It is about the instruction tables and their lists. -/
  programs : OfPrograms P
  /-- The memory access of remapped functions. -/
  memoryAccess : ∀ remapped, Upholds P (Switch.updateMemoryAccess cfg.blockSize remapped)
  /-- Their address translations. -/
  vaddr : ∀ remapped, Upholds P (Switch.updateVaddr cfg.blockSize cfg.vaddrSupport remapped)
  /-- The entries of a new function. -/
  install : ∀ f al, Upholds P (Switch.installAllocation cfg.blockSize cfg.vaddrSupport f al)
  /-- The entries of a departing function. -/
  remove : ∀ f, Upholds P (Switch.removeFunction f)

section Walk

variable {P : Switch → Prop}

theorem upholds_onAllocator {α : Type} (x : EStateM Exn Allocator α) :
    Upholds (fun c => P c.switch) (onAllocator x) := fun _ h =>
  ends_onAllocator.2 (ends_of_forall (fun _ _ => h) fun _ => h)

theorem upholds_onSwitch {α : Type} {x : EStateM Exn Switch α} (hx : Upholds P x) :
    Upholds (fun c => P c.switch) (onSwitch x) := Upholds.zoom (fun _ _ => rfl) hx

/-- A change of other fields. -/
theorem upholds_modify {g : Controller → Controller} (hg : ∀ c, (g c).switch = c.switch) :
    Upholds (fun c => P c.switch) (modify g : EStateM Exn Controller PUnit) :=
  Upholds.modify fun c h => by rwa [hg c]

/-- An exception, whatever would come next. -/
theorem upholds_throw_bind {α β : Type} {ex : Exn} (f : α → EStateM Exn Controller β) :
    Upholds (fun c => P c.switch) (throw ex >>= f) := fun _ h => ends_bind.2 (ends_throw.2 h)

theorem upholds_leaveQueue (f : Fid) : Upholds (fun c => P c.switch) (leaveQueue f) :=
  Upholds.get.bind fun _ => Upholds.ite (upholds_modify fun _ => rfl) Upholds.throw

theorem upholds_leaveActive (f : Fid) : Upholds (fun c => P c.switch) (leaveActive f) :=
  Upholds.get.bind fun _ => Upholds.ite (upholds_modify fun _ => rfl) Upholds.throw

theorem upholds_popAllocTiming (f : Fid) : Upholds (fun c => P c.switch) (popAllocTiming f) :=
  Upholds.get.bind fun _ => Upholds.ite (upholds_modify fun _ => rfl) Upholds.throw

theorem upholds_popDrainQueue (f : Fid) : Upholds (fun c => P c.switch) (popDrainQueue f) :=
  Upholds.get.bind fun _ => Upholds.ite (upholds_modify fun _ => rfl) Upholds.throw

theorem upholds_applyQueuedAllocation (f : Fid) (r : Remaps) :
    Upholds (fun c => P c.switch) (applyQueuedAllocation f r) :=
  (upholds_onAllocator _).bind fun _ => Upholds.ite (upholds_modify fun _ => rfl) Upholds.pure

theorem upholds_monitorStep {req : Request} {next : Monitor} {x : EStateM Exn Controller Unit}
    (hx : Upholds (fun c => P c.switch) x) :
    Upholds (fun c => P c.switch) (monitorStep req next x) := fun c h =>
  ends_monitorStep ((hx c h).mono (fun _ _ ht => ht) fun _ ht => ht)

section Programs

variable (hP : OfPrograms P)

include hP

/-- Replies, quotas and notices are in tables of their own. -/
theorem OfPrograms.onReplies {α : Type} {x : EStateM Exn Switch α} (hx : Leaves Switch.programs x) :
    Upholds (fun c => P c.switch) (onSwitch x) :=
  upholds_onSwitch fun sw h =>
    (hx sw).mono (fun _ _ ht => hP _ _ ht h) fun _ ht => hP _ _ ht h

theorem OfPrograms.changeAllocation (g : Dict Fid Reply → Except Exn (Dict Fid Reply)) :
    Upholds (fun c => P c.switch) (onSwitch (Switch.changeAllocation g)) :=
  hP.onReplies fun _ => ends_zoom.2 (ends_of_forall (fun _ _ => rfl) fun _ => rfl)

theorem OfPrograms.renewAllocation (f : Fid) (n : ℕ) :
    Upholds (fun c => P c.switch) (onSwitch (Switch.renewAllocation f n)) := by
  refine hP.onReplies fun sw => (Switch.ends_renewAllocation f n sw).mono ?_ ?_
  · rintro _ _ ⟨d, rfl, -⟩
    rfl
  · rintro _ ⟨d, rfl⟩
    rfl

theorem OfPrograms.changeRemapCheck (g : Dict Fid ℕ → Except Exn (Dict Fid ℕ)) :
    Upholds (fun c => P c.switch) (onSwitch (Switch.changeRemapCheck g)) :=
  hP.onReplies fun _ => ends_zoom.2 (ends_of_forall (fun _ _ => rfl) fun _ => rfl)

theorem OfPrograms.addQuotas (f : Fid) :
    Upholds (fun c => P c.switch) (onSwitch (Switch.addQuotas f)) :=
  hP.onReplies fun _ => ends_zoom.2 (ends_of_forall (fun _ _ => rfl) fun _ => rfl)

theorem OfPrograms.dropPeer (f : Fid) : Upholds (fun c => P c.switch) (dropPeer f) := by
  refine Upholds.bind (upholds_modify fun _ => rfl) fun _ => Upholds.get.bind fun _ => ?_
  exact Upholds.ite ((hP.changeRemapCheck _).bind fun _ => upholds_modify fun _ => rfl) Upholds.pure

theorem OfPrograms.queuePeer (r : Remaps) (f : Fid) :
    Upholds (fun c => P c.switch) (queuePeer r f) := by
  refine Upholds.bind (upholds_modify fun _ => rfl) fun _ => Upholds.get.bind fun c => ?_
  cases c.allocVersion.get? f with
  | none => exact Upholds.throw
  | some v => exact hP.changeRemapCheck _

theorem OfPrograms.renewVersion (f : Fid) : Upholds (fun c => P c.switch) (renewVersion f) := by
  refine Upholds.get.bind fun c => ?_
  cases c.allocVersion.get? f with
  | none => exact Upholds.throw
  | some v => exact Upholds.bind (upholds_modify fun _ => rfl) fun _ => hP.renewAllocation f (v + 1)

theorem OfPrograms.publishVersion (f : Fid) :
    Upholds (fun c => P c.switch) (publishVersion f) := by
  refine Upholds.get.bind fun c => ?_
  dsimp only
  exact Upholds.bind (upholds_modify fun _ => rfl) fun _ => hP.renewAllocation f _

/-- What is left when the tables of an allocation are done. -/
theorem OfPrograms.publish (f : Fid) :
    Upholds (fun c => P c.switch) (do
      onSwitch (Switch.addQuotas f)
      Controller.publishVersion f
      modify fun c => { c with active := c.active ++ [f] }
      leaveQueue f
      popAllocTiming f
      modify fun c => { c with remoteDrainInitiator := none, mutex := false }) := by
  refine (hP.addQuotas f).bind fun _ => (hP.publishVersion f).bind fun _ => ?_
  exact Upholds.bind (upholds_modify fun _ => rfl) fun _ => (upholds_leaveQueue f).bind fun _ =>
    (upholds_popAllocTiming f).bind fun _ => upholds_modify fun _ => rfl

theorem OfPrograms.refuse (f : Fid) : Upholds (fun c => P c.switch) (refuse f) :=
  (hP.changeAllocation _).bind fun _ => (upholds_leaveQueue f).bind fun _ =>
    upholds_modify fun _ => rfl

end Programs

variable (hP : KeepsTables cfg P)

include hP

/-- **The tables after an allocation.** -/
theorem KeepsTables.updateAllocation (f : Fid) (allocation : Dict Stage (List ℕ)) (r : Remaps) :
    Upholds (fun c => P c.switch) (updateAllocation cfg f allocation r) := by
  have htables : Upholds P
      (Switch.updateAllocationTables cfg.blockSize (Switch.remappedStages r)) := fun sw h =>
    (Switch.leaves_part (Switch.leaves_updateAllocationTables _ _) Prod.snd sw).mono
      (fun _ _ ht => hP.programs _ _ ht h) fun _ ht => hP.programs _ _ ht h
  refine (upholds_onSwitch (hP.memoryAccess _)).bind fun _ => ?_
  refine (upholds_onSwitch (hP.vaddr _)).bind fun _ => (upholds_onSwitch htables).bind fun _ => ?_
  exact (Upholds.forM fun g _ => hP.programs.renewVersion g).bind fun _ => upholds_onSwitch (hP.install _ _)

/-- **Applying a queued allocation.** -/
theorem KeepsTables.resumeAllocation (f : Fid) (r : Remaps) :
    Upholds (fun c => P c.switch) (resumeAllocation cfg f r) := by
  have hcomplete : Upholds (fun c => P c.switch) (completeAllocation cfg f r) := by
    refine (upholds_applyQueuedAllocation f r).bind fun _ => Upholds.get.bind fun c => ?_
    exact (hP.updateAllocation f _ r).bind fun _ => hP.programs.publish f
  refine Upholds.get.bind fun _ => Upholds.ite (upholds_throw_bind _) ?_
  refine Upholds.get.bind fun _ => Upholds.ite Upholds.pure ?_
  exact Upholds.bind (upholds_modify fun _ => rfl) fun _ => hcomplete

theorem KeepsTables.startAllocation (f : Fid) (ch : Allocator.Choice) :
    Upholds (fun c => P c.switch) (startAllocation cfg f ch) := by
  refine (upholds_onAllocator _).bind fun ⟨changes, remaps, _⟩ => ?_
  dsimp only
  refine Upholds.bind (upholds_modify fun _ => rfl) fun _ => Upholds.ite (hP.resumeAllocation f _) ?_
  exact Upholds.bind (upholds_modify fun _ => rfl) fun _ => Upholds.forM fun g _ => hP.programs.queuePeer _ g

/-- **A request for an allocation.** -/
theorem KeepsTables.allocate (req : Request) :
    Upholds (fun c => P c.switch) (allocate cfg req) := by
  refine Upholds.get.bind fun _ => Upholds.get.bind fun _ => Upholds.ite Upholds.pure ?_
  have hbegin : Upholds (fun c => P c.switch) (beginAllocation req.fid) :=
    Upholds.bind (upholds_modify fun _ => rfl) fun _ => hP.programs.changeAllocation _
  refine hbegin.bind fun _ => ?_
  cases activeFunction cfg req with
  | error ex => exact Upholds.throw
  | ok af =>
      dsimp only
      refine Upholds.bind (upholds_modify fun _ => rfl) fun _ =>
        (upholds_onAllocator _).bind fun ch => ?_
      cases ch with
      | none => exact hP.programs.refuse _
      | some ch =>
          refine Upholds.ite (hP.startAllocation _ ch) (Upholds.ite (hP.programs.refuse _) ?_)
          exact Upholds.bind (upholds_modify fun _ => rfl) fun _ => Upholds.throw

/-- **A departure.** -/
theorem KeepsTables.deallocate (f : Fid) : Upholds (fun c => P c.switch) (deallocate f) := by
  refine Upholds.get.bind fun _ =>
    Upholds.ite ((upholds_onSwitch (hP.remove f)).bind fun b => ?_) Upholds.pure
  exact Upholds.ite ((upholds_onAllocator _).bind fun _ => Upholds.pure) Upholds.pure

/-- **A reset.** -/
theorem KeepsTables.resetAllocation : Upholds (fun c => P c.switch) resetAllocation := by
  refine Upholds.get.bind fun _ => Upholds.ite (upholds_throw_bind _) ?_
  refine Upholds.bind (upholds_modify fun _ => rfl) fun _ => Upholds.get.bind fun c => ?_
  refine (Upholds.forM fun f _ => hP.deallocate f).bind fun _ => ?_
  exact Upholds.bind (upholds_modify fun _ => rfl) fun _ => upholds_modify fun _ => rfl

theorem KeepsTables.readAck (d : RemapDigest) : Upholds (fun c => P c.switch) (readAck d) := by
  intro c h
  refine (ends_readAck d c).mono ?_ ?_
  · intro a c' hread
    rcases hread with ⟨-, I, m, rfl, -⟩ | ⟨rs, m, -, -, -, -, -, rfl, -⟩
    · exact hP.programs c.switch _ rfl h
    · exact hP.programs c.switch _ rfl h
  · intro c' hfail
    obtain ⟨⟨I, T, m, rfl⟩, -⟩ := hfail
    exact hP.programs c.switch _ rfl h

theorem KeepsTables.finishAck (a : Ack) : Upholds (fun c => P c.switch) (finishAck cfg a) := by
  unfold Controller.finishAck
  cases a.resume with
  | none => exact upholds_popDrainQueue a.fid
  | some p => exact (hP.resumeAllocation p.1 p.2).bind fun _ => upholds_popDrainQueue a.fid

theorem KeepsTables.onRemapAck (d : RemapDigest) :
    Upholds (fun c => P c.switch) (onRemapAck cfg d) := by
  refine (hP.readAck d).bind fun a => ?_
  cases a with
  | none => exact Upholds.pure
  | some a => exact hP.finishAck a

/-- **The timeout.** -/
theorem KeepsTables.onTimeout : Upholds (fun c => P c.switch) (onTimeout cfg) := by
  refine Upholds.get.bind fun _ => Upholds.ite (upholds_throw_bind _) ?_
  refine Upholds.get.bind fun c => ?_
  cases c.remaps with
  | none => exact Upholds.throw
  | some r =>
      refine (Upholds.forM fun f _ => hP.programs.dropPeer f).bind fun _ => Upholds.get.bind fun c => ?_
      cases c.remoteDrainInitiator with
      | some f => exact hP.resumeAllocation f r
      | none =>
          refine Upholds.get.bind fun _ => Upholds.ite (upholds_throw_bind _) ?_
          exact Upholds.bind (upholds_modify fun _ => rfl) fun _ => Upholds.throw

/-- **The monitor takes a request.** -/
theorem KeepsTables.takeRequest : Upholds (fun c => P c.switch) (takeRequest cfg) := by
  intro c h
  cases hreq : c.allocationRequests with
  | nil =>
      have hx : Controller.takeRequest cfg c = .ok () c := by simp only [Controller.takeRequest, hreq]
      exact ends_of_ok hx h
  | cons req rest =>
      refine ends_takeRequest (Q := fun c => P c.switch) (E := fun c => P c.switch) hreq
        (fun _ _ => upholds_monitorStep (hP.allocate req) _ h) (upholds_monitorStep ?_ _ h) h
      exact (hP.deallocate req.fid).bind fun _ => upholds_leaveActive req.fid

/-- **A step.** -/
theorem KeepsTables.perform (e : Event) : Upholds (fun c => P c.switch) (perform cfg e) := by
  cases e with
  | malloc d =>
      refine Upholds.modify fun c h => ?_
      dsimp only
      split_ifs <;> exact h
  | remapAck d => exact hP.onRemapAck d
  | ackRead d => exact (hP.readAck d).bind fun a => upholds_modify fun _ => rfl
  | ackFinish =>
      intro c h
      cases ha : c.inFlight with
      | none =>
          have hx : Controller.perform cfg .ackFinish c = .ok () c := by
            simp only [Controller.perform, ha]
          exact ends_of_ok hx h
      | some a =>
          have hx : Controller.perform cfg .ackFinish c =
              Controller.finishAck cfg a { c with inFlight := none } := by
            simp only [Controller.perform, ha]
          have hends := hP.finishAck a { c with inFlight := none } h
          exact ⟨fun u t ht => hends.1 u t (hx.symm.trans ht),
            fun ex t ht => hends.2 ex t (hx.symm.trans ht)⟩
  | take => exact hP.takeRequest
  | timeout =>
      intro c h
      cases hm : c.monitor with
      | waiting req =>
          have hx : Controller.perform cfg .timeout c =
              Controller.monitorStep req (.leaving req) (Controller.onTimeout cfg) c := by
            simp only [Controller.perform, hm]
          have hkeeps : Upholds (fun c => P c.switch)
              (Controller.monitorStep req (.leaving req) (Controller.onTimeout cfg)) :=
            upholds_monitorStep hP.onTimeout
          have hends := hkeeps c h
          exact ⟨fun u t ht => hends.1 u t (hx.symm.trans ht),
            fun ex t ht => hends.2 ex t (hx.symm.trans ht)⟩
      | idle | leaving req | dead req =>
          have hx : Controller.perform cfg .timeout c = .ok () c := by
            simp only [Controller.perform, hm]
          exact ends_of_ok hx h
  | finish =>
      intro c h
      cases hm : c.monitor.current with
      | none =>
          have hx : Controller.perform cfg .finish c = .ok () c := by
            simp only [Controller.perform, hm]
          exact ends_of_ok hx h
      | some req =>
          have hx : Controller.perform cfg .finish c = .ok ()
              { c with enqueued := c.enqueued.erase req.fid, monitor := .idle } := by
            simp only [Controller.perform, hm]
            rfl
          exact ends_of_ok hx h
  | reset => exact fun c h => hP.resetAllocation { c with resetThreads := c.resetThreads - 1 } h

/-- **It holds in every run**: with exceptions, resets, and remap handlers between their halves. -/
theorem KeepsTables.of_run (hinit : P Switch.init) {es : List Event}
    (h : Run (Step cfg) (init cfg) es c) : P c.switch := by
  refine h.invariant (I := fun c => P c.switch) (fun c₁ e c₂ h₁ hstep => ?_) hinit
  obtain ⟨-, ⟨u, hu⟩ | ⟨ex, hex⟩⟩ := hstep
  · exact (hP.perform e c₁ h₁).1 u c₂ hu
  · exact (hP.perform e c₁ h₁).2 ex c₂ hex

end Walk

/-! ### The list of keys -/

theorem keepsTables_kept (cfg : ControllerConfig) : KeepsTables cfg Switch.Kept where
  programs _ _ hprograms h := h.congr hprograms
  memoryAccess remapped := Upholds.forM fun p _ => Upholds.forM fun q _ =>
    (Switch.upholds_removeEntries (Switch.isMemaccess_of_common q.1) p.1).bind fun _ =>
      Switch.upholds_installMemoryAccessEntries _ p.1 q.1 _
  vaddr remapped := Upholds.forM fun p _ =>
    (Switch.upholds_removeVaddrEntries p.1).bind fun _ =>
      Switch.upholds_installVirtualAddressEntries _ _ p.1 p.2
  install f al := by
    refine (Upholds.forM fun p _ => Switch.upholds_installMemoryAccessEntries _ p.1 f p.2).bind
      fun _ => ?_
    refine (Switch.upholds_installVirtualAddressEntries _ _ f al).bind fun _ => ?_
    exact Upholds.forM fun k _ sw h =>
      (Switch.leaves_part (Switch.leaves_changeAllocations k _) Prod.snd sw).mono
        (fun _ _ ht => h.congr ht) fun _ ht => h.congr ht
  remove f := by
    have hmemory : ∀ i, Upholds Switch.Kept (Switch.removeMemoryAccessEntries i f) := fun i =>
      Switch.upholds_removeEntries (Switch.isMemaccess_of_common f) i
    refine (Switch.upholds_removeVaddrEntries f).bind fun _ => ?_
    refine (Upholds.forM fun k _ => hmemory _).bind fun _ => ?_
    refine (Upholds.forM fun k _ => (hmemory _).bind fun _ sw h =>
      (Switch.leaves_part (Switch.leaves_changeAllocations k _) Prod.snd sw).mono
        (fun _ _ ht => h.congr ht) fun _ ht => h.congr ht).bind fun _ => ?_
    refine Upholds.get.bind fun _ => Upholds.ite Upholds.pure ?_
    have hreply : ∀ g, Upholds Switch.Kept (Switch.changeAllocation g) := fun g sw h =>
      ends_zoom.2 (ends_of_forall (fun _ _ => h.congr rfl) fun _ => h.congr rfl)
    have hquota : ∀ g, Upholds Switch.Kept (Switch.changeQuotaRecirc g) := fun g sw h =>
      ends_zoom.2 (ends_of_forall (fun _ _ => h.congr rfl) fun _ => h.congr rfl)
    exact (hreply _).bind fun _ => (hquota _).bind fun _ => Upholds.pure

/-- **The list of keys is right in every run**: with exceptions, resets, and remap handlers between
their halves.  The common entries are always there, and every other entry is one of a memory instruction
or of an address translation. -/
theorem tables_kept {es : List Event} (h : Run (Step cfg) (init cfg) es c) :
    c.switch.Equipped ∧ ∀ i, c.switch.params i = (c.switch.instruction i).keys := by
  have hkept := (keepsTables_kept cfg).of_run Switch.kept_init h
  exact ⟨hkept.toEquipped, hkept.mirrored⟩

/-- A run with a reset while an allocation waits; it leaves entries of a function behind. -/
theorem tables_kept_reset :
    ∃ c, Run (Step smallConfig) (init smallConfig) resetInRound c ∧
      (c.switch.instruction 0).keys ≠ (init smallConfig).switch.params 0 ∧
      c.switch.Equipped ∧ ∀ i, c.switch.params i = (c.switch.instruction i).keys := by
  have hrun : (resetInRound.foldlM (next smallConfig) (init smallConfig)).map
      (fun c => decide ((c.switch.instruction 0).keys ≠ (init smallConfig).switch.params 0)) =
        some true := by decide +kernel
  obtain ⟨c, hc, hend⟩ := Option.map_eq_some_iff.1 hrun
  have hrun := (Run.of_foldlM hc).mono fun _ _ _ h => step_of_next h
  exact ⟨c, hrun, of_decide_eq_true hend, tables_kept hrun⟩

end Controller

end ActiveRmt
