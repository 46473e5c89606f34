/-
**What the handlers can do.**

One statement for every handler of the controller: in which states it can return, and in which
states an exception can leave the controller.  Only the tables are left open; everything else is an
explicit update of the state before.  The invariants of the following modules are derived from these
statements and never look into a handler again.

Main definitions:

* `Controller.completed`, `Controller.stuck` — the controller after `resumeAllocation` has applied an
  allocation, and after an exception on the way;
* `Controller.Renewed` — what the tables then hold.

Main results:

* `Controller.ends_resumeAllocation` — **applying a queued allocation**;
* `Controller.ends_readAck`, `Controller.ends_finishAck` — the two halves of a remap handler;
* `Controller.ends_dropPeers`, `Controller.ends_queuePeers` — the loops over the remapped functions;
* `Controller.ends_deallocate` — a departure.
-/

import ActiveRmt.Controller
import ActiveRmt.Arrivals

set_option relaxedAutoImplicit false
set_option autoImplicit false

namespace ActiveRmt

/-! ### What the tables keep -/

namespace Switch

/-- The tables that are not about memory. -/
def replies (sw : Switch) : Dict Fid Reply × Dict Fid ℕ × Dict Fid Unit :=
  (sw.allocation, sw.remapCheck, sw.quotaRecirc)

/-- The instruction tables and their mirror. -/
def programs (sw : Switch) : (Stage → Dict EntryKey BoundAction) × (Stage → List EntryKey) :=
  (sw.instruction, sw.params)

/-- What is recorded besides the instruction tables. -/
def records (sw : Switch) :
    (Dict Fid Reply × Dict Fid ℕ × Dict Fid Unit) × (GressStage → Dict Fid AllocationEntry) :=
  (sw.replies, sw.allocations)

theorem leaves_addEntry (i : Stage) (e : EntryKey × BoundAction) : Leaves records (addEntry i e) := by
  intro sw
  cases h : tableAdd (sw.instruction i) e.1 e.2 with
  | error ex =>
      have hx : addEntry i e sw = .error ex sw := by simp only [addEntry, h]
      exact ends_of_error hx rfl
  | ok d =>
      have hx : addEntry i e sw = .ok ()
          { sw with
            instruction := Function.update sw.instruction i d
            params := Function.update sw.params i (sw.params i ++ [e.1]) } := by
        simp only [addEntry, h]
      exact ends_of_ok hx rfl

theorem leaves_deleteEntry (i : Stage) (k : EntryKey) : Leaves records (deleteEntry i k) := by
  intro sw
  exact ends_zoom.2 (ends_of_forall (fun _ _ => rfl) fun _ => rfl)

theorem leaves_removeEntries (p : EntryKey → Bool) (i : Stage) :
    Leaves records (removeEntries p i) := by
  intro sw
  have hloop := Leaves.forM (l := (sw.params i).filter p)
    (fun k _ => leaves_deleteEntry i k) sw
  cases h : ((sw.params i).filter p).forM (deleteEntry i) sw with
  | error ex sw' =>
      have hx : removeEntries p i sw = .error ex sw' := by simp only [removeEntries, h]
      exact ends_of_error hx (hloop.2 ex sw' h)
  | ok u sw' =>
      have hx : removeEntries p i sw = .ok ()
          { sw' with params :=
              Function.update sw'.params i ((sw.params i).filter fun k => !p k) } := by
        simp only [removeEntries, h]
      exact ends_of_ok hx (hloop.1 u sw' h)

theorem leaves_changeAllocations (k : GressStage)
    (f : Dict Fid AllocationEntry → Except Exn (Dict Fid AllocationEntry)) :
    Leaves (fun sw => (replies sw, programs sw)) (changeAllocations k f) := by
  intro sw
  exact ends_zoom.2 (ends_of_forall (fun _ _ => rfl) fun _ => rfl)

/-- A part of what is left alone is left alone. -/
theorem leaves_part {β γ δ : Type} {x : EStateM Exn Switch β} {g : Switch → γ} (h : Leaves g x)
    (k : γ → δ) : Leaves (fun sw => k (g sw)) x := fun sw =>
  (h sw).mono (fun _ _ ht => congrArg k ht) fun _ ht => congrArg k ht

theorem leaves_installVirtualAddressEntries (bs : ℚ) (v : Bool) (f : Fid)
    (allocation : Dict Stage (List ℕ)) :
    Leaves records (installVirtualAddressEntries bs v f allocation) := by
  unfold installVirtualAddressEntries
  split_ifs
  · exact Leaves.forM fun i _ => Leaves.forM fun e _ => leaves_addEntry i e
  · exact Leaves.pure

theorem leaves_updateMemoryAccess (bs : ℚ)
    (remapped : Dict Stage (List (Fid × Allocator.Remap))) :
    Leaves records (updateMemoryAccess bs remapped) := by
  refine Leaves.forM fun p _ => Leaves.forM fun q _ => ?_
  exact (leaves_removeEntries _ _).bind fun _ => Leaves.forM fun e _ => leaves_addEntry _ e

theorem leaves_updateVaddr (bs : ℚ) (v : Bool)
    (remapped : Dict Stage (List (Fid × Allocator.Remap))) :
    Leaves records (updateVaddr bs v remapped) := by
  refine Leaves.forM fun p _ => ?_
  exact (Leaves.forM fun i _ => leaves_removeEntries _ i).bind fun _ =>
    leaves_installVirtualAddressEntries bs v p.1 p.2

theorem leaves_updateAllocationTables (bs : ℚ)
    (remapped : Dict Stage (List (Fid × Allocator.Remap))) :
    Leaves (fun sw => (replies sw, programs sw)) (updateAllocationTables bs remapped) := by
  refine (Leaves.forM fun p _ => Leaves.forM fun tid _ => ?_).bind fun _ =>
    Leaves.forM fun p _ => Leaves.forM fun q _ => leaves_changeAllocations _ _
  refine (leaves_changeAllocations _ _).bind fun _ => ?_
  cases (allocRemapTable remapped).get? tid with
  | none => exact fun sw => ends_throw.2 rfl
  | some stages =>
      dsimp only
      split_ifs
      · exact Leaves.pure
      · exact leaves_changeAllocations _ _

theorem leaves_installAllocation (bs : ℚ) (v : Bool) (f : Fid) (allocation : Dict Stage (List ℕ)) :
    Leaves replies (installAllocation bs v f allocation) := by
  refine (Leaves.forM fun p _ => Leaves.forM fun e _ =>
    leaves_part (leaves_addEntry _ e) Prod.fst).bind fun _ => ?_
  refine (leaves_part (leaves_installVirtualAddressEntries bs v f allocation) Prod.fst).bind fun _ => ?_
  exact Leaves.forM fun k _ => leaves_part (leaves_changeAllocations k _) Prod.fst

/-! ### What the tables change -/

section Change

variable {κ α : Type} [DecidableEq κ] {d : Dict κ α} {k : κ} {v : α} {Q : Unit → Dict κ α → Prop}
  {E : Dict κ α → Prop}

theorem ends_add (hQ : k ∉ d.keys → Q () (d.set k v)) (hE : k ∈ d.keys → E d) :
    Ends (change fun d => tableAdd d k v) d Q E := by
  by_cases hk : k ∈ d.keys
  · have hx : change (fun d => tableAdd d k v) d = .error .tableError d := by
      simp only [change, tableAdd, (Dict.contains_iff d k).2 hk, if_true]
    exact ends_of_error hx (hE hk)
  · have hc : d.contains k = false := by
      rw [Bool.eq_false_iff, Ne, Dict.contains_iff]
      exact hk
    have hx : change (fun d => tableAdd d k v) d = .ok () (d.set k v) := by
      simp [change, tableAdd, hc]
    exact ends_of_ok hx (hQ hk)

theorem ends_delete (hQ : k ∈ d.keys → Q () (d.erase k)) (hE : k ∉ d.keys → E d) :
    Ends (change fun d => tableDelete d k) d Q E := by
  by_cases hk : k ∈ d.keys
  · have hx : change (fun d => tableDelete d k) d = .ok () (d.erase k) := by
      simp only [change, tableDelete, (Dict.contains_iff d k).2 hk, if_true]
    exact ends_of_ok hx (hQ hk)
  · have hc : d.contains k = false := by
      rw [Bool.eq_false_iff, Ne, Dict.contains_iff]
      exact hk
    have hx : change (fun d => tableDelete d k) d = .error .tableError d := by
      simp [change, tableDelete, hc]
    exact ends_of_error hx (hE hk)

end Change

/-- A new version of a reply: the function has a reply before and after, and nothing but the reply
table changes. -/
theorem ends_renewAllocation (f : Fid) (n : ℕ) (sw : Switch) :
    Ends (renewAllocation f n) sw
      (fun _ sw' => ∃ d, sw' = { sw with allocation := d } ∧ f ∈ sw.allocation.keys ∧
        ∀ k, k ∈ d.keys ↔ k ∈ sw.allocation.keys)
      fun sw' => ∃ d, sw' = { sw with allocation := d } := by
  unfold renewAllocation
  refine ends_bind.2 (ends_zoom.2 (ends_delete ?_ fun _ => ⟨_, rfl⟩))
  intro hf
  refine ends_zoom.2 (ends_add ?_ fun _ => ⟨_, rfl⟩)
  intro _
  refine ⟨_, rfl, hf, fun k => ?_⟩
  rw [Dict.mem_keys_set, Dict.mem_keys_erase]
  constructor
  · intro hk
    rcases hk with rfl | ⟨-, hk⟩
    · exact hf
    · exact hk
  · intro hk
    by_cases hkf : k = f
    · exact Or.inl hkf
    · exact Or.inr ⟨hkf, hk⟩

/-- **The entries of a departing function.**  The reply table is empty, or the function leaves it; an
exception leaves the reply table alone, unless the function had no quota. -/
theorem ends_removeFunction (f : Fid) (sw : Switch) :
    Ends (removeFunction f) sw
      (fun b sw' => sw'.remapCheck = sw.remapCheck ∧
        if b then sw'.allocation = sw.allocation.erase f ∧ sw'.quotaRecirc = sw.quotaRecirc.erase f
        else sw.allocation.items = [] ∧ sw'.allocation = sw.allocation ∧
          sw'.quotaRecirc = sw.quotaRecirc)
      fun sw' => sw'.remapCheck = sw.remapCheck ∧ sw'.quotaRecirc = sw.quotaRecirc ∧
        (f ∈ sw.quotaRecirc.keys → sw'.allocation = sw.allocation) := by
  have hentries : Leaves replies (do
      removeVaddrEntries f
      (List.finRange 10).forM fun k => removeMemoryAccessEntries (egress k) f
      (List.finRange 10).forM fun k => do
        removeMemoryAccessEntries (ingress k) f
        changeAllocations k fun d => .ok (d.erase f)) := by
    have hremove : ∀ p i, Leaves replies (removeEntries p i) := fun p i =>
      leaves_part (leaves_removeEntries p i) Prod.fst
    refine (Leaves.forM fun i _ => hremove _ i).bind fun _ => ?_
    refine (Leaves.forM fun k _ => hremove _ _).bind fun _ => Leaves.forM fun k _ => ?_
    exact (hremove _ _).bind fun _ => leaves_part (leaves_changeAllocations k _) Prod.fst
  have hparts : ∀ {t : Switch}, replies t = replies sw →
      t.allocation = sw.allocation ∧ t.remapCheck = sw.remapCheck ∧
        t.quotaRecirc = sw.quotaRecirc := by
    intro t ht
    simp only [replies, Prod.mk.injEq] at ht
    exact ht
  have hseq : removeFunction f = (do
      removeVaddrEntries f
      (List.finRange 10).forM fun k => removeMemoryAccessEntries (egress k) f
      (List.finRange 10).forM fun k => do
        removeMemoryAccessEntries (ingress k) f
        changeAllocations k fun d => .ok (d.erase f)) >>= fun _ => (do
      if (← get).allocation.items.isEmpty then return false
      changeAllocation fun d => .ok (d.erase f)
      changeQuotaRecirc fun d => tableDelete d f
      return true) := by
    simp only [removeFunction, bind_assoc]
  rw [hseq]
  refine ends_bind.2 ((hentries sw).mono ?_ ?_)
  · intro _ t ht
    obtain ⟨ha, hr, hq⟩ := hparts ht
    refine ends_bind.2 (ends_get.2 ?_)
    split_ifs with hempty
    · refine ends_pure.2 ⟨hr, ?_⟩
      rw [if_neg (by decide)]
      exact ⟨by rw [← ha]; exact List.isEmpty_iff.1 hempty, ha, hq⟩
    · refine ends_bind.2 (ends_zoom.2 (ends_of_ok rfl ?_))
      refine ends_bind.2 (ends_zoom.2 (ends_delete ?_ ?_))
      · intro _
        refine ends_pure.2 ⟨hr, ?_⟩
        rw [if_pos rfl]
        exact ⟨by rw [← ha], by rw [← hq]⟩
      · intro hf
        refine ⟨hr, hq, fun hf' => absurd ?_ hf⟩
        rw [← hq] at hf'
        exact hf'
  · intro t ht
    obtain ⟨ha, hr, hq⟩ := hparts ht
    exact ⟨hr, hq, fun _ => ha⟩

end Switch

/-! ### What the allocator keeps -/

namespace Allocator

/-- The allocator with other offsets and holes. -/
def reshaped (s : Allocator) (e : Stage → ℕ) (fr : Stage → List Fragment) : Allocator :=
  { s with elasticOffset := e, fragmentation := fr }

/-- An arrival is in progress, and the registered functions are others. -/
def marked (s : Allocator) (f : Fid) (d : Dict Fid ActiveFunction) : Allocator :=
  { s with queueFid := some f, queue := none, activeFuncs := d }

variable {cfg : AllocatorConfig}

/-- **Choosing a variant** touches the registered functions only, and of these only the arrival. -/
theorem ends_computeAllocation (af : ActiveFunction) (s : Allocator) :
    Ends (computeAllocation cfg af) s
      (fun _ t => ∃ d, t = s.marked af.fid d ∧ ∀ k ≠ af.fid, d.get? k = s.activeFuncs.get? k)
      fun t => ∃ d, t = s.marked af.fid d ∧ ∀ k ≠ af.fid, d.get? k = s.activeFuncs.get? k := by
  have hset : ∀ x : ActiveFunction, ∀ k ≠ af.fid,
      (s.activeFuncs.set af.fid x).get? k = s.activeFuncs.get? k := by
    intro x k hk
    rw [Dict.get?_set, if_neg hk]
  have hmark : s.marked af.fid (s.activeFuncs.set af.fid af) = { s with
      queueFid := some af.fid
      queue := none
      activeFuncs := s.activeFuncs.set af.fid af } := rfl
  cases h : (s.marked af.fid (s.activeFuncs.set af.fid af)).search cfg af af.getEnumeration none with
  | error ex =>
      have hx : computeAllocation cfg af s =
          .error ex (s.marked af.fid (s.activeFuncs.set af.fid af)) := by
        simp only [computeAllocation, ← hmark, h]
      exact ends_of_error hx ⟨_, rfl, hset af⟩
  | ok r =>
      cases r with
      | none =>
          have hx : computeAllocation cfg af s =
              .ok none (s.marked af.fid ((s.activeFuncs.set af.fid af).erase af.fid)) := by
            simp only [computeAllocation, ← hmark, h]
            rfl
          refine ends_of_ok hx ⟨_, rfl, fun k hk => ?_⟩
          rw [Dict.get?_erase, if_neg hk, hset af k hk]
      | some p =>
          obtain ⟨v, q⟩ := p
          refine ⟨fun a t ht => ?_, fun ex t ht => ?_⟩
          · simp only [computeAllocation, ← hmark, h, EStateM.Result.ok.injEq] at ht
            obtain ⟨-, rfl⟩ := ht
            refine ⟨(s.activeFuncs.set af.fid af).set af.fid _, rfl, fun k hk => ?_⟩
            rw [Dict.get?_set, if_neg hk, hset af k hk]
          · simp [computeAllocation, ← hmark, h] at ht

/-- **Computing the new columns** changes offsets and holes only. -/
theorem ends_computeAllocationMatrix (map : Stage → Finset Fid) (s : Allocator) :
    Ends (computeAllocationMatrix cfg map) s (fun _ t => ∃ e fr, t = s.reshaped e fr)
      fun t => ∃ e fr, t = s.reshaped e fr := by
  have hplace : ∀ (new : Stage → List ℕ) (i : Stage) (t : Allocator),
      (∃ e fr, t = s.reshaped e fr) → Ends (placeAt cfg map new i) t
        (fun _ t => ∃ e fr, t = s.reshaped e fr) fun t => ∃ e fr, t = s.reshaped e fr := by
    intro new i t ht
    obtain ⟨e, fr, rfl⟩ := ht
    refine ⟨fun a u hu => ?_, fun ex u hu => ?_⟩
    all_goals
      unfold placeAt at hu
      split_ifs at hu
    · simp only [EStateM.Result.ok.injEq] at hu
      exact ⟨e, fr, hu.2.symm⟩
    · split at hu
      · simp at hu
      · dsimp only at hu
        split at hu
        · simp at hu
        · simp only [EStateM.Result.ok.injEq] at hu
          exact ⟨_, _, hu.2.symm⟩
    · split at hu
      · simp only [EStateM.Result.error.injEq] at hu
        exact ⟨_, _, hu.2.symm⟩
      · dsimp only at hu
        split at hu
        · simp only [EStateM.Result.error.injEq] at hu
          exact ⟨_, _, hu.2.symm⟩
        · simp at hu
  unfold computeAllocationMatrix
  refine ends_bind.2 ((ends_foldlM_const (fun t => ∃ e fr, t = s.reshaped e fr) hplace _ s
    ⟨_, _, rfl⟩).mono (fun new t ht => ?_) fun _ h => h)
  exact ends_ite (fun _ => ends_bind.2 (ends_throw.2 ht)) fun _ => ends_pure.2 ht

/-- **Queueing an allocation** leaves the live maps and columns alone. -/
theorem ends_enqueueAllocation (al : Finset Stage) (map : Stage → Finset Fid) (s : Allocator) :
    Ends (enqueueAllocation cfg al map) s
      (fun p t => ∃ new e fr, p.1 = s.computeChanges new ∧ p.2.1 = s.remapsFor new ∧
        computeAllocationMatrix cfg map s = .ok new (s.reshaped e fr) ∧
        t = { s.reshaped e fr with queue := some ⟨al, map, reverseMap map, new⟩ })
      fun t => ∃ e fr, t = s.reshaped e fr := by
  have hmat := @ends_computeAllocationMatrix cfg map s
  cases h : computeAllocationMatrix cfg map s with
  | error ex t => exact ends_of_error (enqueueAllocation_error h) (hmat.2 ex t h)
  | ok new t =>
      obtain ⟨e, fr, rfl⟩ := hmat.1 new t h
      refine ⟨fun p u hu => ?_, fun ex u hu => ?_⟩
      all_goals
        unfold enqueueAllocation at hu
        rw [h] at hu
        dsimp only at hu
        split at hu
      · simp at hu
      · split at hu
        · simp at hu
        · split_ifs at hu
          simp only [EStateM.Result.ok.injEq] at hu
          obtain ⟨rfl, rfl⟩ := hu
          exact ⟨new, e, fr, rfl, rfl, rfl, rfl⟩
      · simp only [EStateM.Result.error.injEq] at hu
        exact ⟨e, fr, hu.2.symm⟩
      · split at hu
        · simp only [EStateM.Result.error.injEq] at hu
          exact ⟨e, fr, hu.2.symm⟩
        · split_ifs at hu
          simp only [EStateM.Result.error.injEq] at hu
          exact ⟨e, fr, hu.2.symm⟩

end Allocator

/-! ### Resuming an allocation -/

namespace Controller

open Allocator (Remaps)

variable {cfg : ControllerConfig} {c : Controller}

section Rules

variable {α : Type} {Q : α → Controller → Prop} {E : Controller → Prop}

theorem ends_onSwitch {x : EStateM Exn Switch α} :
    Ends (onSwitch x) c Q E ↔
      Ends x c.switch (fun a sw => Q a { c with switch := sw }) fun sw => E { c with switch := sw } :=
  ends_zoom

theorem ends_onAllocator {x : EStateM Exn Allocator α} :
    Ends (onAllocator x) c Q E ↔
      Ends x c.allocator (fun a s => Q a { c with allocator := s })
        fun s => E { c with allocator := s } :=
  ends_zoom

end Rules

/-- The tables and the versions after `updateAllocation`. -/
structure Updated (c : Controller) (sw : Switch) (v : Dict Fid ℕ) : Prop where
  /-- Nobody is told anything. -/
  remapCheck : sw.remapCheck = c.switch.remapCheck
  /-- The quotas are the same. -/
  quota : sw.quotaRecirc = c.switch.quotaRecirc
  /-- The same functions have a reply. -/
  replies : ∀ k, k ∈ sw.allocation.keys ↔ k ∈ c.switch.allocation.keys
  /-- The same functions have a version. -/
  versions : ∀ k, k ∈ v.keys ↔ k ∈ c.allocVersion.keys

theorem Updated.refl (c : Controller) : Updated c c.switch c.allocVersion :=
  ⟨rfl, rfl, fun _ => Iff.rfl, fun _ => Iff.rfl⟩

theorem Updated.trans {sw sw' : Switch} {v v' : Dict Fid ℕ} (h : Updated c sw v)
    (h' : Updated { c with switch := sw, allocVersion := v } sw' v') : Updated c sw' v' :=
  ⟨h'.remapCheck.trans h.remapCheck, h'.quota.trans h.quota,
    fun k => (h'.replies k).trans (h.replies k), fun k => (h'.versions k).trans (h.versions k)⟩

/-- A table program that leaves the replies alone is an update. -/
theorem ends_onSwitch_leaves {x : EStateM Exn Switch Unit} (hx : Leaves Switch.replies x) {sw : Switch}
    {v : Dict Fid ℕ} (h : Updated c sw v) :
    Ends (onSwitch x) { c with switch := sw, allocVersion := v }
      (fun _ c' => ∃ sw v, c' = { c with switch := sw, allocVersion := v } ∧ Updated c sw v)
      fun c' => ∃ sw v, c' = { c with switch := sw, allocVersion := v } ∧
        sw.remapCheck = c.switch.remapCheck := by
  have hup : ∀ {t : Switch}, Switch.replies t = Switch.replies sw → Updated c t v := by
    intro t ht
    simp only [Switch.replies, Prod.mk.injEq] at ht
    obtain ⟨ha, hr, hq⟩ := ht
    exact ⟨hr.trans h.remapCheck, hq.trans h.quota, fun k => by rw [ha]; exact h.replies k,
      h.versions⟩
  refine ends_onSwitch.2 ((hx sw).mono ?_ ?_)
  · intro _ t ht
    exact ⟨t, v, rfl, hup ht⟩
  · intro t ht
    exact ⟨t, v, rfl, (hup ht).remapCheck⟩

/-- **The tables after an allocation has been applied.** -/
theorem ends_updateAllocation (f : Fid) (allocation : Dict Stage (List ℕ)) (r : Remaps)
    (c : Controller) :
    Ends (updateAllocation cfg f allocation r) c
      (fun _ c' => ∃ sw v, c' = { c with switch := sw, allocVersion := v } ∧ Updated c sw v)
      fun c' => ∃ sw v, c' = { c with switch := sw, allocVersion := v } ∧
        sw.remapCheck = c.switch.remapCheck := by
  unfold updateAllocation
  refine ends_bind.2 ((ends_onSwitch_leaves (Switch.leaves_part
    (Switch.leaves_updateMemoryAccess _ _) Prod.fst) (Updated.refl c)).mono ?_ fun _ h => h)
  rintro _ c₁ ⟨sw₁, v₁, rfl, h₁⟩
  refine ends_bind.2 ((ends_onSwitch_leaves (Switch.leaves_part
    (Switch.leaves_updateVaddr _ _ _) Prod.fst) h₁).mono ?_ fun _ h => h)
  rintro _ c₂ ⟨sw₂, v₂, rfl, h₂⟩
  refine ends_bind.2 ((ends_onSwitch_leaves (Switch.leaves_part
    (Switch.leaves_updateAllocationTables _ _) Prod.fst) h₂).mono ?_ fun _ h => h)
  rintro _ c₃ ⟨sw₃, v₃, rfl, h₃⟩
  refine ends_bind.2 (Ends.mono (Q := fun _ c' => ∃ sw v,
    c' = { c with switch := sw, allocVersion := v } ∧ Updated c sw v) ?_ ?_ fun _ h => h)
  · refine ends_forM_const (fun c' => ∃ sw v,
      c' = { c with switch := sw, allocVersion := v } ∧ Updated c sw v) ?_ ⟨sw₃, v₃, rfl, h₃⟩
    rintro tid - c₄ ⟨sw, v, rfl, h⟩
    unfold renewVersion
    refine ends_bind.2 (ends_get.2 ?_)
    dsimp only
    cases hv : v.get? tid with
    | none => exact ends_throw.2 ⟨sw, v, rfl, h.remapCheck⟩
    | some n =>
        refine ends_bind.2 (ends_modify.2 (ends_onSwitch.2 ?_))
        refine (Switch.ends_renewAllocation tid (n + 1) sw).mono ?_ ?_
        · rintro _ t ⟨d, rfl, hmem, hd⟩
          refine ⟨_, _, rfl, h.trans ⟨rfl, rfl, hd, fun k => ?_⟩⟩
          rw [Dict.mem_keys_set]
          refine ⟨fun hk => hk.elim (fun hk => ?_) id, Or.inr⟩
          rw [hk]
          exact (Dict.mem_keys_iff v tid).2 ⟨n, hv⟩
        · rintro t ⟨d, rfl⟩
          exact ⟨_, _, rfl, h.remapCheck⟩
  · rintro _ c₄ ⟨sw₄, v₄, rfl, h₄⟩
    exact ends_onSwitch_leaves (Switch.leaves_installAllocation _ _ _ _) h₄

/-- **The controller after an allocation has been applied.** -/
def completed (c : Controller) (plan : Plan) (f : Fid) (r : Remaps) (sw : Switch)
    (v : Dict Fid ℕ) : Controller :=
  { c with
    allocator := c.allocator.applied plan
    applied := c.applied ++ [(c.issued.length - 1, f, r)]
    switch := sw
    allocVersion := v
    active := c.active ++ [f]
    queue := c.queue.erase f
    allocTiming := c.allocTiming.erase f
    remoteDrainInitiator := none }

/-- **The controller after an exception on the way**: the new columns are the live ones, and the lock
is held for ever. -/
def stuck (c : Controller) (plan : Plan) (f : Fid) (r : Remaps) (sw : Switch)
    (v : Dict Fid ℕ) : Controller :=
  { c with
    allocator := c.allocator.applied plan
    applied := c.applied ++ [(c.issued.length - 1, f, r)]
    switch := sw
    allocVersion := v
    mutex := true }

/-- What the tables hold after an allocation has been applied. -/
structure Renewed (c : Controller) (f : Fid) (sw : Switch) (v : Dict Fid ℕ) : Prop where
  /-- Nobody is told anything. -/
  remapCheck : sw.remapCheck = c.switch.remapCheck
  /-- The function has a quota. -/
  quota : ∀ k, k ∈ sw.quotaRecirc.keys ↔ k = f ∨ k ∈ c.switch.quotaRecirc.keys
  /-- The function has a reply. -/
  reply : f ∈ sw.allocation.keys
  /-- The same functions have a reply. -/
  replies : ∀ k, k ∈ sw.allocation.keys ↔ k ∈ c.switch.allocation.keys
  /-- The function has a version. -/
  versions : ∀ k, k ∈ v.keys ↔ k = f ∨ k ∈ c.allocVersion.keys

theorem applyQueuedAllocation_eq {s : Allocator} {g : Fid} {plan : Plan} (hg : s.queueFid = some g)
    (hp : s.queue = some plan) :
    Allocator.applyQueuedAllocation s = .ok true (s.applied plan) := by
  simp only [Allocator.applyQueuedAllocation, hg, hp]
  rfl

/-- **Applying a queued allocation** that waits: the new columns become the live ones, and after that
nothing but the driver can fail. -/
theorem ends_resumeAllocation {plan : Plan} {f g : Fid} (r : Remaps) (hm : c.mutex = false)
    (hi : c.remoteDrainInitiator ≠ none) (hg : c.allocator.queueFid = some g)
    (hp : c.allocator.queue = some plan) (hq : f ∈ c.queue) (ht : f ∈ c.allocTiming) :
    Ends (resumeAllocation cfg f r) c
      (fun _ c' => ∃ sw v, c' = c.completed plan f r sw v ∧ Renewed c f sw v)
      fun c' => ∃ sw v, c' = c.stuck plan f r sw v ∧ sw.remapCheck = c.switch.remapCheck := by
  unfold resumeAllocation
  refine ends_bind.2 (ends_get.2 (ends_ite_neg (by rw [hm]; decide) ?_))
  refine ends_bind.2 (ends_get.2 (ends_ite_neg hi ?_))
  refine ends_bind.2 (ends_modify.2 ?_)
  unfold completeAllocation applyQueuedAllocation
  refine ends_bind.2 (ends_bind.2 (ends_onAllocator.2 ?_))
  refine ends_of_ok (applyQueuedAllocation_eq hg hp) (ends_ite_pos rfl (ends_modify.2 ?_))
  refine ends_bind.2 (ends_get.2 (ends_bind.2 ?_))
  dsimp only
  refine (ends_updateAllocation f _ r _).mono ?_ ?_
  · intro _ c₁ h₁
    obtain ⟨sw₁, v₁, rfl, hup⟩ := h₁
    refine ends_bind.2 (ends_onSwitch.2 (ends_zoom.2 (Switch.ends_add ?_ ?_)))
    · intro _
      unfold publishVersion
      refine ends_bind.2 (ends_bind.2 (ends_get.2 (ends_bind.2 (ends_modify.2 ?_))))
      dsimp only
      refine ends_onSwitch.2 ((Switch.ends_renewAllocation f _ _).mono ?_ ?_)
      · intro _ sw₂ h₂
        obtain ⟨d, rfl, hmem, hd⟩ := h₂
        refine ends_bind.2 (ends_modify.2 ?_)
        unfold leaveQueue popAllocTiming
        dsimp only
        refine ends_bind.2 (ends_bind.2 (ends_get.2 (ends_ite_pos hq (ends_modify.2 ?_))))
        dsimp only
        refine ends_bind.2 (ends_bind.2 (ends_get.2 (ends_ite_pos ht (ends_modify.2 ?_))))
        dsimp only
        refine ends_modify.2 ⟨{ sw₁ with
          allocation := d
          quotaRecirc := sw₁.quotaRecirc.set f () }, v₁.set f ((v₁.get? f).getD 0 + 1), ?_, ?_⟩
        · simp only [completed, hm]
        · refine ⟨hup.remapCheck, fun k => ?_, (hd f).2 hmem, fun k => (hd k).trans (hup.replies k),
            fun k => ?_⟩
          · rw [Dict.mem_keys_set, hup.quota]
          · rw [Dict.mem_keys_set, hup.versions]
      · intro sw₂ h₂
        obtain ⟨d, rfl⟩ := h₂
        exact ⟨_, _, rfl, hup.remapCheck⟩
    · intro _
      exact ⟨_, _, rfl, hup.remapCheck⟩
  · intro c₁ h₁
    obtain ⟨sw₁, v₁, rfl, hr⟩ := h₁
    exact ⟨sw₁, v₁, rfl, hr⟩

/-- Resuming when nobody waits, or when the lock is held, changes nothing. -/
theorem ends_resumeAllocation_idle (f : Fid) (r : Remaps)
    (h : c.mutex = true ∨ c.remoteDrainInitiator = none) :
    Ends (resumeAllocation cfg f r) c (fun _ c' => c' = c ∧ c.mutex = false)
      fun c' => c' = c ∧ c.mutex = true := by
  unfold resumeAllocation
  refine ends_bind.2 (ends_get.2 ?_)
  refine ends_ite (fun hm => ends_bind.2 (ends_throw.2 ⟨rfl, hm⟩)) fun hm => ?_
  refine ends_bind.2 (ends_get.2 (ends_ite_pos (h.resolve_left hm) ?_))
  exact ends_pure.2 ⟨rfl, by simpa using hm⟩

/-! ### Remap digests -/

/-- The controller with other functions to be heard of, to be timed and to be told. -/
def telling (c : Controller) (I T : Finset Fid) (m : Dict Fid ℕ) : Controller :=
  { c with remoteDrainInit := I, remapTiming := T, switch := { c.switch with remapCheck := m } }

/-- A function may have been heard of: the switch then no longer tells it. -/
def Heard (c : Controller) (f : Fid) (I : Finset Fid) (m : Dict Fid ℕ) : Prop :=
  (I = c.remoteDrainInit ∧ m = c.switch.remapCheck) ∨
    (f ∈ c.remoteDrainInit ∧ I = c.remoteDrainInit.erase f ∧ m = c.switch.remapCheck.erase f)

/-- Why the handler of a digest can fail before it holds the lock. -/
def Unheard (c : Controller) (f : Fid) : Prop :=
  f ∉ c.remapTiming ∨ (f ∈ c.remoteDrainInit ∧ f ∉ c.switch.remapCheck.keys)

theorem ends_stopTelling (f : Fid) (I : Finset Fid) (hf : f ∈ c.remoteDrainInit) :
    Ends (stopTelling f) { c with remoteDrainInit := I }
      (fun _ c' => c' = c.telling I c.remapTiming (c.switch.remapCheck.erase f))
      fun c' => c' = { c with remoteDrainInit := I } ∧ Unheard c f := by
  refine ends_onSwitch.2 (ends_zoom.2 (Switch.ends_delete ?_ ?_))
  · intro _
    rfl
  · intro hk
    exact ⟨rfl, Or.inr ⟨hf, hk⟩⟩

theorem ends_drainInitiated {f : Fid} (hf : f ∈ c.remoteDrainInit) :
    Ends (drainInitiated f) c
      (fun _ c' => c' = c.telling (c.remoteDrainInit.erase f) c.remapTiming
          (c.switch.remapCheck.erase f) ∧ f ∈ c.remapTiming)
      fun c' => c' = { c with remoteDrainInit := c.remoteDrainInit.erase f } ∧ Unheard c f := by
  unfold drainInitiated checkRemapTiming
  refine ends_bind.2 (ends_modify.2 (ends_bind.2 (ends_bind.2 (ends_get.2 ?_))))
  refine ends_ite (fun ht => ?_) fun ht => ends_throw.2 ⟨rfl, Or.inl ht⟩
  refine ends_pure.2 ((ends_stopTelling f _ hf).mono ?_ fun _ h => h)
  intro _ c' h
  exact ⟨h, ht⟩

theorem ends_drainComplete (f : Fid) (c : Controller) :
    Ends (drainComplete f) c
      (fun _ c' => ∃ m, c' = c.telling (c.remoteDrainInit.erase f) (c.remapTiming.erase f) m ∧
        Heard c f (c.remoteDrainInit.erase f) m ∧ f ∈ c.remapTiming)
      fun c' => (∃ I T m, c' = c.telling I T m) ∧ Unheard c f := by
  unfold drainComplete checkRemapTiming
  refine ends_bind.2 (ends_bind.2 (ends_get.2 ?_))
  refine ends_ite (fun ht => ?_) fun ht =>
    ends_throw.2 ⟨⟨c.remoteDrainInit, c.remapTiming, c.switch.remapCheck, rfl⟩, Or.inl ht⟩
  refine ends_pure.2 (ends_bind.2 (ends_modify.2 (ends_bind.2 (ends_get.2 ?_))))
  refine ends_ite (fun hf => ?_) fun hf => ends_pure.2 ⟨c.switch.remapCheck, ?_, ?_, ht⟩
  · refine ends_bind.2 (ends_modify.2 (ends_onSwitch.2 (ends_zoom.2 (Switch.ends_delete ?_ ?_))))
    · intro _
      exact ⟨c.switch.remapCheck.erase f, rfl, Or.inr ⟨hf, rfl, rfl⟩, ht⟩
    · intro hk
      exact ⟨⟨_, _, c.switch.remapCheck, rfl⟩, Or.inr ⟨hf, hk⟩⟩
  · rw [telling, Finset.erase_eq_of_notMem hf]
  · exact Or.inl ⟨Finset.erase_eq_of_notMem hf, rfl⟩

/-- What a remap handler has read when it holds the lock. -/
def ackOf (c : Controller) (f : Fid) (rs : Remaps) : Ack :=
  ⟨f, if c.remoteDrainQueue.keys.length = 1 then c.remoteDrainInitiator.map fun g => (g, rs)
    else none⟩

/-- The controller while a remap handler holds the lock. -/
def locked (c : Controller) (f : Fid) (m : Dict Fid ℕ) : Controller :=
  { c with
    remoteDrainInit := c.remoteDrainInit.erase f
    remapTiming := c.remapTiming.erase f
    switch := { c.switch with remapCheck := m }
    digestMutex := true }

/-- An acknowledgement is read under the lock. -/
def Locks (c : Controller) (d : RemapDigest) (a : Option Ack) (c' : Controller) : Prop :=
  ∃ rs m, a = some (c.ackOf d.fid rs) ∧ c.remoteDrainQueue.get? d.fid = some rs ∧
    d.flagRemapped = true ∧ d.flagAck = true ∧ c.digestMutex = false ∧
    c' = c.locked d.fid m ∧ Heard c d.fid (c.remoteDrainInit.erase d.fid) m

/-- A digest is read: it is no acknowledgement that is waited for, or it is one. -/
def Reads (c : Controller) (d : RemapDigest) (a : Option Ack) (c' : Controller) : Prop :=
  (a = none ∧ ∃ I m, c' = c.telling I c.remapTiming m ∧ Heard c d.fid I m) ∨ Locks c d a c'

/-- An exception before the lock is held. -/
def ReadFails (c : Controller) (d : RemapDigest) (c' : Controller) : Prop :=
  (∃ I T m, c' = c.telling I T m) ∧
    (d.fid ∈ c.remoteDrainQueue.keys ∨ d.fid ∈ c.remoteDrainInit) ∧
    (Unheard c d.fid ∨ c.digestMutex = true)

/-- **The first half of a remap handler**: the digest is not for it, or is read under the lock. -/
theorem ends_readAck (d : RemapDigest) (c : Controller) :
    Ends (readAck d) c (Reads c d) (ReadFails c d) := by
  have hlock : ∀ c₁ : Controller, (∃ I m, c₁ = c.telling I c.remapTiming m ∧ Heard c d.fid I m) →
      d.fid ∈ c.remoteDrainQueue.keys → d.flagRemapped = true → d.flagAck = true →
      Ends (do drainComplete d.fid; lockAck d.fid) c₁ (Locks c d)
        fun c' => (∃ I T m, c' = c.telling I T m) ∧
          (Unheard c d.fid ∨ c.digestMutex = true) := by
    intro c₁ h₁ hmem hr hack
    obtain ⟨I, m, rfl, hI⟩ := h₁
    refine ends_bind.2 ((ends_drainComplete d.fid _).mono ?_ ?_)
    · intro _ c₂ h₂
      obtain ⟨m', rfl, hm', ht⟩ := h₂
      have herase : I.erase d.fid = c.remoteDrainInit.erase d.fid ∧
          Heard c d.fid (c.remoteDrainInit.erase d.fid) m' := by
        rcases hI with ⟨rfl, rfl⟩ | ⟨hf, rfl, rfl⟩
        · exact ⟨rfl, hm'⟩
        · refine ⟨Finset.erase_idem, Or.inr ⟨hf, rfl, ?_⟩⟩
          rcases hm' with ⟨-, rfl⟩ | ⟨hf', -⟩
          · rfl
          · exact absurd hf' (Finset.notMem_erase _ _)
      obtain ⟨rs, hrs⟩ := (Dict.mem_keys_iff _ _).1 hmem
      unfold lockAck
      refine ends_bind.2 (ends_get.2 (ends_ite (fun hd => ?_) fun hd => ?_))
      · refine ends_bind.2 (ends_throw.2 ⟨⟨_, _, _, rfl⟩, Or.inr hd⟩)
      · refine ends_bind.2 (ends_get.2 ?_)
        rw [show (((c.telling I c.remapTiming m).telling _ _ m').remoteDrainQueue).get? d.fid =
          some rs from hrs]
        refine ends_bind.2 (ends_set.2 (ends_pure.2 ⟨rs, m', rfl, hrs, hr, hack, ?_, ?_, herase.2⟩))
        · exact Bool.eq_false_iff.2 hd
        · simp only [locked, telling, herase.1]
    · intro c₂ h₂
      obtain ⟨⟨I', T, m', rfl⟩, hun⟩ := h₂
      refine ⟨⟨I', T, m', rfl⟩, Or.inl ?_⟩
      rcases hun with hun | ⟨hf, hk⟩
      · exact Or.inl hun
      · rcases hI with ⟨rfl, rfl⟩ | ⟨hf', rfl, rfl⟩
        · exact Or.inr ⟨hf, hk⟩
        · exact absurd hf (Finset.notMem_erase _ _)
  unfold readAck
  refine ends_bind.2 (ends_get.2 (ends_ite (fun _ => ?_) fun hfor => ?_))
  · exact ends_pure.2 (Or.inl ⟨rfl, c.remoteDrainInit, c.switch.remapCheck, rfl, Or.inl ⟨rfl, rfl⟩⟩)
  · rw [not_or, not_not, not_and_or, not_not, not_not] at hfor
    have hrest : ∀ c₁ : Controller, (∃ I m, c₁ = c.telling I c.remapTiming m ∧ Heard c d.fid I m) →
        Ends (if d.flagAck = true ∧ d.fid ∈ c.remoteDrainQueue.keys then do
            drainComplete d.fid; lockAck d.fid else pure none) c₁ (Reads c d) (ReadFails c d) := by
      intro c₁ h₁
      refine ends_ite (fun hack => ?_) fun _ => ?_
      · refine (hlock c₁ h₁ hack.2 hfor.1 hack.1).mono (fun a c' h => Or.inr h) ?_
        intro c' h
        exact ⟨h.1, hfor.2, h.2⟩
      · exact ends_pure.2 (Or.inl ⟨rfl, h₁⟩)
    refine ends_ite (fun hinit => ?_) fun _ => ?_
    · refine ends_bind.2 ((ends_drainInitiated hinit.2).mono ?_ ?_)
      · intro _ c₁ h₁
        obtain ⟨rfl, -⟩ := h₁
        exact hrest _ ⟨_, _, rfl, Or.inr ⟨hinit.2, rfl, rfl⟩⟩
      · intro c₁ h₁
        obtain ⟨rfl, hun⟩ := h₁
        exact ⟨⟨c.remoteDrainInit.erase d.fid, c.remapTiming, c.switch.remapCheck, rfl⟩, hfor.2,
          Or.inl hun⟩
    · exact hrest _ ⟨c.remoteDrainInit, c.switch.remapCheck, rfl, Or.inl ⟨rfl, rfl⟩⟩

/-- The controller when the acknowledgement of a function is done with. -/
def unlocked (c : Controller) (f : Fid) : Controller :=
  { c with remoteDrainQueue := c.remoteDrainQueue.erase f, digestMutex := false }

theorem ends_popDrainQueue (f : Fid) (c : Controller) :
    Ends (popDrainQueue f) c (fun _ c' => c' = c.unlocked f ∧ f ∈ c.remoteDrainQueue.keys)
      fun c' => c' = c ∧ f ∉ c.remoteDrainQueue.keys := by
  unfold popDrainQueue
  refine ends_bind.2 (ends_get.2 (ends_ite (fun hf => ?_) fun hf => ?_))
  · exact ends_modify.2 ⟨rfl, hf⟩
  · exact ends_throw.2 ⟨rfl, hf⟩

/-- The second half of a remap handler that has nothing to resume. -/
theorem ends_finishAck_idle {a : Ack}
    (h : a.resume = none ∨ c.mutex = true ∨ c.remoteDrainInitiator = none) :
    Ends (finishAck cfg a) c (fun _ c' => c' = c.unlocked a.fid ∧ a.fid ∈ c.remoteDrainQueue.keys)
      fun c' => c' = c ∧ (c.mutex = true ∨ a.fid ∉ c.remoteDrainQueue.keys) := by
  unfold finishAck
  have hpop : Ends (popDrainQueue a.fid) c
      (fun _ c' => c' = c.unlocked a.fid ∧ a.fid ∈ c.remoteDrainQueue.keys)
      fun c' => c' = c ∧ (c.mutex = true ∨ a.fid ∉ c.remoteDrainQueue.keys) :=
    (ends_popDrainQueue a.fid c).mono (fun _ _ h => h) fun _ h => ⟨h.1, Or.inr h.2⟩
  cases hr : a.resume with
  | none => exact ends_bind.2 (ends_pure.2 hpop)
  | some p =>
      have hidle : c.mutex = true ∨ c.remoteDrainInitiator = none := by simpa [hr] using h
      refine ends_bind.2 ((ends_resumeAllocation_idle p.1 p.2 hidle).mono ?_ ?_)
      · intro _ c' h'
        rw [h'.1]
        exact hpop
      · intro c' h'
        exact ⟨h'.1, Or.inl h'.2⟩

/-- **The second half of a remap handler that resumes.** -/
theorem ends_finishAck {a : Ack} {plan : Plan} {f g : Fid} {r : Remaps} (ha : a.resume = some (f, r))
    (hm : c.mutex = false) (hi : c.remoteDrainInitiator ≠ none)
    (hg : c.allocator.queueFid = some g) (hp : c.allocator.queue = some plan) (hq : f ∈ c.queue)
    (ht : f ∈ c.allocTiming) :
    Ends (finishAck cfg a) c
      (fun _ c' => ∃ sw v, c' = (c.completed plan f r sw v).unlocked a.fid ∧ Renewed c f sw v)
      fun c' => ∃ sw v, (c' = c.stuck plan f r sw v ∧ sw.remapCheck = c.switch.remapCheck) ∨
        (c' = c.completed plan f r sw v ∧ Renewed c f sw v ∧ a.fid ∉ c.remoteDrainQueue.keys) := by
  unfold finishAck
  rw [ha]
  refine ends_bind.2 ((ends_resumeAllocation r hm hi hg hp hq ht).mono ?_ ?_)
  · intro _ c₁ h₁
    obtain ⟨sw, v, rfl, hren⟩ := h₁
    refine (ends_popDrainQueue a.fid _).mono ?_ ?_
    · intro _ c' h'
      exact ⟨sw, v, h'.1, hren⟩
    · intro c' h'
      exact ⟨sw, v, Or.inr ⟨h'.1, hren, h'.2⟩⟩
  · intro c' h'
    obtain ⟨sw, v, rfl, hr⟩ := h'
    exact ⟨sw, v, Or.inl ⟨rfl, hr⟩⟩

/-! ### The loops over the remapped functions -/

/-- The controller after some functions have been given up. -/
def dropped (c : Controller) (fs : List Fid) (m : Dict Fid ℕ) : Controller :=
  { c with
    remoteDrainInit := c.remoteDrainInit \ fs.toFinset
    remoteDrainQueue := fs.foldl (fun d f => d.erase f) c.remoteDrainQueue
    switch := { c.switch with remapCheck := m } }

/-- Exactly the functions that were given up and had not been heard of are no longer told. -/
def Silenced (c : Controller) (fs : List Fid) (m : Dict Fid ℕ) : Prop :=
  ∀ k, k ∈ m.keys ↔ k ∈ c.switch.remapCheck.keys ∧ ¬(k ∈ fs ∧ k ∈ c.remoteDrainInit)

/-- **Giving up the functions that have not acknowledged.** -/
theorem ends_dropPeers (fs : List Fid) (c : Controller) :
    Ends (fs.forM dropPeer) c (fun _ c' => ∃ m, c' = c.dropped fs m ∧ Silenced c fs m)
      fun c' => ∃ Q I m, c' = { c with
          remoteDrainInit := I
          remoteDrainQueue := Q
          switch := { c.switch with remapCheck := m } } ∧
        (∀ k rs, Q.get? k = some rs → c.remoteDrainQueue.get? k = some rs) ∧
        ∃ f ∈ c.remoteDrainInit, f ∉ c.switch.remapCheck.keys := by
  have hget : ∀ (ps : List Fid) (d : Dict Fid Remaps) (k : Fid) (rs : Remaps),
      (ps.foldl (fun d f => d.erase f) d).get? k = some rs → d.get? k = some rs := by
    intro ps
    induction ps with
    | nil => exact fun _ _ _ h => h
    | cons p ps ih =>
        intro d k rs h
        have := ih _ k rs h
        rw [Dict.get?_erase] at this
        split_ifs at this
        exact this
  refine ends_forM (fun ps c' => ∃ m, c' = c.dropped ps m ∧ Silenced c ps m) ?_ fs [] c rfl
    ⟨c.switch.remapCheck, ?_, by simp [Silenced]⟩
  · intro ps f rest _ c₁ h₁
    obtain ⟨m, rfl, hsil⟩ := h₁
    unfold dropPeer
    refine ends_bind.2 (ends_modify.2 (ends_bind.2 (ends_get.2 (ends_ite (fun hf => ?_) fun hf => ?_))))
    · have hmem : f ∈ c.remoteDrainInit ∧ f ∉ ps := by
        simpa [dropped] using hf
      refine ends_bind.2 (ends_onSwitch.2 (ends_zoom.2 (Switch.ends_delete ?_ ?_)))
      · intro _
        refine ends_modify.2 ⟨m.erase f, ?_, ?_⟩
        · have hset : (c.remoteDrainInit \ ps.toFinset).erase f =
              c.remoteDrainInit \ (ps ++ [f]).toFinset := by
            ext k
            simp only [Finset.mem_erase, Finset.mem_sdiff, List.mem_toFinset, List.mem_append,
              List.mem_singleton]
            tauto
          simp only [dropped, hset, List.foldl_append, List.foldl_cons, List.foldl_nil]
        · intro k
          rw [Dict.mem_keys_erase, hsil k, List.mem_append, List.mem_singleton]
          constructor
          · intro hk
            exact ⟨hk.2.1, fun h => hk.2.2 ⟨h.1.resolve_right hk.1, h.2⟩⟩
          · intro hk
            refine ⟨fun hkf => hk.2 ⟨Or.inr hkf, hkf ▸ hmem.1⟩, hk.1, fun h => hk.2 ⟨Or.inl h.1, h.2⟩⟩
      · intro hk
        refine ⟨_, _, m, rfl, ?_, f, hmem.1, fun hk' => hk ?_⟩
        · intro k rs h
          rw [Dict.get?_erase] at h
          split_ifs at h
          exact hget ps _ k rs h
        · exact (hsil f).2 ⟨hk', fun h => hmem.2 h.1⟩
    · have hnot : f ∈ c.remoteDrainInit → f ∈ ps := by
        simpa [dropped] using hf
      refine ends_pure.2 ⟨m, ?_, ?_⟩
      · have hset : c.remoteDrainInit \ ps.toFinset = c.remoteDrainInit \ (ps ++ [f]).toFinset := by
          ext k
          simp only [Finset.mem_sdiff, List.mem_toFinset, List.mem_append, List.mem_singleton, not_or]
          constructor
          · intro hk
            exact ⟨hk.1, hk.2, fun hkf => hk.2 (hkf ▸ hnot (hkf ▸ hk.1))⟩
          · intro hk
            exact ⟨hk.1, hk.2.1⟩
        simp only [dropped, hset, List.foldl_append, List.foldl_cons, List.foldl_nil]
      · intro k
        rw [hsil k, List.mem_append, List.mem_singleton]
        constructor
        · intro hk
          refine ⟨hk.1, fun h => hk.2 ⟨h.1.elim id fun hkf => ?_, h.2⟩⟩
          rw [hkf]
          exact hnot (hkf ▸ h.2)
        · intro hk
          exact ⟨hk.1, fun h => hk.2 ⟨Or.inl h.1, h.2⟩⟩
  · simp [dropped]

/-- The controller after some functions have been told of a round. -/
def queued (c : Controller) (r : Remaps) (fs : List Fid) (m : Dict Fid ℕ) : Controller :=
  { c with
    remoteDrainInit := c.remoteDrainInit ∪ fs.toFinset
    remoteDrainQueue := fs.foldl (fun d f => d.set f r) c.remoteDrainQueue
    remapTiming := c.remapTiming ∪ fs.toFinset
    switch := { c.switch with remapCheck := m } }

/-- Exactly the functions of a round are told, besides those that were. -/
def Told (c : Controller) (fs : List Fid) (m : Dict Fid ℕ) : Prop :=
  ∀ k, k ∈ m.keys ↔ k ∈ fs ∨ k ∈ c.switch.remapCheck.keys

/-- **Telling the functions of a round.**  It fails at a function without a version, and at one that
is being told already. -/
theorem ends_queuePeers (r : Remaps) {fs : List Fid} (hn : fs.Nodup) (c : Controller) :
    Ends (fs.forM (queuePeer r)) c (fun _ c' => ∃ m, c' = c.queued r fs m ∧ Told c fs m)
      fun c' => ∃ ps f rest m, fs = ps ++ f :: rest ∧ c' = c.queued r (ps ++ [f]) m ∧
        (f ∉ c.allocVersion.keys ∨ f ∈ c.switch.remapCheck.keys) := by
  refine ends_forM (fun ps c' => ∃ m, c' = c.queued r ps m ∧ Told c ps m) ?_ fs [] c rfl
    ⟨c.switch.remapCheck, by simp [queued], by simp [Told]⟩
  intro ps f rest hfs c₁ h₁
  obtain ⟨m, rfl, htold⟩ := h₁
  have hunion : ∀ I : Finset Fid, insert f (I ∪ ps.toFinset) = I ∪ (ps ++ [f]).toFinset := by
    intro I
    ext k
    simp only [Finset.mem_insert, Finset.mem_union, List.mem_toFinset, List.mem_append,
      List.mem_singleton]
    tauto
  have hmod : { c.queued r ps m with
      remoteDrainInit := insert f (c.queued r ps m).remoteDrainInit
      remoteDrainQueue := (c.queued r ps m).remoteDrainQueue.set f r
      remapTiming := insert f (c.queued r ps m).remapTiming } = c.queued r (ps ++ [f]) m := by
    simp only [queued, hunion, List.foldl_append, List.foldl_cons, List.foldl_nil]
  have hnot : f ∉ ps := by
    rw [hfs] at hn
    exact fun hmem => List.disjoint_of_nodup_append hn hmem (List.mem_cons_self ..)
  unfold queuePeer
  refine ends_bind.2 (ends_modify.2 (ends_bind.2 (ends_get.2 ?_)))
  rw [hmod]
  cases hv : (c.queued r (ps ++ [f]) m).allocVersion.get? f with
  | none =>
      refine ends_throw.2 ⟨ps, f, rest, m, hfs, rfl, Or.inl fun hmem => ?_⟩
      obtain ⟨v, hv'⟩ := (Dict.mem_keys_iff _ _).1 hmem
      have hv : c.allocVersion.get? f = none := hv
      simp [hv] at hv'
  | some v =>
      refine ends_onSwitch.2 (ends_zoom.2 (Switch.ends_add ?_ ?_))
      · intro _
        refine ⟨m.set f v, rfl, fun k => ?_⟩
        rw [Dict.mem_keys_set, htold k, List.mem_append, List.mem_singleton]
        tauto
      · intro hmem
        refine ⟨ps, f, rest, m, hfs, rfl, Or.inr ?_⟩
        exact ((htold f).1 hmem).resolve_left hnot

/-! ### Departures -/

/-- **A departure**: the tables first, then the allocator. -/
theorem ends_deallocate {f : Fid} (hf : f ∈ c.active) :
    Ends (deallocate f) c
      (fun _ c' => (∃ sw, Switch.removeFunction f c.switch = .ok false sw ∧
          c' = { c with switch := sw }) ∨
        ∃ sw b s, Switch.removeFunction f c.switch = .ok true sw ∧
          Allocator.deallocate f c.allocator = .ok b s ∧
          c' = { c with switch := sw, allocator := s })
      fun c' => (∃ ex sw, Switch.removeFunction f c.switch = .error ex sw ∧
          c' = { c with switch := sw }) ∨
        ∃ sw ex s, Switch.removeFunction f c.switch = .ok true sw ∧
          Allocator.deallocate f c.allocator = .error ex s ∧
          c' = { c with switch := sw, allocator := s } := by
  unfold deallocate
  refine ends_bind.2 (ends_get.2 (ends_ite_pos hf (ends_bind.2 (ends_onSwitch.2 ?_))))
  refine ⟨fun b sw hsw => ?_, fun ex sw hsw => Or.inl ⟨ex, sw, hsw, rfl⟩⟩
  cases b with
  | false => exact ends_ite_neg (by decide) (ends_pure.2 (Or.inl ⟨sw, hsw, rfl⟩))
  | true =>
      refine ends_ite_pos rfl ?_
      refine ends_bind.2 (ends_onAllocator.2 ⟨fun b s hs => ?_, fun ex s hs => ?_⟩)
      · exact ends_pure.2 (Or.inr ⟨sw, b, s, hsw, hs, rfl⟩)
      · exact Or.inr ⟨sw, ex, s, hsw, hs, rfl⟩

/-! ### Arrivals -/

theorem activeFunction_fid {req : Request} {af : ActiveFunction}
    (h : activeFunction cfg req = .ok af) : af.fid = req.fid := by
  unfold activeFunction ActiveFunction.init at h
  split_ifs at h <;> (obtain rfl := Except.ok.inj h; rfl)

/-- The controller with an allocation in progress. -/
def started (c : Controller) (f : Fid) (d : Dict Fid Reply) (p : Dict Fid ActiveFunction)
    (s : Allocator) (i : Option Fid) : Controller :=
  { c with
    queue := c.queue ++ [f]
    allocTiming := insert f c.allocTiming
    switch := { c.switch with allocation := d }
    programDefs := p
    allocator := s
    remoteDrainInitiator := i }

/-- The controller after an allocation has been refused: the time stamp stays. -/
def refused (c : Controller) (f : Fid) (p : Dict Fid ActiveFunction) (s : Allocator) : Controller :=
  { c with allocTiming := insert f c.allocTiming, programDefs := p, allocator := s }

/-- An allocation is entered into the history. -/
def issuing (c : Controller) (f : Fid) (r : Remaps) : Controller :=
  { c with issued := c.issued ++ [(f, r)] }

/-- A round begins. -/
def awaiting (c : Controller) (r : Remaps) : Controller :=
  { c with remoteDrainStartTs := true, remaps := some r }

/-- **An allocation is queued**: a variant is chosen and its columns are computed. -/
inductive Issues (cfg : ControllerConfig) (req : Request) (c : Controller) (r : Remaps) :
    Controller → Prop
  | intro {af : ActiveFunction} {ch : Allocator.Choice} {s₁ s₂ : Allocator}
      {changes : Dict Fid (List (Stage × Stage × Bool))} {n : ℕ} {p : Dict Fid ActiveFunction}
      (hfun : activeFunction cfg req = .ok af)
      (hchoice : Allocator.computeAllocation cfg.allocator af c.allocator = .ok (some ch) s₁)
      (hqueue : Allocator.enqueueAllocation cfg.allocator ch.allocation ch.allocationMap s₁ =
        .ok (changes, r, n) s₂) :
      Issues cfg req c r ((c.started req.fid (c.switch.allocation.set req.fid .pending) p s₂
        (some req.fid)).issuing req.fid r)

/-- The allocator after an arrival that has failed: offsets, holes and registered functions. -/
def Touched (s : Allocator) (f : Fid) (t : Allocator) : Prop :=
  t = s ∨ ∃ d e fr, t = (s.marked f d).reshaped e fr ∧ ∀ k ≠ f, d.get? k = s.activeFuncs.get? k

/-- **How `allocate` returns**: refused, applied at once, or waiting for a round. -/
inductive AllocateReturns (cfg : ControllerConfig) (req : Request) (c : Controller) :
    Controller → Prop
  | refused {af : ActiveFunction} {o : Option Allocator.Choice} {s : Allocator}
      {p : Dict Fid ActiveFunction} (hfun : activeFunction cfg req = .ok af)
      (hchoice : Allocator.computeAllocation cfg.allocator af c.allocator = .ok o s) :
      AllocateReturns cfg req c (c.refused req.fid p s)
  | applied {r : Remaps} {c₁ : Controller} {plan : Plan} {sw : Switch} {v : Dict Fid ℕ}
      (hissue : Issues cfg req c r c₁) (hr : r.keys = []) (hm : c.mutex = false)
      (hplan : c₁.allocator.queue = some plan) (hren : Renewed c₁ req.fid sw v) :
      AllocateReturns cfg req c (c₁.completed plan req.fid r sw v)
  | waits {r : Remaps} {c₁ : Controller} {m : Dict Fid ℕ} (hissue : Issues cfg req c r c₁)
      (hr : r.keys ≠ []) (htold : Told c r.keys m) :
      AllocateReturns cfg req c ((c₁.awaiting r).queued r r.keys m)

/-- **How `allocate` ends with an exception**: before an allocation is queued, at a lock that is held,
while it is applied, or while a round is announced. -/
inductive AllocateRaises (cfg : ControllerConfig) (req : Request) (c : Controller) :
    Controller → Prop
  | early {d : Dict Fid Reply} {p : Dict Fid ActiveFunction} {s : Allocator} {i : Option Fid}
      (hs : Touched c.allocator req.fid s) (hi : i = c.remoteDrainInitiator ∨ i = some req.fid)
      (hd : ∀ k ∈ c.switch.allocation.keys, k ∈ d.keys) :
      AllocateRaises cfg req c (c.started req.fid d p s i)
  | blocked {r : Remaps} {c₁ : Controller} (hissue : Issues cfg req c r c₁) (hr : r.keys = [])
      (hm : c.mutex = true) : AllocateRaises cfg req c c₁
  | stuck {r : Remaps} {c₁ : Controller} {plan : Plan} {sw : Switch} {v : Dict Fid ℕ}
      (hissue : Issues cfg req c r c₁) (hr : r.keys = []) (hm : c.mutex = false)
      (hplan : c₁.allocator.queue = some plan) (hsw : sw.remapCheck = c.switch.remapCheck) :
      AllocateRaises cfg req c (c₁.stuck plan req.fid r sw v)
  | partway {r : Remaps} {c₁ : Controller} {ps rest : List Fid} {f : Fid} {m : Dict Fid ℕ}
      (hissue : Issues cfg req c r c₁) (hr : r.keys = ps ++ f :: rest)
      (hwhy : f ∉ c.allocVersion.keys ∨ f ∈ c.switch.remapCheck.keys) :
      AllocateRaises cfg req c ((c₁.awaiting r).queued r (ps ++ [f]) m)

/-- There is a remap for every function that changes. -/
theorem remapsFor_keys_eq_nil_iff {s : Allocator} {new : Stage → List ℕ} :
    (s.remapsFor new).keys = [] ↔ (s.computeChanges new).items = [] := by
  constructor
  · intro h
    refine List.eq_nil_iff_forall_not_mem.2 ?_
    rintro ⟨f, l⟩ hmem
    obtain ⟨hf, hne, -⟩ :=
      Allocator.get?_computeChanges.1 ((Dict.mem_items_iff _ _ _).1 hmem)
    have hkey : f ∈ (s.remapsFor new).keys :=
      (Dict.mem_keys_iff _ _).2 ⟨_, Allocator.get?_remapsFor.2 ⟨hf, hne, rfl⟩⟩
    simp [h] at hkey
  · intro h
    simp [Allocator.remapsFor, h, Dict.keys, Dict.empty]

/-- The queued allocation, and who has queued it. -/
theorem Issues.queue {req : Request} {r : Remaps} {c₁ : Controller} (h : Issues cfg req c r c₁) :
    ∃ plan, c₁.allocator.queue = some plan ∧ c₁.allocator.queueFid = some req.fid := by
  cases h with
  | intro hfun hchoice hqueue =>
      obtain ⟨d, hs₁, -⟩ := (Allocator.ends_computeAllocation _ _).1 _ _ hchoice
      obtain ⟨new, e, fr, -, -, -, hs₂⟩ := (Allocator.ends_enqueueAllocation _ _ _).1 _ _ hqueue
      refine ⟨_, by rw [issuing, started, hs₂], ?_⟩
      rw [issuing, started, hs₂, hs₁, ← activeFunction_fid hfun]
      rfl

/-- Before an allocation is queued, a refusal takes everything back but the time stamp. -/
theorem ends_refuse {f : Fid} (hq : f ∉ c.queue) (hd : f ∉ c.switch.allocation.keys)
    (p : Dict Fid ActiveFunction) (s : Allocator) {E : Controller → Prop} :
    Ends (refuse f) (c.started f (c.switch.allocation.set f .pending) p s c.remoteDrainInitiator)
      (fun _ c' => c' = c.refused f (p.erase f) s) E := by
  have hmem : f ∈ (c.switch.allocation.set f .pending).keys := by
    rw [Dict.mem_keys_set]
    exact Or.inl rfl
  unfold refuse leaveQueue
  refine ends_bind.2 (ends_onSwitch.2 (ends_zoom.2 (Switch.ends_delete ?_ fun h => absurd hmem h)))
  intro _
  have hinq : f ∈ c.queue ++ [f] := by simp
  refine ends_bind.2 (ends_bind.2 (ends_get.2 (ends_ite_pos hinq (ends_modify.2 (ends_modify.2 ?_)))))
  have herase : (c.queue ++ [f]).erase f = c.queue := by
    rw [List.erase_append_right _ hq]
    simp
  simp only [started, refused, herase, Dict.erase_set_of_notMem hd]

/-- A queued allocation is applied, or its round is announced. -/
theorem ends_startAllocation {req : Request} {af : ActiveFunction} {ch : Allocator.Choice}
    {s₁ : Allocator} (p : Dict Fid ActiveFunction) (hfun : activeFunction cfg req = .ok af)
    (hchoice : Allocator.computeAllocation cfg.allocator af c.allocator = .ok (some ch) s₁) :
    Ends (startAllocation cfg req.fid ch)
      (c.started req.fid (c.switch.allocation.set req.fid .pending) p s₁ c.remoteDrainInitiator)
      (fun _ => AllocateReturns cfg req c) (AllocateRaises cfg req c) := by
  unfold startAllocation
  refine ends_bind.2 (ends_onAllocator.2 ⟨fun x s₂ hx => ?_, fun ex s₂ hx => ?_⟩)
  · obtain ⟨changes, r, n⟩ := x
    refine ends_bind.2 (ends_modify.2 ?_)
    have hissue : Issues cfg req c r ((c.started req.fid
        (c.switch.allocation.set req.fid .pending) p s₂ (some req.fid)).issuing req.fid r) :=
      ⟨hfun, hchoice, hx⟩
    generalize hc₁ : (c.started req.fid (c.switch.allocation.set req.fid .pending) p s₂
      (some req.fid)).issuing req.fid r = c₁ at hissue
    have hkeys : changes.items.isEmpty = true ↔ r.keys = [] := by
      obtain ⟨new, e, fr, hch, hr, -, -⟩ := (Allocator.ends_enqueueAllocation _ _ _).1 _ _ hx
      have hch : changes = s₁.computeChanges new := hch
      have hr : r = s₁.remapsFor new := hr
      rw [List.isEmpty_iff, hch, hr, remapsFor_keys_eq_nil_iff]
    have hm : c₁.mutex = c.mutex := by rw [← hc₁]; rfl
    have hi : c₁.remoteDrainInitiator = some req.fid := by rw [← hc₁]; rfl
    suffices hrest : Ends (if changes.items.isEmpty = true then resumeAllocation cfg req.fid r
        else waitForPeers r) c₁ (fun _ => AllocateReturns cfg req c) (AllocateRaises cfg req c) by
      rw [← hc₁] at hrest
      exact hrest
    refine ends_ite (fun hempty => ?_) fun hne => ?_
    · by_cases hmut : c.mutex = true
      · refine (ends_resumeAllocation_idle req.fid r (Or.inl (hm.trans hmut))).mono ?_ ?_
        · intro _ c' h
          rw [hm, hmut] at h
          exact absurd h.2 (by decide)
        · intro c' h
          rw [h.1]
          exact .blocked hissue (hkeys.1 hempty) hmut
      · have hmut : c.mutex = false := by simpa using hmut
        obtain ⟨plan, hplan, hfid⟩ := hissue.queue
        refine (ends_resumeAllocation r (hm.trans hmut) (by rw [hi]; simp) hfid hplan ?_ ?_).mono
          ?_ ?_
        · rw [← hc₁]
          exact List.mem_append_right _ (List.mem_singleton_self _)
        · rw [← hc₁]
          exact Finset.mem_insert_self _ _
        · intro _ c' h
          obtain ⟨sw, v, rfl, hren⟩ := h
          exact .applied hissue (hkeys.1 hempty) hmut hplan hren
        · intro c' h
          obtain ⟨sw, v, rfl, hsw⟩ := h
          refine .stuck hissue (hkeys.1 hempty) hmut hplan ?_
          rw [hsw, ← hc₁]
          rfl
    · have hne : r.keys ≠ [] := fun h => hne (hkeys.2 h)
      unfold waitForPeers
      refine ends_bind.2 (ends_modify.2 ?_)
      refine (ends_queuePeers r r.nodup (c₁.awaiting r)).mono ?_ ?_
      · intro _ c' h
        obtain ⟨m, rfl, htold⟩ := h
        rw [← hc₁] at htold
        exact .waits hissue hne htold
      · intro c' h
        obtain ⟨ps, f, rest, m, hr, rfl, hwhy⟩ := h
        rw [← hc₁] at hwhy
        exact .partway hissue hr hwhy
  · obtain ⟨e, fr, rfl⟩ := (Allocator.ends_enqueueAllocation _ _ _).2 _ _ hx
    obtain ⟨d, rfl, hd⟩ := (Allocator.ends_computeAllocation _ _).1 _ _ hchoice
    rw [activeFunction_fid hfun] at hd ⊢
    refine .early (Or.inr ⟨d, e, fr, rfl, hd⟩) (Or.inl rfl) fun k hk => ?_
    rw [Dict.mem_keys_set]
    exact Or.inr hk

/-- **`allocate`**, for a function that is not in progress. -/
theorem ends_allocate {req : Request} (hq : req.fid ∉ c.queue) (ha : req.fid ∉ c.active) :
    Ends (allocate cfg req) c (fun _ => AllocateReturns cfg req c) (AllocateRaises cfg req c) := by
  unfold allocate beginAllocation
  refine ends_bind.2 (ends_get.2 (ends_bind.2 (ends_get.2 (ends_ite_neg (not_or.2 ⟨hq, ha⟩) ?_))))
  refine ends_bind.2 (ends_bind.2 (ends_modify.2 (ends_onSwitch.2 (ends_zoom.2
    (Switch.ends_add ?_ ?_)))))
  · intro hnew
    have hkeys : ∀ k ∈ c.switch.allocation.keys,
        k ∈ (c.switch.allocation.set req.fid .pending).keys := by
      intro k hk
      rw [Dict.mem_keys_set]
      exact Or.inr hk
    cases hfun : activeFunction cfg req with
    | error ex => exact ends_throw.2 (.early (p := c.programDefs) (Or.inl rfl) (Or.inl rfl) hkeys)
    | ok af =>
        dsimp only
        refine ends_bind.2 (ends_modify.2 (ends_bind.2 (ends_onAllocator.2 ⟨fun o s hs => ?_,
          fun ex s hs => ?_⟩)))
        · obtain ⟨d, hsd, hd⟩ := (Allocator.ends_computeAllocation _ _).1 _ _ hs
          rw [activeFunction_fid hfun] at hsd hd
          have hback : Ends (refuse req.fid) (c.started req.fid
              (c.switch.allocation.set req.fid .pending) (c.programDefs.set req.fid af) s
              c.remoteDrainInitiator) (fun _ => AllocateReturns cfg req c)
              (AllocateRaises cfg req c) := by
            refine (ends_refuse hq hnew _ s).mono ?_ fun _ h => h
            intro _ c' h
            rw [h]
            exact .refused hfun hs
          cases o with
          | none => exact hback
          | some ch =>
              refine ends_ite (fun _ => ends_startAllocation _ hfun hs) fun _ => ?_
              refine ends_ite (fun _ => hback) fun _ => ?_
              refine ends_bind.2 (ends_modify.2 (ends_throw.2 ?_))
              exact .early (p := c.programDefs.set req.fid af)
                (Or.inr ⟨d, s.elasticOffset, s.fragmentation, by rw [hsd]; rfl, hd⟩) (Or.inr rfl)
                hkeys
        · obtain ⟨d, hsd, hd⟩ := (Allocator.ends_computeAllocation _ _).2 _ _ hs
          rw [activeFunction_fid hfun] at hsd hd
          exact .early (p := c.programDefs.set req.fid af)
            (Or.inr ⟨d, s.elasticOffset, s.fragmentation, by rw [hsd]; rfl, hd⟩) (Or.inl rfl) hkeys
  · intro _
    exact .early (p := c.programDefs) (s := c.allocator) (d := c.switch.allocation) (Or.inl rfl)
      (Or.inl rfl) fun k hk => hk

end Controller

end ActiveRmt
