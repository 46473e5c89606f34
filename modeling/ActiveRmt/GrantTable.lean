/-
**Who may access which blocks.**

The entries of the memory instructions are a table of grants in disguise: at each stage a function may
access the addresses of some blocks, or none at all.  The controller changes the entries one by one; seen
as grants, a removal takes the grant of one function at one stage back, and an installation gives it one.

Main definitions:

* `GrantTable`, `GrantTable.put`, `GrantTable.puts`, `GrantTable.revoke` — the grants, and their changes;
* `Switch.Represents` — **the memory entries of the tables are those of the grants**;
* `Switch.grantsOf` — the grants of the functions that are remapped.

Main results:

* `Switch.ends_removeMemoryAccessEntries`, `Switch.ends_installMemoryAccessEntries` — neither can fail, the
  second where there is no grant;
* `Switch.ends_updateMemoryAccess` — **the grants after some functions have moved**;
* `Switch.ends_installAllocation`, `Switch.ends_removeFunction` — a new function, and a departing one.
-/

import ActiveRmt.TableMirror
import ActiveRmt.Doubles

set_option relaxedAutoImplicit false
set_option autoImplicit false

namespace ActiveRmt

/-! ### Grants -/

/-- **Who may access which blocks**, at each stage. -/
abbrev GrantTable := Stage → Fid → Option (List ℕ)

namespace GrantTable

/-- One grant is another. -/
def put (g : GrantTable) (i : Stage) (f : Fid) (o : Option (List ℕ)) : GrantTable :=
  Function.update g i (Function.update (g i) f o)

/-- Some grants are others, one after the other. -/
def puts (g : GrantTable) (l : List (Stage × Fid × Option (List ℕ))) : GrantTable :=
  l.foldl (fun g p => g.put p.1 p.2.1 p.2.2) g

/-- A function loses all its grants. -/
def revoke (g : GrantTable) (f : Fid) : GrantTable := fun i => Function.update (g i) f none

variable {g : GrantTable} {i j : Stage} {f h : Fid} {o o' : Option (List ℕ)}

theorem put_apply : g.put i f o j h = if j = i ∧ h = f then o else g j h := by
  unfold put
  by_cases hj : j = i
  · subst hj
    rw [Function.update_self, Function.update_apply]
    simp only [true_and]
  · rw [Function.update_of_ne hj, if_neg fun hand => hj hand.1]

@[simp] theorem put_put : (g.put i f o).put i f o' = g.put i f o' := by
  funext j h
  simp only [put_apply]
  split_ifs <;> rfl

theorem revoke_apply : g.revoke f i h = if h = f then none else g i h := by
  rw [revoke, Function.update_apply]

@[simp] theorem puts_nil : g.puts [] = g := rfl

theorem puts_append (l l' : List (Stage × Fid × Option (List ℕ))) :
    g.puts (l ++ l') = (g.puts l).puts l' := List.foldl_append

theorem puts_snoc (l : List (Stage × Fid × Option (List ℕ))) (p : Stage × Fid × Option (List ℕ)) :
    g.puts (l ++ [p]) = (g.puts l).put p.1 p.2.1 p.2.2 := by
  rw [puts_append]
  rfl

/-- The other grants are as they were. -/
theorem puts_of_forall_ne {l : List (Stage × Fid × Option (List ℕ))}
    (hl : ∀ p ∈ l, ¬(p.1 = i ∧ p.2.1 = f)) : g.puts l i f = g i f := by
  induction l using List.reverseRecOn with
  | nil => rfl
  | append_singleton l p ih =>
      have hp := hl p (List.mem_append_right _ (List.mem_singleton_self p))
      rw [puts_snoc, put_apply, if_neg fun hand => hp ⟨hand.1.symm, hand.2.symm⟩]
      exact ih fun q hq => hl q (List.mem_append_left _ hq)

/-- Grants that depend on the stage and the function only. -/
theorem puts_apply (new : GrantTable) {l : List (Stage × Fid × Option (List ℕ))}
    (hl : ∀ p ∈ l, p.2.2 = new p.1 p.2.1) :
    g.puts l i f = if ∃ p ∈ l, p.1 = i ∧ p.2.1 = f then new i f else g i f := by
  split_ifs with hmem
  · induction l using List.reverseRecOn with
    | nil =>
        obtain ⟨p, hp, -⟩ := hmem
        exact absurd hp List.not_mem_nil
    | append_singleton l p ih =>
        rw [puts_snoc, put_apply]
        split_ifs with heq
        · rw [hl p (List.mem_append_right _ (List.mem_singleton_self p)), heq.1, heq.2]
        · refine ih (fun q hq => hl q (List.mem_append_left _ hq)) ?_
          obtain ⟨q, hq, hqi, hqf⟩ := hmem
          rcases List.mem_append.1 hq with hq | hq
          · exact ⟨q, hq, hqi, hqf⟩
          · rw [List.mem_singleton.1 hq] at hqi hqf
            exact absurd ⟨hqi.symm, hqf.symm⟩ heq
  · exact puts_of_forall_ne fun p hp hand => hmem ⟨p, hp, hand⟩

end GrantTable

/-! ### The entries of the grants -/

namespace Switch

variable {bs : ℚ} {sw sw' : Switch} {g g' : GrantTable} {i : Stage} {f : Fid} {blocks : List ℕ}
  {e : EntryKey × BoundAction}

/-- An entry of a memory instruction is for one function. -/
theorem fields_of_mem_memoryEntries (he : e ∈ memoryEntries bs f blocks) :
    e.1.opcode ∈ opcodesMemaccess ∧ e.1.fidStart = f ∧ e.1.fidEnd = f := by
  obtain ⟨act, hact, he⟩ := List.mem_flatMap.1 he
  obtain ⟨hstart, hend, hop, -⟩ := fields_of_mem_entriesOf he
  rw [if_pos (mem_memoryInstructions hact).2] at hstart hend
  exact ⟨hop ▸ List.mem_map_of_mem hact, hstart, hend⟩

/-- It is one of the memory access of its function, and of no other. -/
theorem isMemaccess_iff (he : e ∈ memoryEntries bs f blocks) (h : Fid) :
    isMemaccess h e.1 = true ↔ h = f := by
  obtain ⟨hop, hstart, hend⟩ := fields_of_mem_memoryEntries he
  simp only [isMemaccess, validFid, hop, hstart, hend, Bool.and_eq_true, decide_eq_true_eq, and_true]
  exact ⟨fun hle => le_antisymm hle.2 hle.1, fun hf => ⟨hf.ge, hf.le⟩⟩

/-- The entry of a grant. -/
def GrantEntry (bs : ℚ) (g : GrantTable) (i : Stage) (e : EntryKey × BoundAction) : Prop :=
  ∃ f blocks, g i f = some blocks ∧ e ∈ memoryEntries bs f blocks

/-- **The memory entries of the tables are those of the grants.** -/
structure Represents (bs : ℚ) (sw : Switch) (g : GrantTable) : Prop extends Kept sw where
  /-- Those of a stage. -/
  memory : ∀ i e, (e ∈ (sw.instruction i).items ∧ e.1.opcode ∈ opcodesMemaccess) ↔ GrantEntry bs g i e

/-- At the beginning there are no grants. -/
theorem represents_init (bs : ℚ) : Represents bs init fun _ _ => none := by
  refine ⟨kept_init, fun i e => ⟨fun ⟨he, hop⟩ => ?_, fun ⟨f, blocks, hg, _⟩ => ?_⟩⟩
  · exact absurd hop (opcode_of_common he).1
  · exact absurd hg (Option.some_ne_none blocks).symm

theorem Represents.congr (h : Represents bs sw g) (hsw : programs sw' = programs sw) :
    Represents bs sw' g := by
  obtain ⟨hi, -⟩ := Prod.mk.inj hsw
  refine ⟨h.toKept.congr hsw, ?_⟩
  rw [hi]
  exact h.memory

/-- One table and its list are others. -/
theorem Represents.restock {items : List (EntryKey × BoundAction)} (h : Represents bs sw g)
    (hre : Restocks i items sw sw') (hkept : Kept sw')
    (hitems : ∀ e, (e ∈ items ∧ e.1.opcode ∈ opcodesMemaccess) ↔ GrantEntry bs g' i e)
    (hg : ∀ j ≠ i, g' j = g j) : Represents bs sw' g' := by
  refine ⟨hkept, fun j e => ?_⟩
  by_cases hj : j = i
  · subst hj
    rw [hre.items_eq]
    exact hitems e
  · unfold GrantEntry
    rw [hre.instruction_ne j hj, hg j hj]
    exact h.memory j e

/-! ### Memory access -/

/-- **The memory access of a function is removed**, which never fails. -/
theorem ends_removeMemoryAccessEntries (h : Represents bs sw g) (i : Stage) (f : Fid) :
    Ends (removeMemoryAccessEntries i f) sw (fun _ sw' => Represents bs sw' (g.put i f none))
      fun _ => False := by
  have hkept := upholds_removeEntries (isMemaccess_of_common f) i sw h.toKept
  refine (Ends.and hkept (ends_removeEntries h.mirrored (isMemaccess f) i)).mono ?_ fun _ hE => hE.2
  rintro _ sw' ⟨hkept, hre⟩
  refine h.restock hre hkept (fun e => ?_) fun j hj => ?_
  · rw [List.mem_filter, Bool.not_eq_true']
    constructor
    · rintro ⟨⟨he, hnot⟩, hop⟩
      obtain ⟨f', blocks, hg, he⟩ := (h.memory i e).1 ⟨he, hop⟩
      have hne : f' ≠ f := fun heq => by
        rw [(isMemaccess_iff he f).2 heq.symm] at hnot
        exact Bool.noConfusion hnot
      exact ⟨f', blocks, by rwa [GrantTable.put_apply, if_neg fun hand => hne hand.2], he⟩
    · rintro ⟨f', blocks, hg, he⟩
      rw [GrantTable.put_apply] at hg
      split_ifs at hg with hand
      obtain ⟨hmem, hop⟩ := (h.memory i e).2 ⟨f', blocks, hg, he⟩
      refine ⟨⟨hmem, Bool.eq_false_iff.2 fun his => ?_⟩, hop⟩
      exact hand ⟨rfl, ((isMemaccess_iff he f).1 his).symm⟩
  · funext k
    rw [GrantTable.put_apply, if_neg fun hand => hj hand.1]

/-- Entries that are new are added to the table and to the list, one after the other. -/
theorem ends_addEntries (hsw : Kept sw) {entries : List (EntryKey × BoundAction)}
    (hfun : ∀ e ∈ entries, ForFunction e) (hnodup : (entries.map Prod.fst).Nodup)
    (hnew : ∀ e ∈ entries, e.1 ∉ (sw.instruction i).keys) :
    Ends (entries.forM (addEntry i)) sw
      (fun _ sw' => Restocks i ((sw.instruction i).items ++ entries) sw sw' ∧ Kept sw') fun _ => False := by
  refine ends_forM (fun done t => Restocks i ((sw.instruction i).items ++ done) sw t ∧ Kept t)
    (fun done e rest hsplit t ht => ?_) entries [] sw rfl
    ⟨⟨(List.append_nil _).symm, by rw [hsw.mirrored, Dict.keys, List.append_nil], fun _ _ => rfl,
      fun _ _ => rfl⟩, hsw⟩
  obtain ⟨hre, hkept⟩ := ht
  have he : e ∈ entries := hsplit ▸ List.mem_append_right _ List.mem_cons_self
  have hfresh : e.1 ∉ (t.instruction i).keys := by
    rw [Dict.keys, hre.items_eq, List.map_append, List.mem_append, not_or]
    refine ⟨hnew e he, fun hmem => ?_⟩
    rw [hsplit, List.map_append, List.map_cons] at hnodup
    exact List.disjoint_of_nodup_append hnodup hmem List.mem_cons_self
  refine (Ends.and (upholds_addEntry i (hfun e he) t hkept) (ends_addEntry hkept.mirrored e)).mono ?_
    fun _ hE => hfresh hE.2.2
  rintro _ t' ⟨hkept', hre', -⟩
  refine ⟨⟨?_, ?_, fun j hj => ?_, fun j hj => ?_⟩, hkept'⟩
  · rw [hre'.items_eq, hre.items_eq, List.append_assoc]
  · rw [hre'.params_eq, hre.items_eq, List.append_assoc]
  · rw [hre'.instruction_ne j hj, hre.instruction_ne j hj]
  · rw [hre'.params_ne j hj, hre.params_ne j hj]

/-- **The memory access of a function without a grant is installed**, which never fails. -/
theorem ends_installMemoryAccessEntries (h : Represents bs sw g) (hnone : g i f = none)
    (blocks : List ℕ) :
    Ends (installMemoryAccessEntries bs i f blocks) sw
      (fun _ sw' => Represents bs sw' (g.put i f (some blocks))) fun _ => False := by
  have hnew : ∀ e ∈ memoryEntries bs f blocks, e.1 ∉ (sw.instruction i).keys := by
    intro e he hmem
    obtain ⟨e', he', heq⟩ := List.mem_map.1 hmem
    obtain ⟨hop, hstart, -⟩ := fields_of_mem_memoryEntries he
    obtain ⟨f', blocks', hg, hgrant⟩ := (h.memory i e').1 ⟨he', heq ▸ hop⟩
    have hsame : f' = f := by
      rw [← (fields_of_mem_memoryEntries hgrant).2.1, heq, hstart]
    rw [hsame, hnone] at hg
    exact absurd hg (Option.some_ne_none blocks').symm
  refine (ends_addEntries h.toKept (fun e he => forFunction_of_memoryEntries he)
    (nodup_tenantEntries (f, getMemoryRange bs blocks)) hnew).mono ?_ fun _ hE => hE
  rintro _ sw' ⟨hre, hkept⟩
  refine h.restock hre hkept (fun e => ?_) fun j hj => ?_
  · constructor
    · rintro ⟨he, hop⟩
      rcases List.mem_append.1 he with he | he
      · obtain ⟨f', blocks', hg, he⟩ := (h.memory i e).1 ⟨he, hop⟩
        refine ⟨f', blocks', ?_, he⟩
        rw [GrantTable.put_apply, if_neg, hg]
        rintro ⟨-, rfl⟩
        exact absurd (hnone.symm.trans hg) (Option.some_ne_none blocks').symm
      · exact ⟨f, blocks, by rw [GrantTable.put_apply, if_pos ⟨rfl, rfl⟩], he⟩
    · rintro ⟨f', blocks', hg, he⟩
      rw [GrantTable.put_apply] at hg
      split_ifs at hg with hand
      · obtain ⟨-, rfl⟩ := hand
        obtain rfl := Option.some.inj hg
        exact ⟨List.mem_append_right _ he, (fields_of_mem_memoryEntries he).1⟩
      · exact ((h.memory i e).2 ⟨f', blocks', hg, he⟩).imp_left (List.mem_append_left _)
  · funext k
    rw [GrantTable.put_apply, if_neg fun hand => hj hand.1]

/-- The memory access of a function that moves is replaced. -/
theorem ends_remapMemoryAccess (h : Represents bs sw g) (i : Stage) (f : Fid) (newAlloc : List ℕ) :
    Ends (remapMemoryAccess bs i f newAlloc) sw
      (fun _ sw' => Represents bs sw' (g.put i f (some newAlloc))) fun _ => False := by
  refine ends_bind.2 ((ends_removeMemoryAccessEntries h i f).mono ?_ fun _ hE => hE)
  rintro _ sw₁ h₁
  have hnone : g.put i f none i f = none := by rw [GrantTable.put_apply, if_pos ⟨rfl, rfl⟩]
  refine (ends_installMemoryAccessEntries h₁ hnone newAlloc).mono ?_ fun _ hE => hE
  rintro _ sw₂ h₂
  rwa [GrantTable.put_put] at h₂

/-- The grants of the functions that are remapped at a stage. -/
def stageGrants (p : Stage × List (Fid × Allocator.Remap)) : List (Stage × Fid × Option (List ℕ)) :=
  p.2.map fun q => (p.1, q.1, some q.2.newAlloc)

/-- The grants of the functions that are remapped. -/
def grantsOf (remapped : Dict Stage (List (Fid × Allocator.Remap))) :
    List (Stage × Fid × Option (List ℕ)) :=
  remapped.items.flatMap stageGrants

/-- **The grants after some functions have moved.** -/
theorem ends_updateMemoryAccess (h : Represents bs sw g)
    (remapped : Dict Stage (List (Fid × Allocator.Remap))) :
    Ends (updateMemoryAccess bs remapped) sw
      (fun _ sw' => Represents bs sw' (g.puts (grantsOf remapped))) fun _ => False := by
  refine ends_forM (fun done t => Represents bs t (g.puts (done.flatMap stageGrants))) ?_ _ [] sw rfl h
  rintro done p rest - t ht
  rw [List.flatMap_append, List.flatMap_singleton, GrantTable.puts_append]
  refine ends_forM (fun done t' => Represents bs t' (GrantTable.puts _ (stageGrants (p.1, done)))) ?_
    p.2 [] t rfl ht
  rintro done q rest - t' ht'
  have hsnoc : stageGrants (p.1, done ++ [q]) =
      stageGrants (p.1, done) ++ [(p.1, q.1, some q.2.newAlloc)] := List.map_append
  rw [hsnoc, GrantTable.puts_snoc]
  exact ends_remapMemoryAccess ht' p.1 q.1 q.2.newAlloc

/-! ### Address translation -/

/-- A memory instruction is no address translation. -/
theorem notMem_opcodesMemaccess {opcode : ℕ} (h : opcode ∈ opcodesVaddr) :
    opcode ∉ opcodesMemaccess := by
  have hall : ∀ n ∈ opcodesVaddr, n ∉ opcodesMemaccess := by decide +kernel
  exact hall opcode h

/-- Removing address translations leaves the grants as they are, and never fails. -/
theorem ends_removeVaddr (h : Represents bs sw g) (f : Fid) (i : Stage) :
    Ends (removeEntries (isVaddr f) i) sw (fun _ sw' => Represents bs sw' g) fun _ => False := by
  have hkept := upholds_removeEntries (isVaddr_of_common f) i sw h.toKept
  refine (Ends.and hkept (ends_removeEntries h.mirrored (isVaddr f) i)).mono ?_ fun _ hE => hE.2
  rintro _ sw' ⟨hkept, hre⟩
  refine h.restock hre hkept (fun e => ?_) fun _ _ => rfl
  rw [← h.memory i e, List.mem_filter, Bool.not_eq_true']
  refine ⟨fun ⟨⟨he, _⟩, hop⟩ => ⟨he, hop⟩, fun ⟨he, hop⟩ => ⟨⟨he, Bool.eq_false_iff.2 fun his => ?_⟩, hop⟩⟩
  rw [isVaddr, Bool.and_eq_true, decide_eq_true_eq] at his
  exact notMem_opcodesMemaccess his.2 hop

theorem upholds_addVaddr (i : Stage) {allocation : Dict Stage (List ℕ)} {act : Instruction}
    (hact : act ∈ instructionSet.filter (·.vaddr)) (he : e ∈ vaddrEntries bs f allocation act) :
    Upholds (fun sw => Represents bs sw g) (addEntry i e) := by
  intro sw h
  have hop : e.1.opcode ∉ opcodesMemaccess := by
    rw [opcode_of_mem_vaddrEntries he]
    exact notMem_opcodesMemaccess (List.mem_map_of_mem hact)
  have hkept := upholds_addEntry i (.inr ⟨bs, f, allocation, act, hact, he⟩) sw h.toKept
  refine (Ends.and hkept (ends_addEntry h.mirrored e)).mono ?_ fun sw' hE => by rw [hE.2.1]; exact h
  rintro _ sw' ⟨hkept, hre, -⟩
  refine h.restock hre hkept (fun e' => ?_) fun _ _ => rfl
  rw [← h.memory i e', List.mem_append, List.mem_singleton]
  refine ⟨fun ⟨he', hop'⟩ => ⟨he'.resolve_right fun heq => hop (heq ▸ hop'), hop'⟩,
    fun ⟨he', hop'⟩ => ⟨.inl he', hop'⟩⟩

theorem ends_removeVaddrEntries (h : Represents bs sw g) (f : Fid) :
    Ends (removeVaddrEntries f) sw (fun _ sw' => Represents bs sw' g) fun _ => False :=
  ends_forM_const (fun sw => Represents bs sw g) (fun i _ _ ht => ends_removeVaddr ht f i) h

theorem upholds_installVaddr (v : Bool) (f : Fid) (allocation : Dict Stage (List ℕ)) :
    Upholds (fun sw => Represents bs sw g) (installVirtualAddressEntries bs v f allocation) := by
  unfold installVirtualAddressEntries
  refine Upholds.ite (Upholds.forM fun i _ => Upholds.forM fun e he => ?_) Upholds.pure
  obtain ⟨act, hact, he⟩ := List.mem_flatMap.1 he
  exact upholds_addVaddr i hact he

/-- **The address translations of the functions that move.** -/
theorem upholds_updateVaddr (v : Bool) (remapped : Dict Stage (List (Fid × Allocator.Remap))) :
    Upholds (fun sw => Represents bs sw g) (updateVaddr bs v remapped) :=
  Upholds.forM fun p _ => Upholds.bind
    (fun _ h => (ends_removeVaddrEntries h p.1).mono (fun _ _ ht => ht) fun _ hE => hE.elim)
    fun _ => upholds_installVaddr v p.1 p.2

/-- What does not touch the instruction tables leaves the grants as they are. -/
theorem upholds_represents {α : Type} {x : EStateM Exn Switch α} (hx : Leaves programs x) :
    Upholds (fun sw => Represents bs sw g) x := fun sw h =>
  (hx sw).mono (fun _ _ ht => h.congr ht) fun _ ht => h.congr ht

/-! ### Arrivals and departures -/

/-- The grants of a new function. -/
def newGrants (f : Fid) (items : List (Stage × List ℕ)) : List (Stage × Fid × Option (List ℕ)) :=
  items.map fun p => (p.1, f, some p.2)

/-- **A new function** is granted its blocks. -/
theorem ends_installAllocation (h : Represents bs sw g) (v : Bool) (hnone : ∀ i, g i f = none)
    (allocation : Dict Stage (List ℕ)) :
    Ends (installAllocation bs v f allocation) sw
      (fun _ sw' => Represents bs sw' (g.puts (newGrants f allocation.items))) fun _ => True := by
  refine ends_bind.2 (Ends.mono (ends_forM (E := fun _ => False)
    (fun done t => Represents bs t (g.puts (newGrants f done))) ?_ allocation.items [] sw rfl h) ?_
    fun _ _ => trivial)
  · rintro done ⟨i, blocks⟩ rest hsplit t ht
    have hsnoc : newGrants f (done ++ [(i, blocks)]) = newGrants f done ++ [(i, f, some blocks)] :=
      List.map_append
    rw [hsnoc, GrantTable.puts_snoc]
    refine ends_installMemoryAccessEntries ht ?_ blocks
    -- a stage has one list of blocks
    rw [GrantTable.puts_of_forall_ne, hnone]
    rintro p hp ⟨rfl, -⟩
    obtain ⟨q, hq, rfl⟩ := List.mem_map.1 hp
    have hnodup := allocation.nodup
    rw [show allocation.items = done ++ (q.1, blocks) :: rest from hsplit, List.map_append,
      List.map_cons] at hnodup
    exact List.disjoint_of_nodup_append hnodup (List.mem_map_of_mem hq) List.mem_cons_self
  · rintro _ t ht
    refine ends_bind.2 ((upholds_installVaddr v f allocation t ht).mono ?_ fun _ _ => trivial)
    rintro _ t' ht'
    refine (Upholds.forM (P := fun sw => Represents bs sw _) (fun k _ => upholds_represents ?_) t' ht').mono
      (fun _ _ h => h) fun _ _ => trivial
    exact leaves_part (leaves_changeAllocations k _) Prod.snd

/-- The grants that are taken back from a departing function. -/
def noGrants (f : Fid) (l : List Stage) : List (Stage × Fid × Option (List ℕ)) :=
  l.map fun i => (i, f, none)

/-- Nothing is left when they are taken back at every stage. -/
theorem puts_noGrants {l : List Stage} (hl : ∀ i, i ∈ l) : g.puts (noGrants f l) = g.revoke f := by
  funext i h
  rw [GrantTable.puts_apply (fun _ _ => none) fun p hp => ?_, GrantTable.revoke_apply]
  rotate_left
  · obtain ⟨j, -, rfl⟩ := List.mem_map.1 hp
    rfl
  refine if_congr ⟨?_, ?_⟩ rfl rfl
  · rintro ⟨p, hp, -, rfl⟩
    obtain ⟨j, -, rfl⟩ := List.mem_map.1 hp
    rfl
  · rintro rfl
    exact ⟨(i, h, none), List.mem_map_of_mem (hl i), rfl, rfl⟩

/-- The entries of some stages are removed, with something else that leaves the tables alone. -/
theorem ends_removeAt (h : Represents bs sw g) (f : Fid) (stage : GressStage → Stage)
    {x : GressStage → EStateM Exn Switch Unit} (hx : ∀ k sw, Ends (x k) sw
      (fun _ sw' => programs sw' = programs sw ∧ sw'.quotaRecirc = sw.quotaRecirc) fun _ => False) :
    Ends ((List.finRange 10).forM fun k => do removeMemoryAccessEntries (stage k) f; x k) sw
      (fun _ sw' => Represents bs sw' (g.puts (noGrants f ((List.finRange 10).map stage))) ∧
        sw'.quotaRecirc = sw.quotaRecirc) fun _ => False := by
  refine ends_forM (fun done t => Represents bs t (g.puts (noGrants f (done.map stage))) ∧
    t.quotaRecirc = sw.quotaRecirc) ?_ _ [] sw rfl ⟨h, rfl⟩
  rintro done k rest - t ⟨ht, hquota⟩
  have hsnoc : noGrants f ((done ++ [k]).map stage) =
      noGrants f (done.map stage) ++ [(stage k, f, none)] := by
    rw [List.map_append]
    exact List.map_append
  rw [hsnoc, GrantTable.puts_snoc]
  have hleaves := leaves_part (leaves_removeEntries (isMemaccess f) (stage k)) fun r => r.1.2.2
  refine ends_bind.2 ((Ends.and (ends_removeMemoryAccessEntries ht (stage k) f) (hleaves t)).mono ?_
    fun _ hE => hE.1)
  rintro _ t₁ ⟨h₁, hquota₁⟩
  refine (hx k t₁).mono ?_ fun _ hE => hE
  rintro _ t₂ ⟨hprograms, hquota₂⟩
  exact ⟨h₁.congr hprograms, hquota₂.trans (hquota₁.trans hquota)⟩

/-- **A departing function** loses its grants, and only a missing quota is an error. -/
theorem ends_removeFunction_grants (h : Represents bs sw g) (f : Fid) :
    Ends (removeFunction f) sw (fun _ sw' => Represents bs sw' (g.revoke f))
      fun sw' => f ∉ sw.quotaRecirc.keys ∧ Represents bs sw' (g.revoke f) := by
  have hleaves : Leaves (fun sw : Switch => sw.quotaRecirc) (removeVaddrEntries f) :=
    Leaves.forM fun i _ => leaves_part (leaves_removeEntries (isVaddr f) i) fun r => r.1.2.2
  refine ends_bind.2 ((Ends.and (ends_removeVaddrEntries h f) (hleaves sw)).mono ?_ fun _ hE => hE.1.elim)
  rintro _ t₁ ⟨h₁, hquota₁⟩
  have hegress := ends_removeAt h₁ f egress (x := fun _ => pure ()) fun _ _ => ends_pure.2 ⟨rfl, rfl⟩
  simp only [bind_pure_unit] at hegress
  refine ends_bind.2 (hegress.mono ?_ fun _ hE => hE.elim)
  rintro _ t₂ ⟨h₂, hquota₂⟩
  have hingress := ends_removeAt h₂ f ingress (x := fun k => changeAllocations k fun d => .ok (d.erase f))
    fun _ _ => ends_zoom.2 (ends_of_ok rfl ⟨rfl, rfl⟩)
  refine ends_bind.2 (hingress.mono ?_ fun _ hE => hE.elim)
  rintro _ t₃ ⟨h₃, hquota₃⟩
  have hall : ∀ i : Stage, i ∈ (List.finRange 10).map egress ++ (List.finRange 10).map ingress := by decide
  have hrevoke : Represents bs t₃ (g.revoke f) := by
    rw [← puts_noGrants hall, noGrants, List.map_append, GrantTable.puts_append]
    exact h₃
  refine ends_bind.2 (ends_get.2 (ends_ite (fun _ => ends_pure.2 hrevoke) fun _ => ?_))
  refine ends_bind.2 (ends_zoom.2 (ends_of_ok rfl ?_))
  refine ends_bind.2 (ends_zoom.2 (ends_delete (fun _ => ends_pure.2 (hrevoke.congr rfl)) fun hmem => ?_))
  refine ⟨?_, hrevoke.congr rfl⟩
  rwa [← show t₁.quotaRecirc = sw.quotaRecirc from hquota₁, ← hquota₂, ← hquota₃]

/-! ### Remaps -/

/-- A list of pairs, sorted by the first component. -/
theorem mem_foldl_snoc {κ α : Type} [DecidableEq κ] {l : List (κ × α)} {d : Dict κ (List α)} {k : κ} {x : α} :
    (∃ xs, (l.foldl (fun d p => d.set p.1 ((d.get? p.1).getD [] ++ [p.2])) d).get? k = some xs ∧ x ∈ xs) ↔
      (∃ xs, d.get? k = some xs ∧ x ∈ xs) ∨ (k, x) ∈ l := by
  induction l generalizing d with
  | nil => simp
  | cons p l ih =>
      rw [List.foldl_cons, ih, List.mem_cons, ← or_assoc]
      refine or_congr ?_ Iff.rfl
      rw [Dict.get?_set]
      by_cases hk : k = p.1
      · subst hk
        rw [if_pos rfl]
        simp only [Option.some.injEq, exists_eq_left', List.mem_append, List.mem_singleton]
        refine or_congr ?_ ?_
        · cases d.get? p.1 <;> simp
        · rw [Prod.ext_iff]
          simp
      · rw [if_neg hk]
        refine (or_iff_left fun heq => hk ?_).symm
        exact congrArg Prod.fst heq

/-- The remaps of a stage. -/
theorem mem_remappedStages {remaps : Allocator.Remaps} {q : Fid × Allocator.Remap} :
    (∃ l, (remappedStages remaps).get? i = some l ∧ q ∈ l) ↔
      ∃ l, remaps.get? q.1 = some l ∧ q.2 ∈ l ∧ q.2.fromStage = i := by
  have hfold : remappedStages remaps = (remaps.items.flatMap fun p => p.2.map fun r =>
      (r.fromStage, (p.1, r))).foldl (fun d p => d.set p.1 ((d.get? p.1).getD [] ++ [p.2])) Dict.empty := by
    rw [List.foldl_flatMap]
    simp only [List.foldl_map]
    rfl
  rw [hfold, mem_foldl_snoc]
  simp only [Dict.get?_empty, reduceCtorEq, false_and, exists_false, false_or, List.mem_flatMap,
    List.mem_map, Prod.mk.injEq]
  constructor
  · rintro ⟨p, hp, r, hr, rfl, rfl⟩
    exact ⟨p.2, (Dict.mem_items_iff _ _ _).1 hp, hr, rfl⟩
  · rintro ⟨l, hl, hq, hi⟩
    exact ⟨(q.1, l), (Dict.mem_items_iff _ _ _).2 hl, q.2, hq, hi, rfl⟩

/-- **The grants of the functions that are remapped** are those of their remaps. -/
theorem mem_grantsOf {remaps : Allocator.Remaps} {p : Stage × Fid × Option (List ℕ)} :
    p ∈ grantsOf (remappedStages remaps) ↔ ∃ l, remaps.get? p.2.1 = some l ∧
      ∃ r ∈ l, r.fromStage = p.1 ∧ p.2.2 = some r.newAlloc := by
  rw [grantsOf, List.mem_flatMap]
  constructor
  · rintro ⟨⟨i, l⟩, hl, hp⟩
    obtain ⟨q, hq, rfl⟩ := List.mem_map.1 hp
    obtain ⟨rs, hrs, hr, hi⟩ := mem_remappedStages.1 ⟨l, (Dict.mem_items_iff _ _ _).1 hl, hq⟩
    exact ⟨rs, hrs, q.2, hr, hi, rfl⟩
  · rintro ⟨rs, hrs, r, hr, hi, hblocks⟩
    obtain ⟨l, hl, hq⟩ := (mem_remappedStages (q := (p.2.1, r))).2 ⟨rs, hrs, hr, hi⟩
    refine ⟨(p.1, l), (Dict.mem_items_iff _ _ _).2 hl, List.mem_map.2 ⟨(p.2.1, r), hq, ?_⟩⟩
    rw [← hblocks]

end Switch

end ActiveRmt
