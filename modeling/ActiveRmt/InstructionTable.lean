/-
**What the instruction tables mean.**

An instruction has up to three entries, one more for the end of a program: one for its action, one for
the other value of its condition, and one for disabled programs.  They overlap, and the longest prefix of
`mbr` decides; the entries of a memory instruction are there once for each tenant, for its range of
addresses, which ends at one place for the action and at another for what is done instead.

Main definitions:

* `Switch.tenantEntries`, `Switch.installTenants` — the entries of the tenants of a stage;
* `Longest` — an entry that matches a packet with a prefix that is longest;
* `CondHolds`, `InRangeOf` — the condition of an instruction, and the range of a tenant;
* `Implements` — **the tables do what the instruction says**.

Main results:

* `Switch.installTenants_ok` — the entries of any tenants are installed;
* `matches_iff` — the entries that match a packet are those of its instruction and its tenant;
* `Longest.unique`, `Longest.lookup_eq` — the longest one is unique, and is selected;
* `instruction_tables` — **the tables implement the instruction set**.
-/

import ActiveRmt.Dataplane
import Mathlib.Data.Finset.Max

set_option relaxedAutoImplicit false
set_option autoImplicit false

namespace ActiveRmt

namespace Switch

/-! ### The entries of an instruction -/

/-- The key of an entry of an instruction. -/
def entryKey (fid : Fid) (act : Instruction) (lo : ℚ) (complete disabled mbrPfx : ℕ) (hi : ℚ) :
    EntryKey :=
  ⟨if act.memory then fid else 0, if act.memory then fid else 0xFF, act.opcode, complete, disabled,
    0, mbrPfx, lo, hi⟩

/-- **The entries of an instruction**, by what they are for. -/
inductive IsEntry (fid : Fid) (act : Instruction) (action : Action) (lo hi : ℚ) :
    EntryKey × BoundAction → Prop
  /-- The end of a program that has completed. -/
  | ending (hcond : act.condition = none) (h0 : act.opcode = 0) :
      IsEntry fid act action lo hi (entryKey fid act lo 1 0 0 hi, (action, none))
  /-- No condition. -/
  | plain (hcond : act.condition = none) :
      IsEntry fid act action lo hi (entryKey fid act lo 0 0 0 hi, (action, none))
  /-- The condition that `mbr` is not zero: it is not. -/
  | skipZero (hcond : act.condition = some true) :
      IsEntry fid act action lo hi (entryKey fid act lo 0 0 32 regMax, (.skip, none))
  /-- The condition that `mbr` is not zero. -/
  | nonzero (hcond : act.condition = some true) :
      IsEntry fid act action lo hi (entryKey fid act lo 0 0 0 hi, (action, none))
  /-- The condition that `mbr` is zero. -/
  | zero (hcond : act.condition = some false) :
      IsEntry fid act action lo hi (entryKey fid act lo 0 0 32 hi, (action, none))
  /-- The condition that `mbr` is zero: it is not. -/
  | skipNonzero (hcond : act.condition = some false) :
      IsEntry fid act action lo hi (entryKey fid act lo 0 0 0 regMax, (.skip, none))
  /-- A disabled program. -/
  | rejoin : IsEntry fid act action lo hi (entryKey fid act lo 0 1 0 regMax, (.attemptRejoin, none))

variable {fid : Fid} {act : Instruction} {action : Action} {lo hi : ℚ} {e e' : EntryKey × BoundAction}

theorem mem_entriesOf_iff (haction : act.action = some action) :
    e ∈ entriesOf fid act lo hi ↔ IsEntry fid act action lo hi e := by
  have hlist : ∀ {keys : List (EntryKey × BoundAction)}, e ∈ keys ++
      [(entryKey fid act lo 0 1 0 regMax, (.attemptRejoin, none))] ↔ e ∈ keys ∨
        e = (entryKey fid act lo 0 1 0 regMax, (.attemptRejoin, none)) := fun {keys} => by
    rw [List.mem_append, List.mem_singleton]
  unfold entriesOf
  rw [haction]
  refine hlist.trans ?_
  cases hcond : act.condition with
  | none =>
      rw [List.mem_append, List.mem_ite_nil_right, List.mem_singleton, List.mem_singleton]
      constructor
      · rintro ((⟨h0, rfl⟩ | rfl) | rfl)
        · exact .ending hcond h0
        · exact .plain hcond
        · exact .rejoin
      · rintro (⟨-, h0⟩ | _ | h | h | h | h | _)
        · exact .inl (.inl ⟨h0, rfl⟩)
        · exact .inl (.inr rfl)
        · exact absurd (hcond.symm.trans h) (by simp)
        · exact absurd (hcond.symm.trans h) (by simp)
        · exact absurd (hcond.symm.trans h) (by simp)
        · exact absurd (hcond.symm.trans h) (by simp)
        · exact .inr rfl
  | some b =>
      cases b with
      | true =>
          rw [List.mem_pair]
          constructor
          · rintro ((rfl | rfl) | rfl)
            · exact .skipZero hcond
            · exact .nonzero hcond
            · exact .rejoin
          · rintro (⟨h, -⟩ | h | _ | _ | h | h | _)
            · exact absurd (hcond.symm.trans h) (by simp)
            · exact absurd (hcond.symm.trans h) (by simp)
            · exact .inl (.inl rfl)
            · exact .inl (.inr rfl)
            · exact absurd (hcond.symm.trans h) (by simp)
            · exact absurd (hcond.symm.trans h) (by simp)
            · exact .inr rfl
      | false =>
          rw [List.mem_pair]
          constructor
          · rintro ((rfl | rfl) | rfl)
            · exact .zero hcond
            · exact .skipNonzero hcond
            · exact .rejoin
          · rintro (⟨h, -⟩ | h | h | h | _ | _ | _)
            · exact absurd (hcond.symm.trans h) (by simp)
            · exact absurd (hcond.symm.trans h) (by simp)
            · exact absurd (hcond.symm.trans h) (by simp)
            · exact absurd (hcond.symm.trans h) (by simp)
            · exact .inl (.inl rfl)
            · exact .inl (.inr rfl)
            · exact .inr rfl

/-- An instruction without action has no entries. -/
theorem isSome_of_mem_entriesOf (he : e ∈ entriesOf fid act lo hi) :
    ∃ action, act.action = some action := by
  cases haction : act.action with
  | none => rw [entriesOf, haction] at he; exact absurd he List.not_mem_nil
  | some action => exact ⟨action, rfl⟩

/-- The fields that all entries of an instruction share. -/
theorem fields_of_mem_entriesOf (he : e ∈ entriesOf fid act lo hi) :
    e.1.fidStart = (if act.memory then fid else 0) ∧ e.1.fidEnd = (if act.memory then fid else 0xFF) ∧
      e.1.opcode = act.opcode ∧ e.1.mbr = 0 ∧ e.1.mbrPfx ≤ 32 ∧ e.1.marStart = lo := by
  obtain ⟨action, haction⟩ := isSome_of_mem_entriesOf he
  have hpfx : ∀ n : ℕ, n = 0 ∨ n = 32 → n ≤ 32 := fun n hn => by omega
  cases (mem_entriesOf_iff haction).1 he with
  | skipZero | zero => exact ⟨rfl, rfl, rfl, rfl, hpfx 32 (.inr rfl), rfl⟩
  | ending | plain | nonzero | skipNonzero | rejoin =>
      exact ⟨rfl, rfl, rfl, rfl, hpfx 0 (.inl rfl), rfl⟩

/-- The entries of an instruction differ in the flags or in the prefix. -/
theorem entriesOf_inj (he : e ∈ entriesOf fid act lo hi) (he' : e' ∈ entriesOf fid act lo hi)
    (hc : e.1.complete = e'.1.complete) (hd : e.1.disabled = e'.1.disabled)
    (hp : e.1.mbrPfx = e'.1.mbrPfx) : e = e' := by
  obtain ⟨action, haction⟩ := isSome_of_mem_entriesOf he
  cases (mem_entriesOf_iff haction).1 he <;> cases (mem_entriesOf_iff haction).1 he' <;>
    first | rfl | simp_all [entryKey]

/-! ### Installing them -/

/-- The entries of a tenant for a range of addresses. -/
def tenantEntries (t : Fid × (ℚ × ℚ)) : List (EntryKey × BoundAction) :=
  memoryInstructions.flatMap fun act => entriesOf t.1 act t.2.1 t.2.2

/-- **The tenants of a stage install their entries.** -/
def installTenants (i : Stage) (tenants : Dict Fid (ℚ × ℚ)) : EStateM Exn Switch Unit :=
  (tenants.items.flatMap tenantEntries).forM (addEntry i)

/-- The memory access of a function is that of a tenant with the addresses of its blocks. -/
theorem installMemoryAccessEntries_eq (bs : ℚ) (i : Stage) (fid : Fid) (blocks : List ℕ) :
    installMemoryAccessEntries bs i fid blocks =
      (tenantEntries (fid, getMemoryRange bs blocks)).forM (addEntry i) := rfl

theorem put_of_notMem {κ α : Type} [DecidableEq κ] {k : κ} {l : List (κ × α)}
    (h : k ∉ l.map Prod.fst) (v : α) : Dict.put k v l = l ++ [(k, v)] := by
  induction l with
  | nil => rfl
  | cons p l ih =>
      rw [List.map_cons, List.mem_cons, not_or] at h
      rw [Dict.put, if_neg (Ne.symm h.1), ih h.2, List.cons_append]

/-- **Entries with new keys are added**, behind those that are there. -/
theorem forM_addEntry_ok (i : Stage) {entries : List (EntryKey × BoundAction)} {sw : Switch}
    (hnodup : (((sw.instruction i).items ++ entries).map Prod.fst).Nodup) :
    ∃ sw', entries.forM (addEntry i) sw = .ok ⟨⟩ sw' ∧
      (sw'.instruction i).items = (sw.instruction i).items ++ entries := by
  refine forM_total (l := entries)
    (fun done s => (s.instruction i).items = (sw.instruction i).items ++ done)
    (fun done e rest hsplit s hs => ?_) entries [] sw rfl (List.append_nil _).symm
  have hnew : e.1 ∉ (s.instruction i).items.map Prod.fst := by
    rw [hsplit, ← List.append_assoc, ← hs, List.map_append, List.map_cons] at hnodup
    exact fun hmem => (List.nodup_append.1 hnodup).2.2 _ hmem _ List.mem_cons_self rfl
  have hcontains : (s.instruction i).contains e.1 = false := by
    rw [Bool.eq_false_iff]
    exact fun h => hnew ((Dict.contains_iff _ _).1 h)
  refine ⟨_, by rw [addEntry, tableAdd, if_neg (by simp [hcontains])], ?_⟩
  change ((Function.update s.instruction i ((s.instruction i).set e.1 e.2)) i).items = _
  rw [Function.update_self]
  change Dict.put e.1 e.2 (s.instruction i).items = _
  rw [put_of_notMem hnew, hs, List.append_assoc]

/-- The keys of an instruction are distinct. -/
theorem nodup_entriesOf (fid : Fid) (act : Instruction) (lo hi : ℚ) :
    ((entriesOf fid act lo hi).map Prod.fst).Nodup := by
  unfold entriesOf
  cases act.action with
  | none => exact List.nodup_nil
  | some action =>
      cases act.condition with
      | none =>
          dsimp only
          split_ifs <;> simp
      | some b => cases b <;> simp

theorem nodup_memoryInstructions : memoryInstructions.Nodup := by decide +kernel

theorem mem_memoryInstructions {act : Instruction} (h : act ∈ memoryInstructions) :
    act ∈ instructionSet ∧ act.memory = true := List.mem_filter.1 h

/-- The keys of a tenant are distinct. -/
theorem nodup_tenantEntries (t : Fid × (ℚ × ℚ)) : ((tenantEntries t).map Prod.fst).Nodup := by
  rw [tenantEntries, List.map_flatMap, List.nodup_flatMap]
  refine ⟨fun act _ => nodup_entriesOf t.1 act t.2.1 t.2.2, ?_⟩
  refine nodup_memoryInstructions.imp_of_mem fun {act act'} hact hact' hne k hk hk' => hne ?_
  obtain ⟨e, he, rfl⟩ := List.mem_map.1 hk
  obtain ⟨e', he', heq⟩ := List.mem_map.1 hk'
  refine instruction_eq (mem_memoryInstructions hact).1 (mem_memoryInstructions hact').1 ?_
  rw [← (fields_of_mem_entriesOf he).2.2.1, ← heq, (fields_of_mem_entriesOf he').2.2.1]

/-- An entry of a tenant is for a memory instruction and for the tenant. -/
theorem fields_of_mem_tenantEntries {t : Fid × (ℚ × ℚ)} {e : EntryKey × BoundAction}
    (he : e ∈ tenantEntries t) :
    (∃ act ∈ memoryInstructions, e.1.opcode = act.opcode) ∧ e.1.fidStart = t.1 := by
  obtain ⟨act, hact, he⟩ := List.mem_flatMap.1 he
  refine ⟨⟨act, hact, (fields_of_mem_entriesOf he).2.2.1⟩, ?_⟩
  rw [(fields_of_mem_entriesOf he).1, if_pos (mem_memoryInstructions hact).2]

/-- **The entries of any tenants are installed** in the tables that the controller starts with. -/
theorem installTenants_ok (i : Stage) (tenants : Dict Fid (ℚ × ℚ)) :
    ∃ sw, installTenants i tenants init = .ok ⟨⟩ sw ∧
      (sw.instruction i).items = commonEntries ++ tenants.items.flatMap tenantEntries := by
  have hnodup : (((init.instruction i).items ++ tenants.items.flatMap tenantEntries).map
      Prod.fst).Nodup := ?_
  · exact forM_addEntry_ok i hnodup
  rw [List.map_append, List.nodup_append]
  refine ⟨(init.instruction i).nodup, ?_, ?_⟩
  · rw [List.map_flatMap, List.nodup_flatMap]
    refine ⟨fun t _ => nodup_tenantEntries t, ?_⟩
    refine (List.pairwise_map.1 tenants.nodup).imp fun {t t'} hne k hk hk' => hne ?_
    obtain ⟨e, he, rfl⟩ := List.mem_map.1 hk
    obtain ⟨e', he', heq⟩ := List.mem_map.1 hk'
    rw [← (fields_of_mem_tenantEntries he).2, ← heq, (fields_of_mem_tenantEntries he').2]
  · intro k hk k' hk' heq
    obtain ⟨e, he, rfl⟩ := List.mem_map.1 hk
    obtain ⟨e', he', rfl⟩ := List.mem_map.1 hk'
    obtain ⟨t, -, he'⟩ := List.mem_flatMap.1 he'
    obtain ⟨⟨act', hact', hop'⟩, -⟩ := fields_of_mem_tenantEntries he'
    obtain ⟨act, hact, he⟩ := List.mem_flatMap.1 he
    obtain ⟨hset, -, hmem, -⟩ := mem_instructionSet_of_common hact
    have hsame := instruction_eq hset (mem_memoryInstructions hact').1
      ((fields_of_mem_entriesOf he).2.2.1.symm.trans (heq ▸ hop'))
    rw [hsame, (mem_memoryInstructions hact').2] at hmem
    exact Bool.false_ne_true hmem.symm

end Switch

/-! ### What matches a packet -/

/-- The low twenty bits of the address, which is what the tables look at. -/
def LookupKey.address (q : LookupKey) : ℚ := ((q.mar.toNat % 2 ^ 20 : ℕ) : ℚ)

/-- **An entry that matches, with a prefix that is longest.** -/
structure Longest (sw : Switch) (i : Stage) (q : LookupKey) (e : EntryKey × BoundAction) : Prop where
  /-- It is in the table. -/
  mem : e ∈ (sw.instruction i).items
  /-- It matches. -/
  selects : e.1.selects q = true
  /-- No other that matches has a longer prefix. -/
  longest : ∀ e' ∈ (sw.instruction i).items, e'.1.selects q = true → e'.1.mbrPfx ≤ e.1.mbrPfx

/-- **The condition of an instruction holds.** -/
def CondHolds (act : Instruction) (mbr : Word) : Prop :=
  match act.condition with
  | none => True
  | some true => mbr ≠ 0
  | some false => mbr = 0

/-- The addresses of an instruction for a function: its range, for a memory instruction of a tenant,
and all of them for another instruction. -/
def rangeOf (tenants : Dict Fid (ℚ × ℚ)) (act : Instruction) (fid : Fid) : Option (ℚ × ℚ) :=
  if act.memory then tenants.get? fid else some (0, regMax)

/-- **The address is in the range of the function**, if the instruction accesses memory. -/
def InRangeOf (tenants : Dict Fid (ℚ × ℚ)) (act : Instruction) (q : LookupKey) : Prop :=
  act.memory = true → ∃ r, tenants.get? q.fid = some r ∧ r.1 ≤ q.address ∧ q.address ≤ r.2

/-- **The tables do what an instruction says.** -/
structure Implements (sw : Switch) (i : Stage) (tenants : Dict Fid (ℚ × ℚ)) (act : Instruction)
    (action : Action) (q : LookupKey) : Prop where
  /-- Where an entry matches, one entry has the longest prefix. -/
  unique : (∃ e ∈ (sw.instruction i).items, e.1.selects q = true) → ∃! e, Longest sw i q e
  /-- It is the one that is selected. -/
  selected : ∀ e, Longest sw i q e → sw.lookup i q = some e.2
  /-- The action of the instruction is selected exactly when the program is running, its condition
  holds and the address is in the range; that of `EOF` also when the program has completed. -/
  own : sw.lookup i q = some (action, none) ↔ q.disabled = false ∧
    ((q.complete = false ∧ CondHolds act q.mbr ∧ InRangeOf tenants act q) ∨
      (q.complete = true ∧ act.pnemonic = .eof))
  /-- A disabled program only rejoins. -/
  disabled : q.disabled = true → ∀ a, sw.lookup i q = some a → a = (.attemptRejoin, none)
  /-- A program that has completed is only marked, at its end. -/
  complete : q.complete = true → ∀ a, sw.lookup i q = some a →
    act.pnemonic = .eof ∧ a = (.markTermination, none)

namespace Switch

section Matches

variable {sw : Switch} {i : Stage} {tenants : Dict Fid (ℚ × ℚ)} {act : Instruction} {q : LookupKey}
  {e e' : EntryKey × BoundAction}

/-- The entries of another instruction than a memory instruction are those of no function. -/
theorem entriesOf_of_not_memory (hmem : act.memory = false) (fid : Fid) (lo hi : ℚ) :
    entriesOf fid act lo hi = entriesOf 0 act lo hi := by
  unfold entriesOf
  simp [hmem]

/-- **The entries that match a packet** are those of its instruction, for its function. -/
theorem matches_iff (hitems : (sw.instruction i).items = commonEntries ++ tenants.items.flatMap tenantEntries)
    (hact : act ∈ instructionSet) (hsome : act.action.isSome = true) (hvaddr : act.vaddr = false)
    (hop : q.opcode = act.opcode) (hsel : e.1.selects q = true) :
    e ∈ (sw.instruction i).items ↔
      ∃ r, rangeOf tenants act q.fid = some r ∧ e ∈ entriesOf q.fid act r.1 r.2 := by
  obtain ⟨hlow, hhigh, hkey, -⟩ := of_decide_eq_true hsel
  rw [hitems, List.mem_append]
  constructor
  · rintro (he | he)
    · obtain ⟨act', hact', he⟩ := List.mem_flatMap.1 he
      obtain ⟨hset, -, hmem, -⟩ := mem_instructionSet_of_common hact'
      obtain rfl := instruction_eq hact hset
        (hop.symm.trans (hkey.symm.trans (fields_of_mem_entriesOf he).2.2.1))
      exact ⟨(0, regMax), by simp [rangeOf, hmem], by rwa [entriesOf_of_not_memory hmem]⟩
    · obtain ⟨t, ht, he⟩ := List.mem_flatMap.1 he
      obtain ⟨act', hact', he⟩ := List.mem_flatMap.1 he
      obtain ⟨hset, hmem⟩ := mem_memoryInstructions hact'
      obtain ⟨hstart, hend, hop', -⟩ := fields_of_mem_entriesOf he
      obtain rfl := instruction_eq hact hset (hop.symm.trans (hkey.symm.trans hop'))
      rw [if_pos hmem] at hstart hend
      have hfid : q.fid = t.1 := le_antisymm (hhigh.trans hend.le) (hstart.ge.trans hlow)
      refine ⟨t.2, ?_, hfid ▸ he⟩
      rw [rangeOf, if_pos hmem, hfid]
      exact (Dict.mem_items_iff tenants t.1 t.2).1 ht
  · rintro ⟨r, hr, he⟩
    unfold rangeOf at hr
    split_ifs at hr with hmem
    · refine .inr (List.mem_flatMap.2 ⟨(q.fid, r), (Dict.mem_items_iff tenants q.fid r).2 hr, ?_⟩)
      exact List.mem_flatMap.2 ⟨act, List.mem_filter.2 ⟨hact, hmem⟩, he⟩
    · have hmem : act.memory = false := by simpa using hmem
      obtain rfl := Option.some.inj hr
      refine .inl (List.mem_flatMap.2 ⟨act, List.mem_filter.2 ⟨hact, by simp [hsome, hmem, hvaddr]⟩, ?_⟩)
      rwa [entriesOf_of_not_memory hmem] at he

/-- When an entry of an instruction matches a packet of the instruction. -/
theorem selects_entryKey {lo hi : ℚ} {complete disabled mbrPfx : ℕ} (hop : q.opcode = act.opcode)
    (hfid : q.fid ≤ 255) :
    (entryKey q.fid act lo complete disabled mbrPfx hi).selects q = true ↔
      complete = q.complete.toNat ∧ disabled = q.disabled.toNat ∧ q.mbr.toNat < 2 ^ (32 - mbrPfx) ∧
        lo ≤ q.address ∧ q.address ≤ hi := by
  have hmbr : (0 : ℕ) = q.mbr.toNat / 2 ^ (32 - mbrPfx) ↔ q.mbr.toNat < 2 ^ (32 - mbrPfx) := by
    rw [eq_comm, Nat.div_eq_zero_iff_lt (Nat.two_pow_pos _)]
  have hlow : (if act.memory then q.fid else 0) ≤ q.fid := by split_ifs <;> omega
  have hhigh : q.fid ≤ (if act.memory then q.fid else 0xFF) := by split_ifs <;> omega
  simp only [EntryKey.selects, entryKey, LookupKey.address, decide_eq_true_eq, hlow, hhigh, hop, true_and,
    Nat.zero_div, hmbr]

/-- The longest prefixes are of one length. -/
theorem mbrPfx_eq_of_longest (h : Longest sw i q e) (h' : Longest sw i q e') :
    e.1.mbrPfx = e'.1.mbrPfx :=
  le_antisymm (h'.longest e h.mem h.selects) (h.longest e' h'.mem h'.selects)

/-- **A longest entry is the one that is selected.** -/
theorem lookup_of_longest (h : Longest sw i q e) (hpfx : e.1.mbrPfx ≤ 32)
    (hunique : ∀ e', Longest sw i q e' → e' = e) : sw.lookup i q = some e.2 :=
  lookup_eq_some h.mem h.selects hpfx fun e' he' hsel' hle =>
    congrArg Prod.snd (hunique e' ⟨he', hsel', fun e'' he'' hsel'' =>
      (h.longest e'' he'' hsel'').trans hle⟩)

/-- Where an entry matches there is a longest one. -/
theorem exists_longest (he : e ∈ (sw.instruction i).items) (hsel : e.1.selects q = true) :
    ∃ e', Longest sw i q e' := by
  obtain ⟨e', he', hmax⟩ := Finset.exists_max_image
    ((sw.instruction i).items.filter fun e => e.1.selects q).toFinset (fun e => e.1.mbrPfx)
    ⟨e, List.mem_toFinset.2 (List.mem_filter.2 ⟨he, hsel⟩)⟩
  obtain ⟨hmem, hsel'⟩ := List.mem_filter.1 (List.mem_toFinset.1 he')
  exact ⟨e', hmem, hsel', fun e'' he'' hsel'' =>
    hmax e'' (List.mem_toFinset.2 (List.mem_filter.2 ⟨he'', hsel''⟩))⟩

end Matches

/-! ### What is selected -/

theorem eof_row : ∀ act ∈ instructionSet, act.pnemonic = .eof →
    act.condition = none ∧ act.opcode = 0 ∧ act.memory = false ∧ act.action = some .markTermination := by
  decide +kernel

theorem eof_of_opcode : ∀ act ∈ instructionSet, act.opcode = 0 → act.pnemonic = .eof := by
  decide +kernel

/-- No instruction has the action of disabled programs, and none with a condition skips. -/
theorem action_ne : ∀ act ∈ instructionSet, act.action ≠ some .attemptRejoin ∧
    (act.condition.isSome = true → act.action ≠ some .skip) := by
  decide +kernel

theorem address_bounds (q : LookupKey) : 0 ≤ q.address ∧ q.address ≤ regMax := by
  refine ⟨Nat.cast_nonneg _, ?_⟩
  have h : q.mar.toNat % 2 ^ 20 ≤ 0xFFFFF := by omega
  unfold LookupKey.address regMax
  exact_mod_cast h

section Selected

variable {sw : Switch} {i : Stage} {tenants : Dict Fid (ℚ × ℚ)} {act : Instruction} {q : LookupKey}
  {e e' : EntryKey × BoundAction} {r : ℚ × ℚ}

/-- The range of a function, for the address of a packet. -/
theorem inRangeOf_iff (hr : rangeOf tenants act q.fid = some r) :
    InRangeOf tenants act q ↔ r.1 ≤ q.address ∧ q.address ≤ r.2 := by
  unfold rangeOf at hr
  split_ifs at hr with hmem
  · constructor
    · intro h
      obtain ⟨r', hr', hin⟩ := h hmem
      obtain rfl := Option.some.inj (hr'.symm.trans hr)
      exact hin
    · exact fun h _ => ⟨r, hr, h⟩
  · obtain rfl := Option.some.inj hr
    exact iff_of_true (fun h => absurd h hmem) (address_bounds q)

theorem exists_rangeOf (h : InRangeOf tenants act q) : ∃ r, rangeOf tenants act q.fid = some r := by
  unfold rangeOf
  split_ifs with hmem
  · obtain ⟨r, hr, -⟩ := h hmem
    exact ⟨r, hr⟩
  · exact ⟨_, rfl⟩

theorem mbr_eq_zero_iff : q.mbr.toNat < 2 ^ (32 - 32) ↔ q.mbr = 0 := by
  rw [Nat.sub_self, pow_zero, Nat.lt_one_iff, BitVec.toNat_eq]
  rfl

/-- What is known of a table and of a packet with an instruction. -/
structure Presents (sw : Switch) (i : Stage) (tenants : Dict Fid (ℚ × ℚ)) (act : Instruction)
    (action : Action) (q : LookupKey) : Prop where
  /-- The table has the common entries and those of the tenants. -/
  items : (sw.instruction i).items = commonEntries ++ tenants.items.flatMap tenantEntries
  /-- The instruction is in the instruction set. -/
  mem : act ∈ instructionSet
  /-- It has an action. -/
  action : act.action = some action
  /-- It is not an address translation. -/
  vaddr : act.vaddr = false
  /-- The function is one that the tables are for. -/
  fid : q.fid ≤ 255
  /-- The packet has the instruction. -/
  opcode : q.opcode = act.opcode

variable {action : Action}

theorem Presents.matches_iff (h : Presents sw i tenants act action q) (hsel : e.1.selects q = true) :
    e ∈ (sw.instruction i).items ↔
      ∃ r, rangeOf tenants act q.fid = some r ∧ e ∈ entriesOf q.fid act r.1 r.2 :=
  Switch.matches_iff h.items h.mem (by simp [h.action]) h.vaddr h.opcode hsel

/-- An entry for the packet is in the table. -/
theorem Presents.mem_items (h : Presents sw i tenants act action q)
    (hr : rangeOf tenants act q.fid = some r) (he : IsEntry q.fid act action r.1 r.2 e)
    (hsel : e.1.selects q = true) : e ∈ (sw.instruction i).items :=
  (h.matches_iff hsel).2 ⟨r, hr, (mem_entriesOf_iff h.action).2 he⟩

/-- **A longest entry** is one of the instruction for the range of the function. -/
theorem Presents.isEntry (h : Presents sw i tenants act action q) (he : Longest sw i q e) :
    ∃ r, rangeOf tenants act q.fid = some r ∧ IsEntry q.fid act action r.1 r.2 e := by
  obtain ⟨r, hr, hmem⟩ := (h.matches_iff he.selects).1 he.mem
  exact ⟨r, hr, (mem_entriesOf_iff h.action).1 hmem⟩

/-- **The longest entry is unique.** -/
theorem Presents.unique (h : Presents sw i tenants act action q) (he : Longest sw i q e)
    (he' : Longest sw i q e') : e' = e := by
  obtain ⟨r, hr, hmem⟩ := (h.matches_iff he.selects).1 he.mem
  obtain ⟨r', hr', hmem'⟩ := (h.matches_iff he'.selects).1 he'.mem
  obtain rfl := Option.some.inj (hr.symm.trans hr')
  obtain ⟨-, -, -, hc, hd, -⟩ := of_decide_eq_true he.selects
  obtain ⟨-, -, -, hc', hd', -⟩ := of_decide_eq_true he'.selects
  exact entriesOf_inj hmem' hmem (hc'.trans hc.symm) (hd'.trans hd.symm) (mbrPfx_eq_of_longest he' he)

/-- **The longest entry is selected.** -/
theorem Presents.lookup_eq (h : Presents sw i tenants act action q) (he : Longest sw i q e) :
    sw.lookup i q = some e.2 := by
  obtain ⟨r, -, hmem⟩ := (h.matches_iff he.selects).1 he.mem
  exact lookup_of_longest he (fields_of_mem_entriesOf hmem).2.2.2.2.1 fun e' he' => h.unique he he'

/-- What is selected is the longest entry. -/
theorem Presents.exists_of_lookup (h : Presents sw i tenants act action q) {a : BoundAction}
    (hl : sw.lookup i q = some a) : ∃ e, Longest sw i q e ∧ e.2 = a := by
  obtain ⟨e₀, hmem, hsel, -⟩ := Switch.exists_of_lookup hl
  obtain ⟨e, he⟩ := exists_longest hmem hsel
  exact ⟨e, he, Option.some.inj ((h.lookup_eq he).symm.trans hl)⟩

/-- An entry of the action is longest where the condition holds. -/
theorem Presents.lookup_own (h : Presents sw i tenants act action q) (hdisabled : q.disabled = false)
    (hcomplete : q.complete = false) (hcond : CondHolds act q.mbr) (hrange : InRangeOf tenants act q) :
    sw.lookup i q = some (action, none) := by
  obtain ⟨r, hr⟩ := exists_rangeOf hrange
  obtain ⟨hlow, hhigh⟩ := (inRangeOf_iff hr).1 hrange
  have hselects : ∀ mbrPfx, q.mbr.toNat < 2 ^ (32 - mbrPfx) →
      (entryKey q.fid act r.1 0 0 mbrPfx r.2).selects q = true := fun mbrPfx hmbr => by
    rw [selects_entryKey h.opcode h.fid, hcomplete, hdisabled]
    exact ⟨rfl, rfl, hmbr, hlow, hhigh⟩
  -- an entry with a longer prefix would be one for the other value of the condition
  have hlongest : ∀ e, IsEntry q.fid act action r.1 r.2 e → e.2 = (action, none) →
      e.1.selects q = true → (∀ e', IsEntry q.fid act action r.1 r.2 e' → e'.1.selects q = true →
        e'.1.mbrPfx ≤ e.1.mbrPfx) → sw.lookup i q = some (action, none) := fun e he hown hsel hall => by
    rw [h.lookup_eq ⟨h.mem_items hr he hsel, hsel, fun e' he' hsel' => ?_⟩, hown]
    obtain ⟨r', hr', hmem'⟩ := (h.matches_iff hsel').1 he'
    obtain rfl := Option.some.inj (hr.symm.trans hr')
    exact hall e' ((mem_entriesOf_iff h.action).1 hmem') hsel'
  have hall : q.mbr.toNat < 2 ^ (32 - 0) := q.mbr.isLt
  unfold CondHolds at hcond
  cases hc : act.condition with
  | none =>
      refine hlongest _ (.plain hc) rfl (hselects 0 hall) fun e' he' hsel' => ?_
      cases he' with
      | ending | plain | rejoin => exact le_rfl
      | skipZero hc' | nonzero hc' | zero hc' | skipNonzero hc' =>
          exact absurd (hc.symm.trans hc') (by simp)
  | some b =>
      rw [hc] at hcond
      cases b with
      | true =>
          refine hlongest _ (.nonzero hc) rfl (hselects 0 hall) fun e' he' hsel' => ?_
          cases he' with
          | skipZero =>
              rw [selects_entryKey h.opcode h.fid, mbr_eq_zero_iff] at hsel'
              exact absurd hsel'.2.2.1 hcond
          | ending | plain | nonzero | skipNonzero | rejoin => exact le_rfl
          | zero hc' => exact absurd (hc.symm.trans hc') (by simp)
      | false =>
          refine hlongest _ (.zero hc) rfl (hselects 32 (mbr_eq_zero_iff.2 hcond)) fun e' he' hsel' => ?_
          cases he' <;> simp [entryKey]

/-- The mark of a program that has completed. -/
theorem Presents.lookup_eof (h : Presents sw i tenants act action q) (hdisabled : q.disabled = false)
    (hcomplete : q.complete = true) (heof : act.pnemonic = .eof) :
    sw.lookup i q = some (action, none) := by
  obtain ⟨hcond, h0, hmem, -⟩ := eof_row act h.mem heof
  have hr : rangeOf tenants act q.fid = some (0, regMax) := by simp [rangeOf, hmem]
  have hsel : (entryKey q.fid act 0 1 0 0 regMax).selects q = true := by
    rw [selects_entryKey h.opcode h.fid, hcomplete, hdisabled]
    exact ⟨rfl, rfl, q.mbr.isLt, address_bounds q⟩
  rw [h.lookup_eq (e := (entryKey q.fid act 0 1 0 0 regMax, (action, none)))
    ⟨h.mem_items hr (.ending hcond h0) hsel, hsel, fun e' he' hsel' => ?_⟩]
  obtain ⟨r', -, hmem'⟩ := (h.matches_iff hsel').1 he'
  have hflag : e'.1.complete = 1 := by
    rw [(of_decide_eq_true hsel').2.2.2.1, hcomplete]
    rfl
  cases (mem_entriesOf_iff h.action).1 hmem' with
  | ending => exact le_rfl
  | plain | skipZero | nonzero | zero | skipNonzero | rejoin => exact absurd hflag (by simp [entryKey])

/-- **What selects the action.** -/
theorem Presents.of_lookup (h : Presents sw i tenants act action q)
    (hl : sw.lookup i q = some (action, none)) :
    q.disabled = false ∧ ((q.complete = false ∧ CondHolds act q.mbr ∧ InRangeOf tenants act q) ∨
      (q.complete = true ∧ act.pnemonic = .eof)) := by
  obtain ⟨e, he, hown⟩ := h.exists_of_lookup hl
  obtain ⟨r, hr, hentry⟩ := h.isEntry he
  have hsel := he.selects
  obtain ⟨hnorejoin, hnoskip⟩ := action_ne act h.mem
  cases hentry with
  | ending _ h0 =>
      rw [selects_entryKey h.opcode h.fid] at hsel
      exact ⟨toNat_eq_zero hsel.2.1, .inr ⟨toNat_eq_one hsel.1, eof_of_opcode act h.mem h0⟩⟩
  | plain hc =>
      rw [selects_entryKey h.opcode h.fid] at hsel
      refine ⟨toNat_eq_zero hsel.2.1, .inl ⟨toNat_eq_zero hsel.1, ?_, (inRangeOf_iff hr).2 hsel.2.2.2⟩⟩
      rw [CondHolds, hc]
      trivial
  | nonzero hc =>
      rw [selects_entryKey h.opcode h.fid] at hsel
      refine ⟨toNat_eq_zero hsel.2.1, .inl ⟨toNat_eq_zero hsel.1, ?_, (inRangeOf_iff hr).2 hsel.2.2.2⟩⟩
      rw [CondHolds, hc]
      -- the entry for zero has the longer prefix
      intro hzero
      have hsel₀ : (entryKey q.fid act r.1 0 0 32 regMax).selects q = true := by
        rw [selects_entryKey h.opcode h.fid]
        exact ⟨hsel.1, hsel.2.1, mbr_eq_zero_iff.2 hzero, hsel.2.2.2.1, (address_bounds q).2⟩
      have hle := he.longest _ (h.mem_items hr (.skipZero hc) hsel₀) hsel₀
      exact absurd hle (by simp [entryKey])
  | zero hc =>
      rw [selects_entryKey h.opcode h.fid, mbr_eq_zero_iff] at hsel
      refine ⟨toNat_eq_zero hsel.2.1, .inl ⟨toNat_eq_zero hsel.1, ?_, (inRangeOf_iff hr).2 hsel.2.2.2⟩⟩
      rw [CondHolds, hc]
      exact hsel.2.2.1
  | skipZero hc | skipNonzero hc =>
      have hskip : Action.skip = action := congrArg Prod.fst hown
      exact absurd (hskip ▸ h.action) (hnoskip (by simp [hc]))
  | rejoin =>
      have hrejoin : Action.attemptRejoin = action := congrArg Prod.fst hown
      exact absurd (hrejoin ▸ h.action) hnorejoin

/-- What the flags and the address of a packet say of an entry that matches. -/
theorem Presents.implements (h : Presents sw i tenants act action q) :
    Implements sw i tenants act action q where
  unique := by
    rintro ⟨e₀, hmem, hsel⟩
    obtain ⟨e, he⟩ := exists_longest hmem hsel
    exact ⟨e, he, fun e' he' => h.unique he he'⟩
  selected e he := h.lookup_eq he
  own := by
    refine ⟨h.of_lookup, ?_⟩
    rintro ⟨hdisabled, ⟨hcomplete, hcond, hrange⟩ | ⟨hcomplete, heof⟩⟩
    · exact h.lookup_own hdisabled hcomplete hcond hrange
    · exact h.lookup_eof hdisabled hcomplete heof
  disabled hdisabled a hl := by
    obtain ⟨e, he, rfl⟩ := h.exists_of_lookup hl
    obtain ⟨r, -, hentry⟩ := h.isEntry he
    have hflag : e.1.disabled = 1 := by
      rw [(of_decide_eq_true he.selects).2.2.2.2.1, hdisabled]
      rfl
    cases hentry with
    | rejoin => rfl
    | ending | plain | skipZero | nonzero | zero | skipNonzero => exact absurd hflag (by simp [entryKey])
  complete hcomplete a hl := by
    obtain ⟨e, he, rfl⟩ := h.exists_of_lookup hl
    obtain ⟨r, -, hentry⟩ := h.isEntry he
    have hflag : e.1.complete = 1 := by
      rw [(of_decide_eq_true he.selects).2.2.2.1, hcomplete]
      rfl
    cases hentry with
    | ending _ h0 =>
        have heof := eof_of_opcode act h.mem h0
        refine ⟨heof, ?_⟩
        rw [Option.some.inj (h.action.symm.trans (eof_row act h.mem heof).2.2.2)]
    | plain | skipZero | nonzero | zero | skipNonzero | rejoin => exact absurd hflag (by simp [entryKey])

end Selected

end Switch

/-- **The tables implement the instruction set**, at every stage and for any tenants. -/
theorem instruction_tables (i : Stage) (tenants : Dict Fid (ℚ × ℚ)) :
    ∃ sw, Switch.installTenants i tenants Switch.init = .ok ⟨⟩ sw ∧
      ∀ act ∈ instructionSet, act.vaddr = false → ∀ action, act.action = some action →
        ∀ q : LookupKey, q.fid ≤ 255 → q.opcode = act.opcode →
          Implements sw i tenants act action q := by
  obtain ⟨sw, hok, hitems⟩ := Switch.installTenants_ok i tenants
  exact ⟨sw, hok, fun act hact hvaddr action haction q hfid hop =>
    Switch.Presents.implements ⟨hitems, hact, haction, hvaddr, hfid, hop⟩⟩

/-- **The end of a program that has completed**: its own action is selected, although the program has
completed. -/
theorem eof_selected_when_complete :
    ∃ act ∈ instructionSet, ∃ action, act.action = some action ∧ ∃ q : LookupKey, q.fid ≤ 255 ∧
      q.opcode = act.opcode ∧
      ¬ (Switch.init.lookup 0 q = some (action, none) ↔ q.complete = false ∧ q.disabled = false ∧
        CondHolds act q.mbr ∧ InRangeOf Dict.empty act q) := by
  refine ⟨⟨⟨.eof, some .markTermination, none⟩, 0⟩, by decide +kernel, .markTermination, rfl,
    ⟨0, 0, true, false, 0, 0⟩, by decide, rfl, fun h => ?_⟩
  exact absurd (h.1 (by decide +kernel)).1 (by decide)

end ActiveRmt
