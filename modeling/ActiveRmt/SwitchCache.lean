/-
**The cache on the switch.**

`cacheread.ap4` compares the two halves of a key with words of two stages, and takes the word of a third one.
These words are written one by one, each with the program that `construct_memset_program` has for its stage.
Together they are a table, and the programs are its operations, whatever else the switch does meanwhile.

What the timer of the application writes makes the table a cache: it has the keys that were asked for, at the
addresses of their requests.

Main definitions:

* `CacheTable`, `CacheRequest` — the table, and what a client asks of it;
* `CacheRequest.CarriedBy` — a packet that carries a request.

Main results:

* `forM_cacheread`, `forM_memset` — what the two programs do to the words of their function;
* `Network.cache_refines` — **the memory of the switch is the table**, in every run;
* `Filling.covered_storeItems` — the timer passes over no address that was asked for;
* `Network.cache_answers` — **which keys are answered by the switch**.
-/

import ActiveRmt.CacheTimer
import ActiveRmt.Meaning
import ActiveRmt.MemorySync
import ActiveRmt.Network

set_option relaxedAutoImplicit false
set_option autoImplicit false

namespace ActiveRmt

open KeyedTable

/-! ### Tables -/

/-- The columns of a cache. -/
inductive CacheColumn
  /-- The upper half of a key. -/
  | key0
  /-- The lower half of a key. -/
  | key1
  /-- The value. -/
  | value
  deriving DecidableEq, Repr

/-- **A table of keys and values**, by address. -/
abbrev CacheTable := Word → CacheColumn → Word

/-- **What a client asks of a table.** -/
inductive CacheRequest
  /-- A word is written. -/
  | put (col : CacheColumn) (a v : Word)
  /-- A key is looked up. -/
  | get (a key0 key1 : Word)

namespace CacheRequest

/-- The address of a request. -/
def addr : CacheRequest → Word
  | .put _ a _ | .get a _ _ => a

/-- The table after a request. -/
def apply (t : CacheTable) : CacheRequest → CacheTable
  | .put col a v => Function.update t a (Function.update (t a) col v)
  | .get _ _ _ => t

/-- **What a request finds in a table.** -/
def answer (t : CacheTable) : CacheRequest → Option Word
  | .put _ _ _ => none
  | .get a key0 key1 => if t a .key0 = key0 ∧ t a .key1 = key1 then some (t a .value) else none

theorem apply_put (t : CacheTable) (col col' : CacheColumn) (a b v : Word) :
    (put col a v).apply t b col' = if col' = col ∧ b = a then v else t b col' := by
  simp only [apply, Function.update_apply]
  split_ifs <;> simp_all

/-- Lookups leave the table alone. -/
theorem foldl_apply_get (t : CacheTable) {rs : List CacheRequest} (h : ∀ r ∈ rs, ∃ a k₀ k₁, r = get a k₀ k₁) :
    rs.foldl apply t = t := by
  induction rs with
  | nil => rfl
  | cons r rs ih =>
      obtain ⟨⟨a, k₀, k₁, rfl⟩, hrest⟩ := List.forall_mem_cons.1 h
      exact ih hrest

/-- **Words of one table, written in any order**: what is written once is there. -/
theorem foldl_apply_put (t w : CacheTable) {rs : List CacheRequest}
    (h : ∀ r ∈ rs, ∃ col a, r = put col a (w a col)) {col : CacheColumn} {a : Word}
    (hmem : put col a (w a col) ∈ rs ∨ t a col = w a col) : rs.foldl apply t a col = w a col := by
  induction rs generalizing t with
  | nil => exact hmem.resolve_left (by simp)
  | cons r rs ih =>
      obtain ⟨⟨col', a', rfl⟩, hrest⟩ := List.forall_mem_cons.1 h
      refine ih ((put col' a' (w a' col')).apply t) hrest ?_
      rw [apply_put]
      split_ifs with heq
      · rw [heq.1, heq.2]
        exact .inr rfl
      · refine hmem.imp_left fun hin => (List.mem_cons.1 hin).resolve_left fun hput => heq ?_
        injection hput with hcol ha
        exact ⟨hcol, ha⟩

end CacheRequest

/-! ### What the programs mean -/

section Programs

variable {crc16 : Stage → (Fin 5 → Word) → BitVec 16} {own : Stage → Word → Prop} [∀ i a, Decidable (own i a)]
  {i : Stage} {m : Machine}

/-- An instruction that every program may run does what it means. -/
theorem perform_common {x : Stage × ActiveInstr} {act : Instruction} (h : x.2.decode = some act)
    (hmem : act.memory = false) (hcond : act.condition = none) (hne : act.action ≠ some .complete)
    (hm : m.disabled = false) :
    perform crc16 own x m = .ok ⟨⟩ (act.pnemonic.effect (crc16 x.1) x.1 m) := by
  have hholds : CondHolds act m.mbr := by
    rw [CondHolds, hcond]
    trivial
  rw [perform_eq h, if_neg (by simp [hmem]), if_neg (by simp [hm]), if_neg (not_not.2 hholds), if_neg hne]

/-- An access to a word of the function does what it means. -/
theorem perform_access {x : Stage × ActiveInstr} {act : Instruction} (h : x.2.decode = some act)
    (hcond : act.condition = none) (hne : act.action ≠ some .complete) (hm : m.disabled = false)
    (hown : own x.1 m.mar) :
    perform crc16 own x m = .ok ⟨⟩ (act.pnemonic.effect (crc16 x.1) x.1 m) := by
  have hholds : CondHolds act m.mbr := by
    rw [CondHolds, hcond]
    trivial
  rw [perform_eq h, if_neg (fun hand => hand.2 hown), if_neg (by simp [hm]), if_neg (not_not.2 hholds), if_neg hne]

theorem perform_memRead (hm : m.disabled = false) (hown : own i m.mar) :
    perform crc16 own (i, instrOf .memRead) m = .ok ⟨⟩ { m with mbr := m.heap i m.mar } := by
  have hdecode : (instrOf .memRead).decode = some ⟨⟨.memRead, some .memoryRead, none⟩, 41⟩ := by decide +kernel
  exact perform_access (x := (i, instrOf .memRead)) hdecode rfl (by simp) hm hown

theorem perform_memWrite (hm : m.disabled = false) (hown : own i m.mar) :
    perform crc16 own (i, instrOf .memWrite) m = .ok ⟨⟩ (m.write i m.mbr) := by
  have hdecode : (instrOf .memWrite).decode = some ⟨⟨.memWrite, some .memoryWrite, none⟩, 40⟩ := by decide +kernel
  exact perform_access (x := (i, instrOf .memWrite)) hdecode rfl (by simp) hm hown

/-- A conditional return leaves the program if the register is not zero. -/
theorem perform_cret (hm : m.disabled = false) :
    perform crc16 own (i, instrOf .cret) m = if m.mbr = 0 then .ok ⟨⟩ m else .error ⟨⟩ m := by
  have hdecode : (instrOf .cret).decode = some ⟨⟨.cret, some .complete, some true⟩, 3⟩ := by decide +kernel
  have hholds : CondHolds ⟨⟨.cret, some .complete, some true⟩, 3⟩ m.mbr ↔ ¬ m.mbr = 0 := Iff.rfl
  rw [perform_eq (x := (i, instrOf .cret)) hdecode, if_neg (fun hand => Bool.false_ne_true hand.1),
    if_neg (by simp [hm]), if_pos rfl]
  simp only [hholds, not_not]

theorem perform_return (hm : m.disabled = false) :
    perform crc16 own (i, instrOf .return_) m = .error ⟨⟩ m := by
  have hdecode : (instrOf .return_).decode = some ⟨⟨.return_, some .complete, none⟩, 2⟩ := by decide +kernel
  have hholds : CondHolds ⟨⟨.return_, some .complete, none⟩, 2⟩ m.mbr := trivial
  rw [perform_eq (x := (i, instrOf .return_)) hdecode, if_neg (fun hand => Bool.false_ne_true hand.1),
    if_neg (by simp [hm]), if_neg (not_not.2 hholds), if_pos rfl]

/-- A word is compared with half of a key: the program goes on if they are equal. -/
theorem perform_compare {p : Pnemonic} {act : Instruction} {d : Fin 4} {j j' j'' : Stage}
    {rest : List (Stage × ActiveInstr)} (hdecode : (instrOf p).decode = some act) (hmem : act.memory = false)
    (hcond : act.condition = none) (hne : act.action ≠ some .complete)
    (heffect : ∀ m, act.pnemonic.effect (crc16 j') j' m = { m with mbr := m.mbr ^^^ m.data d })
    (hm : m.disabled = false) (hown : own j m.mar) :
    ((j, instrOf .memRead) :: (j', instrOf p) :: (j'', instrOf .cret) :: rest).forM (perform crc16 own) m =
      if m.heap j m.mar = m.data d then rest.forM (perform crc16 own) { m with mbr := 0 }
      else .error ⟨⟩ { m with mbr := m.heap j m.mar ^^^ m.data d } := by
  have hcompare : perform crc16 own (j', instrOf p) { m with mbr := m.heap j m.mar } =
      .ok ⟨⟩ { m with mbr := m.heap j m.mar ^^^ m.data d } := by
    rw [perform_common (x := (j', instrOf p)) hdecode hmem hcond hne (by exact hm), heffect]
  have hreturn (v : Word) : perform crc16 own (j'', instrOf .cret) { m with mbr := v } =
      if v = 0 then .ok ⟨⟩ { m with mbr := v } else .error ⟨⟩ { m with mbr := v } := perform_cret hm
  rw [forM_cons_ok (perform_memRead hm hown), forM_cons_ok hcompare]
  by_cases hkey : m.heap j m.mar = m.data d
  · have hzero : m.heap j m.mar ^^^ m.data d = 0 := BitVec.xor_eq_zero_iff.2 hkey
    rw [if_pos hkey, hzero, forM_cons_ok ((hreturn 0).trans (if_pos rfl))]
  · have hzero : m.heap j m.mar ^^^ m.data d ≠ 0 := mt BitVec.xor_eq_zero_iff.1 hkey
    rw [if_neg hkey, forM_cons_error ((hreturn _).trans (if_neg hzero))]

/-- An instruction that only the headers see does nothing. -/
theorem perform_rts : perform crc16 own (i, instrOf .rts) = pure ⟨⟩ := by
  have hdecode : (instrOf .rts).decode = some ⟨⟨.rts, some .rts, none⟩, 11⟩ := by decide +kernel
  have hgoto : (instrOf .rts).goto = false := by decide
  exact perform_idle (x := (i, instrOf .rts)) hdecode rfl hgoto (by simp) fun _ => rfl

/-- **What `cacheread` means**: it finds the value if it finds the key, and leaves the memory alone. -/
theorem forM_cacheread {site : ℕ → Stage} (hm : m.disabled = false) (h0 : own (site 0) m.mar)
    (h3 : own (site 3) m.mar) (h7 : own (site 7) m.mar) :
    ∃ m', (sites site cacheread).forM (perform crc16 own) m = .error ⟨⟩ m' ∧ m'.heap = m.heap ∧
      m'.data = if m.heap (site 0) m.mar = m.data 1 ∧ m.heap (site 3) m.mar = m.data 2 then
        Function.update m.data argResult (m.heap (site 7) m.mar) else m.data := by
  have hsites : sites site cacheread = (site 0, instrOf .memRead) :: (site 1, instrOf .mbrEqualsData1) ::
      (site 2, instrOf .cret) :: (site 3, instrOf .memRead) :: (site 4, instrOf .mbrEqualsData2) ::
      (site 5, instrOf .cret) :: (site 6, instrOf .rts) :: (site 7, instrOf .memRead) ::
      (site 8, instrOf .mbrStore) :: (site 9, .nop) :: (site 10, .nop) :: (site 11, instrOf .return_) ::
      (site 12, instrOf .eof) :: [] := rfl
  have hd1 : (instrOf .mbrEqualsData1).decode = some ⟨⟨.mbrEqualsData1, some .mbrEqualsD1, none⟩, 19⟩ := by
    decide +kernel
  have hd2 : (instrOf .mbrEqualsData2).decode = some ⟨⟨.mbrEqualsData2, some .mbrEqualsD2, none⟩, 20⟩ := by
    decide +kernel
  have hstore : (instrOf .mbrStore).decode = some ⟨⟨.mbrStore, some .mbrStore, none⟩, 16⟩ := by decide +kernel
  rw [hsites, perform_compare hd1 rfl rfl (by simp) (fun _ => rfl) hm h0]
  split_ifs with hkey0 hboth hboth
  · -- the upper half is found, and so is the lower one
    rw [perform_compare (m := { m with mbr := 0 }) hd2 rfl rfl (by simp) (fun _ => rfl) hm h3, if_pos hboth.2]
    have hread : perform crc16 own (site 7, instrOf .memRead) { m with mbr := 0 } =
        .ok ⟨⟩ { m with mbr := m.heap (site 7) m.mar } := perform_memRead hm h7
    have hwrite : perform crc16 own (site 8, instrOf .mbrStore) { m with mbr := m.heap (site 7) m.mar } =
        .ok ⟨⟩ { m with
          mbr := m.heap (site 7) m.mar, data := Function.update m.data argResult (m.heap (site 7) m.mar) } :=
      perform_common (x := (site 8, instrOf .mbrStore)) hstore rfl rfl (by simp) hm
    rw [forM_cons_ok (by rw [perform_rts]; rfl), forM_cons_ok hread, forM_cons_ok hwrite,
      forM_cons_ok (by rw [perform_nop]; rfl), forM_cons_ok (by rw [perform_nop]; rfl),
      forM_cons_error (perform_return (by exact hm))]
    exact ⟨_, rfl, rfl, rfl⟩
  · rw [perform_compare (m := { m with mbr := 0 }) hd2 rfl rfl (by simp) (fun _ => rfl) hm h3,
      if_neg fun hkey1 => hboth ⟨hkey0, hkey1⟩]
    exact ⟨_, rfl, rfl, rfl⟩
  · exact absurd hboth.1 hkey0
  · exact ⟨_, rfl, rfl, rfl⟩

/-- The program that writes a word, at the first stage. -/
def memset : List ActiveInstr := [instrOf .memWrite, instrOf .return_, instrOf .eof]

/-- **What `memset` means**: it writes the word. -/
theorem forM_memset {site : ℕ → Stage} (hm : m.disabled = false) (h0 : own (site 0) m.mar) :
    (sites site memset).forM (perform crc16 own) m = .error ⟨⟩ (m.write (site 0) m.mbr) := by
  have hsites : sites site memset = (site 0, instrOf .memWrite) :: (site 1, instrOf .return_) ::
      (site 2, instrOf .eof) :: [] := rfl
  have hreturn : perform crc16 own (site 1, instrOf .return_) (m.write (site 0) m.mbr) =
      .error ⟨⟩ (m.write (site 0) m.mbr) := perform_return hm
  rw [hsites, forM_cons_ok (perform_memWrite hm h0), forM_cons_error hreturn]

end Programs

/-- A program with no-ops before it. -/
theorem places_replicate (code : List ActiveInstr) (s : ℕ) :
    Places .nop code (List.replicate s .nop ++ code) fun k => s + k := by
  refine ⟨fun i j hij _ => Nat.add_lt_add_left hij s, fun i hi => ?_, fun i _ => ?_, fun q hq hne => ?_⟩
  · rw [List.length_append, List.length_replicate]
    exact Nat.add_lt_add_left hi s
  · rw [List.getElem?_append_right (by simp), List.length_replicate, Nat.add_sub_cancel_left]
  · rcases Nat.lt_or_ge q s with h | h
    · rw [List.getElem?_append_left (by simpa using h), List.getElem?_replicate, if_pos h]
    · rw [List.length_append, List.length_replicate] at hq
      exact absurd (Nat.add_sub_cancel' h) (hne (q - s) (by omega))

/-- The program that the client has for a stage, but not for the last one. -/
theorem memset_of_build {s : Stage} (hs : s ≠ 19) {program : ClientProgram}
    (h : buildMemsetProgram s = some program) : program.code = List.replicate s .nop ++ memset := by
  have hlt : s.val < 19 := lt_of_le_of_ne (Nat.lt_succ_iff.1 s.isLt) fun h => hs (Fin.ext h)
  have hbuild := buildMemsetProgram_eq ⟨s, hlt⟩
  rw [h] at hbuild
  rw [Option.some.inj hbuild]
  rfl

/-! ### Requests on the switch -/

/-- The stage of a column. -/
def CacheContext.stage (c : CacheContext) : CacheColumn → Stage
  | .key0 => c.stageIdKey0
  | .key1 => c.stageIdKey1
  | .value => c.stageIdValue

/-- The table in the memory of the switch. -/
def CacheContext.table (c : CacheContext) (heap : Stages) : CacheTable := fun a col => heap (c.stage col) a

namespace CacheRequest

/-- The program of a request: that of its stage, or the client's own. -/
def program (c : CacheContext) (mutant : List ActiveInstr) : CacheRequest → Option (List ActiveInstr)
  | .put col _ _ => (buildMemsetProgram (c.stage col)).map ClientProgram.code
  | .get _ _ _ => some mutant

/-- The arguments of a request. -/
def Fills (args : Args) : CacheRequest → Prop
  | .put _ a v => args argMar = a ∧ args argMbr = v
  | .get a key0 key1 => args argMar = a ∧ args argMbr = key0 ∧ args argMbr2 = key1

/-- **A packet carries a request**: the program, the arguments, and an address that the function may access in
all stages. -/
structure CarriedBy (sw : Switch) (f : BitVec 16) (c : CacheContext) (mutant : List ActiveInstr) (p : Session)
    (r : CacheRequest) : Prop where
  fid : p.pkt.state.fid = f
  preload : p.pkt.flagPreload = true
  enabled : p.pkt.state.disabled = false
  fills : r.Fills p.pkt.state.data
  owned : ∀ col, sw.Cell f (c.stage col) r.addr
  ready : ∃ code, r.program c mutant = some code ∧ Ready p.env sw p.pkt code

end CacheRequest

/-- A packet is as ready in any other memory. -/
theorem Ready.within {env : Environment} {sw : Switch} {pkt : Arrival} {p : List ActiveInstr}
    (h : Ready env sw pkt p) (n : Word) (heap : Stages) : Ready (env.counting n) sw (pkt.within heap) p :=
  ⟨⟨h.carries.program, h.carries.length_le, h.carries.words, h.carries.notDone, h.carries.noHeaders⟩,
    h.language, h.quota, h.routed, h.complete, h.dropped, h.bypassEgress⟩

/-- **A mutant that has its accesses at the stages of the columns.** -/
def CacheContext.Hosts (c : CacheContext) (mutant : List ActiveInstr) : Prop :=
  ∃ dst, Places .nop cacheread mutant dst ∧ stageOf (dst 0) = c.stage .key0 ∧ stageOf (dst 3) = c.stage .key1 ∧
    stageOf (dst 7) = c.stage .value

/-- The stages that the application chooses are those that the mutation meets. -/
theorem accessIdxAllocated_of_chosen {valid : Stage → Bool} {c : CacheContext} (h : Chosen valid c)
    (h3 : (List.finRange 20).countP valid = 3) :
    accessIdxAllocated valid = [c.stageIdKey0.val, c.stageIdKey1.val, c.stageIdValue.val] := by
  obtain ⟨⟨hv0, hv1, hv2⟩, h01, h12⟩ := h
  have hsub : [c.stageIdKey0, c.stageIdKey1, c.stageIdValue].Subperm ((List.finRange 20).filter valid) := by
    refine List.Nodup.subperm ?_ fun i hi => List.mem_filter.2 ⟨List.mem_finRange i, ?_⟩
    · simp [h01.ne, h12.ne, (h01.trans h12).ne]
    · simp only [List.mem_cons, List.not_mem_nil, or_false] at hi
      rcases hi with rfl | rfl | rfl
      · exact hv0
      · exact hv1
      · exact hv2
  have hperm := hsub.perm_of_length_le (by rw [← List.countP_eq_length_filter, h3]; rfl)
  have hsorted : [c.stageIdKey0, c.stageIdKey1, c.stageIdValue].Pairwise (· < ·) := by
    simp [h01, h12, h01.trans h12]
  have heq := hperm.eq_of_pairwise (fun a b _ _ hab hba => absurd (hab.trans hba) (lt_irrefl a)) hsorted
    ((List.pairwise_lt_finRange 20).filter _)
  rw [accessIdxAllocated, ← heq]
  rfl

/-- **The client's mutant has its accesses at the stages of the columns.** -/
theorem hosts_of_mutate {valid : Stage → Bool} {c : CacheContext} {mutant : List ActiveInstr}
    (h : Chosen valid c) (h3 : (List.finRange 20).countP valid = 3)
    (hmutant : mutateActiveProgram ActiveInstr.isMemaccess .nop ⟨cacheread, [0, 3, 7], cacheread⟩ valid =
      some mutant)
    (haligned : isOriginal valid [0, 3, 7] = false → Aligned [0, 3, 7] (accessIdxAllocated valid)) :
    c.Hosts mutant := by
  have hallocated := accessIdxAllocated_of_chosen h h3
  cases horiginal : isOriginal valid [0, 3, 7] with
  | true =>
      rw [mutateActiveProgram, if_pos horiginal] at hmutant
      obtain rfl := Option.some.inj hmutant
      -- three stages with memory, among them these three
      have hmem : ∀ y ∈ [0, 3, 7], (stageOf y).val ∈ [c.stageIdKey0.val, c.stageIdKey1.val, c.stageIdValue.val] :=
        fun y hy => hallocated ▸ mem_accessIdxAllocated.2 ⟨stageOf y, List.all_eq_true.1 horiginal y hy, rfl⟩
      have h0 := hmem 0 (by simp)
      have h3 := hmem 3 (by simp)
      have h7 := hmem 7 (by simp)
      have hval : (stageOf 0).val = 0 ∧ (stageOf 3).val = 3 ∧ (stageOf 7).val = 7 := by decide
      rw [hval.1] at h0
      rw [hval.2.1] at h3
      rw [hval.2.2] at h7
      have h01 : c.stageIdKey0.val < c.stageIdKey1.val := h.ascending.1
      have h12 : c.stageIdKey1.val < c.stageIdValue.val := h.ascending.2
      simp only [List.mem_cons, List.not_mem_nil, or_false] at h0 h3 h7
      refine ⟨id, places_self cacheread, Fin.ext (hval.1.trans ?_), Fin.ext (hval.2.1.trans ?_),
        Fin.ext (hval.2.2.trans ?_)⟩ <;> simp only [CacheContext.stage] <;> omega
  | false =>
      obtain ⟨-, dst, hplaces, hstages⟩ :=
        exists_places_moved accesses_cacheread hmutant horiginal (haligned horiginal)
      rw [hallocated] at hstages
      refine ⟨dst, hplaces, Fin.ext (hstages (0, c.stageIdKey0.val) ?_),
        Fin.ext (hstages (3, c.stageIdKey1.val) ?_), Fin.ext (hstages (7, c.stageIdValue.val) ?_)⟩ <;> simp

section Requests

variable {sw : Switch} {f : BitVec 16} {c : CacheContext} {mutant : List ActiveInstr} {p : Session}
  {r : CacheRequest}

/-- The machine of a packet whose registers are loaded from its data. -/
def Session.machine (p : Session) (heap : Stages) : Machine where
  hashData := p.pkt.state.hashData
  mar := p.pkt.state.data argMar
  mbr := p.pkt.state.data argMbr
  mbr2 := p.pkt.state.data argMbr2
  data := p.pkt.state.data
  disabled := p.pkt.state.disabled
  heap := heap

theorem machine_ingressStart (h : p.pkt.flagPreload = true) (n : Word) (heap : Stages) :
    (ingressStart (p.env.counting n) (p.pkt.within heap)).machine = p.machine heap := by
  have hpreload : (p.pkt.within heap).flagPreload = true := h
  simp only [ingressStart, hpreload, if_true]
  rfl

/-- **A program that returns**: its packet leaves with what it means in the memory that it found. -/
theorem Session.outcome_returns {code : List ActiveInstr} {m : Machine} (hserves : Serves sw p.pkt.state.fid)
    (hready : Ready p.env sw p.pkt code) (hpreload : p.pkt.flagPreload = true) (s : Stages × Word)
    (h : meaning p.env sw p.pkt.state.fid stageOf code (p.machine s.1) = .error ⟨⟩ m) :
    (p.outcome sw s).machine = m := by
  have hserves : Serves sw (p.pkt.within s.1).state.fid := hserves
  have hmeaning : meaning (p.env.counting (s.2 + 1)) sw (p.pkt.within s.1).state.fid stageOf code
      (ingressStart (p.env.counting (s.2 + 1)) (p.pkt.within s.1)).machine = .error ⟨⟩ m := by
    rw [machine_ingressStart hpreload]
    exact h
  exact (hserves.process_returns (hready.within (s.2 + 1) s.1) hmeaning).1

/-- **A session is a request**: its packet leaves the table as the request leaves it, and carries what the
request finds. -/
theorem CacheRequest.CarriedBy.serve (h : r.CarriedBy sw f c mutant p) (hserves : Serves sw f)
    (hstages : Function.Injective c.stage) (hlast : ∀ col, c.stage col ≠ 19) (hhosts : c.Hosts mutant)
    (s : Stages × Word) :
    c.table (serve sw s p).1 = r.apply (c.table s.1) ∧
      (p.outcome sw s).data argResult = (r.answer (c.table s.1)).getD (p.pkt.state.data argResult) := by
  obtain rfl := h.fid
  obtain ⟨code, hcode, hready⟩ := h.ready
  cases r with
  | put col a v =>
      obtain ⟨program, hbuild, rfl⟩ := Option.map_eq_some_iff.1 hcode
      obtain ⟨rfl, rfl⟩ := h.fills
      have hsite : stageOf ((c.stage col).val + 0) = c.stage col := stageOf_val (c.stage col)
      have hmeaning : meaning p.env sw p.pkt.state.fid stageOf program.code (p.machine s.1) =
          .error ⟨⟩ ((p.machine s.1).write (c.stage col) (p.machine s.1).mbr) := by
        rw [memset_of_build (hlast col) hbuild, meaning_of_places (places_replicate memset (c.stage col))]
        refine (forM_memset h.enabled (hsite.symm ▸ h.owned col)).trans ?_
        rw [hsite]
      have hend := p.outcome_returns hserves hready h.preload s hmeaning
      refine ⟨?_, congrFun (congrArg Machine.data hend) argResult⟩
      have hheap : (ActiveRmt.serve sw s p).1 = writeHeap s.1 (c.stage col) (p.pkt.state.data argMar)
          (p.pkt.state.data argMbr) := congrArg Machine.heap hend
      rw [hheap]
      funext b col'
      rw [CacheRequest.apply_put]
      simp only [CacheContext.table, writeHeap, Function.update_apply, hstages.eq_iff]
      split_ifs <;> simp_all
  | get a key0 key1 =>
      obtain rfl := Option.some.inj hcode
      obtain ⟨rfl, rfl, rfl⟩ := h.fills
      obtain ⟨dst, hplaces, hkey0, hkey1, hvalue⟩ := hhosts
      obtain ⟨m, hrun, hheap, hdata⟩ : ∃ m, meaning p.env sw p.pkt.state.fid (fun k => stageOf (dst k)) cacheread
          (p.machine s.1) = .error ⟨⟩ m ∧ m.heap = s.1 ∧ m.data =
            if s.1 (stageOf (dst 0)) (p.pkt.state.data argMar) = p.pkt.state.data argMbr ∧
                s.1 (stageOf (dst 3)) (p.pkt.state.data argMar) = p.pkt.state.data argMbr2 then
              Function.update p.pkt.state.data argResult (s.1 (stageOf (dst 7)) (p.pkt.state.data argMar))
            else p.pkt.state.data :=
        forM_cacheread h.enabled (hkey0.symm ▸ h.owned .key0) (hkey1.symm ▸ h.owned .key1)
          (hvalue.symm ▸ h.owned .value)
      have hmeaning : meaning p.env sw p.pkt.state.fid stageOf mutant (p.machine s.1) = .error ⟨⟩ m := by
        rw [meaning_of_places hplaces]
        exact hrun
      have hend := p.outcome_returns hserves hready h.preload s hmeaning
      have hfinal : (ActiveRmt.serve sw s p).1 = s.1 := (congrArg Machine.heap hend).trans hheap
      have hresult : (p.outcome sw s).data = m.data := congrArg Machine.data hend
      refine ⟨by rw [hfinal]; rfl, ?_⟩
      have hanswer : (CacheRequest.get (p.pkt.state.data argMar) (p.pkt.state.data argMbr)
          (p.pkt.state.data argMbr2)).answer (c.table s.1) =
          if s.1 (c.stage .key0) (p.pkt.state.data argMar) = p.pkt.state.data argMbr ∧
              s.1 (c.stage .key1) (p.pkt.state.data argMar) = p.pkt.state.data argMbr2 then
            some (s.1 (c.stage .value) (p.pkt.state.data argMar)) else none := rfl
      rw [hresult, hdata, hkey0, hkey1, hvalue, hanswer]
      by_cases hfound : s.1 (c.stage .key0) (p.pkt.state.data argMar) = p.pkt.state.data argMbr ∧
          s.1 (c.stage .key1) (p.pkt.state.data argMar) = p.pkt.state.data argMbr2
      · rw [if_pos hfound, if_pos hfound]
        exact Function.update_self ..
      · rw [if_neg hfound, if_neg hfound]
        rfl

/-- Sessions, one after the other, are requests to one table. -/
theorem table_foldl_serve (hserves : Serves sw f) (hstages : Function.Injective c.stage)
    (hlast : ∀ col, c.stage col ≠ 19) (hhosts : c.Hosts mutant) {qs : List (Session × CacheRequest)}
    (hqs : ∀ q ∈ qs, q.2.CarriedBy sw f c mutant q.1) (s : Stages × Word) :
    c.table ((qs.map Prod.fst).foldl (serve sw) s).1 =
      (qs.map Prod.snd).foldl CacheRequest.apply (c.table s.1) := by
  induction qs generalizing s with
  | nil => rfl
  | cons q qs ih =>
      obtain ⟨hq, hrest⟩ := List.forall_mem_cons.1 hqs
      rw [List.map_cons, List.map_cons, List.foldl_cons, List.foldl_cons, ih hrest,
        (hq.serve hserves hstages hlast hhosts s).1]

end Requests

/-! ### What the timer leaves out -/

namespace Filling

variable {c : CacheContext} {item : CacheItem} {all items : List CacheItem} {s s' : Filling}

/-- **What the loop of the timer has counted**: the cells that are taken, each with an item of it. -/
structure Tally (c : CacheContext) (all : List CacheItem) (taken : Finset ℕ) (s : Filling) : Prop where
  bloom : ∀ a, s.bloom a = true ↔ a ∈ taken
  numStored : s.numStored = taken.card
  addr : ∀ a ∈ taken, ∃ x ∈ all, x.paddr.toNat = a
  value : ∀ a ∈ taken, s.data c.stageIdValue a = 1

theorem Tally.empty (c : CacheContext) (all : List CacheItem) : Tally c all ∅ Filling.empty :=
  ⟨by simp [Filling.empty], rfl, by simp, by simp⟩

theorem Tally.store {taken : Finset ℕ} (h : Tally c all taken s) (hitem : item ∈ all)
    (hfree : s.bloom item.paddr.toNat = false) :
    Tally c all (insert item.paddr.toNat taken) (s.store c item) := by
  have hnot : item.paddr.toNat ∉ taken := fun hmem => by
    rw [(h.bloom _).2 hmem] at hfree
    cases hfree
  refine ⟨fun a => ?_, ?_, fun a ha => ?_, fun a ha => ?_⟩
  · rw [bloom_store, Bool.or_eq_true, decide_eq_true_eq, h.bloom, Finset.mem_insert]
  · rw [Finset.card_insert_of_notMem hnot, ← h.numStored]
    rfl
  · rcases Finset.mem_insert.1 ha with rfl | ha
    · exact ⟨item, hitem, rfl⟩
    · exact h.addr a ha
  · rw [data_store, if_pos rfl]
    split_ifs with heq
    · rfl
    · exact h.value a ((Finset.mem_insert.1 ha).resolve_left heq)

/-- The loop of the timer ends when it has gone through all items, or has stored as many as there are cells. -/
theorem Tally.storeItems {taken : Finset ℕ} (h : Tally c all taken s) (hall : ∀ x ∈ items, x ∈ all)
    (hloop : storeItems c items s = .ok s') :
    ∃ taken', taken ⊆ taken' ∧ Tally c all taken' s' ∧
      ((∀ x ∈ items, x.paddr.toNat ∈ taken') ∨ c.memorySize.toInt ≤ taken'.card) := by
  induction items generalizing s taken with
  | nil =>
      rw [ActiveRmt.storeItems, Outcome.ok.injEq] at hloop
      exact ⟨taken, Finset.Subset.rfl, hloop ▸ h, .inl (by simp)⟩
  | cons item items ih =>
      obtain ⟨hitem, hitems⟩ := List.forall_mem_cons.1 hall
      rw [ActiveRmt.storeItems] at hloop
      split_ifs at hloop with hnum hmax hbloom hzero hdata
      · -- the cell is taken
        obtain ⟨taken', hsub, htally, hend⟩ := ih h hitems hloop
        exact ⟨taken', hsub, htally, hend.imp_left fun hrest =>
          List.forall_mem_cons.2 ⟨hsub ((h.bloom _).1 hbloom), hrest⟩⟩
      · obtain ⟨taken', hsub, htally, hend⟩ := ih (h.store hitem (by simpa using hbloom)) hitems hloop
        exact ⟨taken', (Finset.subset_insert ..).trans hsub, htally, hend.imp_left fun hrest =>
          List.forall_mem_cons.2 ⟨hsub (Finset.mem_insert_self ..), hrest⟩⟩
      · rw [Outcome.ok.injEq] at hloop
        refine ⟨taken, Finset.Subset.rfl, hloop ▸ h, .inr ?_⟩
        rw [← h.numStored]
        exact not_lt.1 hnum

/-- There are no more addresses of requests than cells. -/
theorem mem_addresses {crc : BitVec 64 → BitVec 32} {key : BitVec 64} {a : Word}
    (h : c.requestAddress crc key = some a) :
    a.toNat ∈ (Finset.range c.memorySize.toNat).image fun v => (c.memoryStart + BitVec.ofNat 32 v).toNat := by
  rw [CacheContext.requestAddress] at h
  split_ifs at h with hsize
  obtain rfl := Option.some.inj h
  have hpos : 0 < c.memorySize.toNat := by
    rw [Nat.pos_iff_ne_zero]
    intro hzero
    exact hsize (by rw [BitVec.eq_of_toNat_eq (x := c.memorySize) (y := 0) hzero]; decide)
  refine Finset.mem_image.2 ⟨(crc key % c.memorySize).toNat, Finset.mem_range.2 ?_, ?_⟩
  · rw [BitVec.toNat_umod]
    exact Nat.mod_lt _ hpos
  · rw [BitVec.ofNat_toNat, BitVec.setWidth_eq]

/-- **The timer passes over no address that was asked for**: each has an item, and the value says so. -/
theorem covered_storeItems {crc : BitVec 64 → BitVec 32} (hsize : 0 < c.memorySize.toInt)
    (haddr : ∀ x ∈ all, c.requestAddress crc x.key = some x.paddr)
    (hloop : ActiveRmt.storeItems c all Filling.empty = .ok s') :
    ∀ x ∈ all, s'.data c.stageIdValue x.paddr.toNat = 1 := by
  obtain ⟨taken, -, htally, hend⟩ := (Tally.empty c all).storeItems (fun _ h => h) hloop
  intro x hx
  refine htally.value _ ?_
  rcases hend with hall | hfull
  · exact hall x hx
  · -- as many cells as there are addresses
    have hsub : taken ⊆ (Finset.range c.memorySize.toNat).image fun v =>
        (c.memoryStart + BitVec.ofNat 32 v).toNat := fun a ha => by
      obtain ⟨y, hy, rfl⟩ := htally.addr a ha
      exact mem_addresses (haddr y hy)
    have hcard : ((Finset.range c.memorySize.toNat).image fun v =>
        (c.memoryStart + BitVec.ofNat 32 v).toNat).card ≤ taken.card := by
      refine Finset.card_image_le.trans ?_
      rw [Finset.card_range]
      rw [BitVec.toInt_eq_toNat_cond] at hfull hsize
      split_ifs at hfull hsize <;> omega
    rw [Finset.eq_of_subset_of_card_le hsub hcard]
    exact mem_addresses (haddr x hx)

end Filling

/-- A key is its two halves. -/
theorem eq_of_halves {k k' : BitVec 64} (hhigh : k.extractLsb' 32 32 = k'.extractLsb' 32 32)
    (hlow : k.extractLsb' 0 32 = k'.extractLsb' 0 32) : k = k' := by
  have hhigh := congrArg BitVec.toNat hhigh
  have hlow := congrArg BitVec.toNat hlow
  simp only [BitVec.extractLsb'_toNat, Nat.shiftRight_eq_div_pow] at hhigh hlow
  exact BitVec.eq_of_toNat_eq (by omega)

section Ticks

variable {crc : BitVec 64 → BitVec 32} {sort : (CacheItem → CacheItem → ℤ) → List CacheItem → List CacheItem}
  {s s' : CacheState} {data : Stage → ℕ → BitVec 32} {key : BitVec 64} {a : Word}

/-- **A key of the table**: both of its halves are at its address, with the value. -/
def CacheContext.Stored (c : CacheContext) (data : Stage → ℕ → BitVec 32) (key : BitVec 64) (a : Word) : Prop :=
  data c.stageIdKey0 a.toNat = key.extractLsb' 32 32 ∧ data c.stageIdKey1 a.toNat = key.extractLsb' 0 32 ∧
    data c.stageIdValue a.toNat = 1

/-- A tick leaves the stages and the addresses alone. -/
theorem requestAddress_tick (htick : s.handle crc sort .tick = .ok s') (key : BitVec 64) :
    s'.ctxt.requestAddress crc key = s.ctxt.requestAddress crc key ∧ s'.asked = s.asked := by
  obtain ⟨x, htimer, rfl⟩ := handle_tick_eq_ok htick
  obtain ⟨filling, -, rfl⟩ := timerCache_eq_ok htimer
  exact ⟨rfl, rfl⟩

/-- **What the timer stores for an address**: a key that was asked for at least as often as any other with
this address. -/
theorem CacheInvariant.stored_most (hsort : Sorts sort) (h : CacheInvariant s) (ht : Timely crc s .tick)
    (htick : s.handle crc sort .tick = .ok s') (hdata : s'.wrote = some data)
    (ha : s.ctxt.requestAddress crc key = some a) (hvalue : data s'.ctxt.stageIdValue a.toNat ≠ 0) :
    ∃ k ∈ s.asked, s'.ctxt.Stored data k a ∧ s.ctxt.requestAddress crc k = some a ∧
      ∀ k' ∈ s.asked, s.ctxt.requestAddress crc k' = some a → s.asked.count k' ≤ s.asked.count k := by
  obtain ⟨-, k, hk, paddr, haddr, heq, hkey0, hkey1, hone, hmost⟩ :=
    h.entriesRight hsort ht htick data hdata _ _ hvalue
  obtain rfl : paddr = a := BitVec.eq_of_toNat_eq heq
  rw [(requestAddress_tick htick k).2] at hk hmost
  rw [(requestAddress_tick htick k).1] at haddr
  refine ⟨k, hk, ⟨hkey0, hkey1, hone⟩, haddr, fun k' hk' hk'a => hmost k' hk' ?_⟩
  rw [(requestAddress_tick htick k').1, hk'a]

/-- **The timer stores a key for every address that was asked for.** -/
theorem CacheInvariant.value_tick (hsort : Sorts sort) (h : CacheInvariant s) (ht : Timely crc s .tick)
    (htick : s.handle crc sort .tick = .ok s') (hdata : s'.wrote = some data) (hkey : key ∈ s.asked)
    (ha : s.ctxt.requestAddress crc key = some a) : data s'.ctxt.stageIdValue a.toNat = 1 := by
  obtain ⟨x, htimer, rfl⟩ := handle_tick_eq_ok htick
  obtain ⟨filling, hloop, rfl⟩ := timerCache_eq_ok htimer
  obtain rfl : filling.data = data := Option.some.inj hdata
  have hsize : 0 < s.ctxt.memorySize.toInt := by
    rw [CacheContext.requestAddress] at ha
    split_ifs at ha
    omega
  have hperm := hsort.perm compareElementsCache s.ctxt.requestedItems
  obtain ⟨item, hitem, rfl⟩ := h.counted.exists_item h.inj hkey
  obtain rfl : item.paddr = a := Option.some.inj ((ht hsize item hitem).1.symm.trans ha)
  exact Filling.covered_storeItems (c := s.ctxt.sorted sort) hsize
    (fun y hy => (ht hsize y (hperm.mem_iff.1 hy)).1) hloop item (hperm.mem_iff.2 hitem)

/-- The arguments of a request: its address, the halves of its key, and no result. -/
theorem args_of_written {c : CacheContext} {inet : Buffer} {args : Args}
    (h : (payloadParserCache crc c inet).2 = .written args) :
    c.requestAddress crc (inet.readHost64 payloadStart) = some (args argMar) ∧
      args argMbr = (inet.readHost64 payloadStart).extractLsb' 32 32 ∧
      args argMbr2 = (inet.readHost64 payloadStart).extractLsb' 0 32 ∧ args argResult = 0 := by
  refine ⟨payloadParserCache_written h, ?_⟩
  rw [payloadParserCache] at h
  split_ifs at h
  dsimp only at h
  split at h
  · cases h
  · rw [← TxFill.written.inj h]
    exact ⟨rfl, rfl, rfl⟩

/-- **A lookup in the table that a tick has written** finds a key that is most frequent, and finds every key
that is more frequent than the others with its address. -/
theorem CacheInvariant.answer_tick (hsort : Sorts sort) (h : CacheInvariant s) (ht : Timely crc s .tick)
    (htick : s.handle crc sort .tick = .ok s') (hdata : s'.wrote = some data) {t : CacheTable}
    (ha : s'.ctxt.requestAddress crc key = some a)
    (hrow : ∀ col, t a col = data (s'.ctxt.stage col) a.toNat) {result : Word}
    (hresult : result = ((CacheRequest.get a (key.extractLsb' 32 32) (key.extractLsb' 0 32)).answer t).getD 0) :
    (result ≠ 0 → key ∈ s.asked ∧ ∀ k' ∈ s.asked, s.ctxt.requestAddress crc k' = some a →
        s.asked.count k' ≤ s.asked.count key) ∧
      (key ∈ s.asked → (∀ k' ∈ s.asked, k' ≠ key → s.ctxt.requestAddress crc k' = some a →
        s.asked.count k' < s.asked.count key) → result = 1) := by
  rw [(requestAddress_tick htick key).1] at ha
  rw [CacheRequest.answer, hrow, hrow, hrow] at hresult
  by_cases hfound : data (s'.ctxt.stage .key0) a.toNat = key.extractLsb' 32 32 ∧
      data (s'.ctxt.stage .key1) a.toNat = key.extractLsb' 0 32
  · obtain rfl : result = data s'.ctxt.stageIdValue a.toNat := by
      rw [hresult, if_pos hfound]
      rfl
    refine ⟨fun hvalue => ?_, fun hkey _ => h.value_tick hsort ht htick hdata hkey ha⟩
    obtain ⟨k, hk, hstored, -, hmost⟩ := h.stored_most hsort ht htick hdata ha hvalue
    -- the key of the address is this one
    obtain rfl : k = key := eq_of_halves (hstored.1.symm.trans hfound.1) (hstored.2.1.symm.trans hfound.2)
    exact ⟨hk, hmost⟩
  · obtain rfl : result = 0 := by
      rw [hresult, if_neg hfound]
      rfl
    refine ⟨fun hne => absurd rfl hne, fun hkey hmost => ?_⟩
    have hvalue := h.value_tick hsort ht htick hdata hkey ha
    obtain ⟨k, hk, hstored, haddr, hle⟩ := h.stored_most hsort ht htick hdata ha
      (by rw [hvalue]; decide)
    have hne : k ≠ key := by
      rintro rfl
      exact hfound ⟨hstored.1, hstored.2.1⟩
    exact absurd (hle key hkey ha) (Nat.not_le.2 (hmost k hk hne haddr))

end Ticks

/-! ### One key -/

/-- The arguments of a request, in the order of the registers. -/
def CacheRequest.args : CacheRequest → Args
  | .put _ a v => Function.update (Function.update (fun _ => 0) argMar a) argMbr v
  | .get a key0 key1 =>
      Function.update (Function.update (Function.update (fun _ => 0) argMar a) argMbr key0) argMbr2 key1

/-- The stages of `cacheread` have two cells. -/
def twoCells : MemoryRegion :=
  { MemoryRegion.zero with
    syncData := fun _ => ⟨fun _ => 0, fun _ => false, 4, 5⟩
    validStages := fun s => decide (s.val ∈ [0, 3, 7]) }

/-- A context with two cells. -/
def twoCellContext (items : List CacheItem) (trigger : Bool) : CacheContext := ⟨0, 3, 7, 4, 2, items, trigger⟩

/-- A request for the first function, with its program where it is. -/
def sessionFor (k : ℕ) (r : CacheRequest) : Session where
  k := k
  pkt := clientPacket 1 r.args (fun _ _ => 0) (match r with
    | .put col _ _ => List.replicate ((twoCellContext [] false).stage col).val .nop ++ memset
    | .get _ _ _ => cacheread)
  env := quietEnvironment
  steps := 160
  enough := by omega

/-- Requests with numbers. -/
def numbered (ks : List (ℕ × CacheRequest)) : List (Session × CacheRequest) :=
  ks.map fun q => (sessionFor q.1 q.2, q.2)

theorem carriedBy_sessionFor {sw : Switch} (items : List CacheItem) (trigger : Bool) (k : ℕ) {r : CacheRequest}
    (h : ∀ col, sw.Cell 1 ((twoCellContext [] false).stage col) r.addr) :
    r.CarriedBy sw 1 (twoCellContext items trigger) cacheread (sessionFor k r) where
  fid := rfl
  preload := rfl
  enabled := rfl
  fills := by cases r <;> simp [CacheRequest.Fills, sessionFor, clientPacket, CacheRequest.args, argMar, argMbr,
    argMbr2]
  owned col := by
    have hcol := h col
    cases col <;> exact hcol
  ready := by
    cases r with
    | put col a v =>
        have hs : (twoCellContext items trigger).stage col = (twoCellContext [] false).stage col := by
          cases col <;> rfl
        have hlast : (twoCellContext [] false).stage col ≠ 19 := by cases col <;> decide
        have hlen : ((twoCellContext [] false).stage col).val ≤ 7 := by cases col <;> decide
        obtain ⟨program, hbuild, hprogram⟩ := buildMemsetProgram_accesses hlast
        have hcode := memset_of_build hlast hbuild
        refine ⟨program.code, ?_, ?_⟩
        · rw [CacheRequest.program, hs, hbuild]
          rfl
        · have heof := hprogram.eofTerminated (by simp; decide)
          rw [hcode] at heof ⊢
          refine ready_clientPacket heof (by simp [memset]; omega) fun c hc => ?_
          have hmemset : ∀ c ∈ memset, c.inLanguage = true := by decide +kernel
          rcases List.mem_append.1 hc with hc | hc
          · rw [List.eq_of_mem_replicate hc, inLanguage_nop]
          · exact hmemset c hc
    | get a key0 key1 =>
        have hlen : cacheread.length ≤ 20 := by decide
        exact ⟨cacheread, rfl, ready_clientPacket eofTerminated_cacheread hlen inLanguage_cacheread⟩

/-- The steps of sessions of a function concern it. -/
theorem filter_concerns_sessions {f : BitVec 16} {ps : List Session} (hps : ∀ p ∈ ps, p.pkt.state.fid = f) :
    (ps.flatMap Session.events).filter (Network.concerns {f}) = ps.flatMap Session.events := by
  refine List.filter_eq_self.2 fun e he => ?_
  obtain ⟨p, hp, he⟩ := List.mem_flatMap.1 he
  rcases List.mem_cons.1 he with rfl | he
  · exact decide_eq_true (Finset.mem_singleton.2 (hps p hp))
  · rw [List.eq_of_mem_replicate he]
    exact decide_eq_true (Finset.mem_singleton.2 (hps p hp))

/-- The first function has the cells of `cacheread`. -/
theorem exists_twoCells :
    ∃ x : Network, Run (fun x e y => x.Step Controller.smallConfig e y ∧ x.Calm e)
        (Network.start Controller.smallConfig fun _ _ => 0) ((Controller.twoCaches.take 3).map .control) x ∧
      x.controller.mutex = false ∧ (∀ k, x.flights 1 k = none) ∧ (∀ i a, x.heap i a = 0) ∧
      ∀ col, ∀ a ∈ ([4, 5] : List Word), x.controller.switch.Cell 1 ((twoCellContext [] false).stage col) a := by
  have hrun : ((Controller.twoCaches.take 3).foldlM (fun c e => if c.mutex = false ∧ c.Calm e then
      Controller.execute Controller.smallConfig [e] c else none) (Controller.init Controller.smallConfig)).map
        (fun c => decide (c.mutex = false) && [CacheColumn.key0, .key1, .value].all fun col =>
          ([4, 5] : List Word).all fun a => decide (c.switch.Cell 1 ((twoCellContext [] false).stage col) a)) =
      some true := by decide +kernel
  obtain ⟨c, hc, hend⟩ := Option.map_eq_some_iff.1 hrun
  obtain ⟨hm, hcells⟩ := Bool.and_eq_true_iff.1 hend
  have hcontrols := (run_of_foldlM hc).mono fun _ _ _ h => (⟨Controller.step_of_execute h.1, h.2⟩ : _ ∧ _)
  refine ⟨_, Network.run_map_control (x := Network.start Controller.smallConfig fun _ _ => 0) hcontrols,
    of_decide_eq_true hm, fun _ => rfl, fun _ _ => rfl, fun col a ha => ?_⟩
  have hcol : col ∈ [CacheColumn.key0, .key1, .value] := by cases col <;> simp
  exact of_decide_eq_true (List.all_eq_true.1 (List.all_eq_true.1 hcells col hcol) a ha)

/-- The requests are served. -/
theorem exists_served {x : Network} (hm : x.controller.mutex = false)
    (hcells : ∀ col, ∀ a ∈ ([4, 5] : List Word), x.controller.switch.Cell 1 ((twoCellContext [] false).stage col) a)
    (hfree : ∀ k, x.flights 1 k = none) (items : List CacheItem) (trigger : Bool)
    (ks : List (ℕ × CacheRequest)) (hks : ∀ q ∈ ks, q.2.addr ∈ ([4, 5] : List Word))
    (hnodup : (ks.map Prod.fst).Nodup) :
    ∃ es y, Run (fun x e y => (x.Step Controller.smallConfig e y ∧ x.Calm e) ∧ e.isPacket = true) x es y ∧
      es.filter (Network.concerns {1}) = ((numbered ks).map Prod.fst).flatMap Session.events ∧
      ∀ q ∈ numbered ks, q.2.CarriedBy x.controller.switch 1 (twoCellContext items trigger) cacheread q.1 := by
  have hmem : ∀ p ∈ (numbered ks).map Prod.fst, ∃ q ∈ ks, p = sessionFor q.1 q.2 := fun p hp => by
    obtain ⟨_, hr, rfl⟩ := List.mem_map.1 hp
    obtain ⟨q, hq, rfl⟩ := List.mem_map.1 hr
    exact ⟨q, hq, rfl⟩
  have hfid : ∀ p ∈ (numbered ks).map Prod.fst, p.pkt.state.fid = 1 := fun p hp => by
    obtain ⟨q, -, rfl⟩ := hmem p hp
    rfl
  have hnumbers : ((numbered ks).map Prod.fst).map Session.k = ks.map Prod.fst := by simp [numbered, sessionFor]
  obtain ⟨y, hrun⟩ := Network.exists_run_sessions hm hfid (fun p _ => hfree p.k) (by rwa [hnumbers])
  refine ⟨_, y, hrun, filter_concerns_sessions hfid, fun q hq => ?_⟩
  obtain ⟨r, hr, rfl⟩ := List.mem_map.1 hq
  exact carriedBy_sessionFor items trigger r.1 fun col => hcells col _ (hks r hr)

/-- The stages of the context. -/
theorem chosen_twoCells (items : List CacheItem) (trigger : Bool) :
    Chosen twoCells.validStages (twoCellContext items trigger) :=
  ⟨⟨rfl, rfl, rfl⟩, show (0 : Stage) < 3 by decide, show (3 : Stage) < 7 by decide⟩

theorem original_twoCells : isOriginal twoCells.validStages [0, 3, 7] = true := by decide

theorem count_twoCells : (List.finRange 20).countP twoCells.validStages = 3 := by decide

theorem mutant_twoCells : mutateActiveProgram ActiveInstr.isMemaccess .nop ⟨cacheread, [0, 3, 7], cacheread⟩
    twoCells.validStages = some cacheread := by
  rw [mutateActiveProgram, if_pos original_twoCells]

theorem not_moved_twoCells : isOriginal twoCells.validStages [0, 3, 7] = false →
    Aligned [0, 3, 7] (accessIdxAllocated twoCells.validStages) := fun h =>
  nomatch original_twoCells.symm.trans h

section Asked

variable {sort : (CacheItem → CacheItem → ℤ) → List CacheItem → List CacheItem}

/-- The key 7, after a request. -/
def askedItem : CacheItem := ⟨crc32c 7, 4 + crc32c 7 % 2, 7, 1⟩

/-- The application has been asked for the key 7. -/
def askedState : CacheState := ⟨twoCellContext [askedItem] false, 0, [7], none⟩

/-- The words that its timer writes. -/
def askedData : Stage → ℕ → BitVec 32 := (Filling.empty.store (twoCellContext [askedItem] false) askedItem).data

theorem requestAddress_twoCells (items : List CacheItem) (trigger : Bool) (key : BitVec 64) :
    (twoCellContext items trigger).requestAddress crc32c key = some (4 + crc32c key % 2) := rfl

/-- There are two addresses. -/
theorem add_mod_two (v : BitVec 32) : 4 + v % 2 = 4 ∨ 4 + v % 2 = 5 := by
  rcases Nat.mod_two_eq_zero_or_one v.toNat with h | h
  · have hv : v % 2 = 0 := BitVec.eq_of_toNat_eq (by simpa using h)
    exact .inl (by rw [hv]; rfl)
  · have hv : v % 2 = 1 := BitVec.eq_of_toNat_eq (by simpa using h)
    exact .inr (by rw [hv]; rfl)

theorem addr_askedItem : askedItem.paddr = 4 ∨ askedItem.paddr = 5 := add_mod_two (crc32c 7)

theorem addr_askedItem_lt : askedItem.paddr.toNat < 6 := by
  rcases addr_askedItem with h | h <;> rw [h] <;> decide

theorem cacheRun_asked : CacheRun crc32c sort (Timely crc32c) askedState := by
  have hfirst : CacheRun crc32c sort (Timely crc32c) ⟨twoCellContext [] false, 0, [], none⟩ :=
    .step .start (.reset twoCells) (fun _ => by decide) rfl
  have hkey : (requestFor 7).readHost64 payloadStart = 7 := by decide
  refine .step hfirst (.request (requestFor 7)) (fun k hk => ⟨by simp, by simp⟩) ?_
  rw [CacheState.handle, CacheContext.answered, payloadParserCache, if_neg (by decide)]
  dsimp only
  rw [hkey, requestAddress_twoCells]
  rfl

theorem timely_tick_asked : Timely crc32c askedState .tick := by
  intro _ item hitem
  obtain rfl : item = askedItem := List.mem_singleton.1 hitem
  exact ⟨requestAddress_twoCells [askedItem] false 7, addr_askedItem_lt.trans (by decide)⟩

/-- The timer stores the key. -/
theorem handle_tick_asked (hsort : Sorts sort) :
    askedState.handle crc32c sort .tick =
      .ok ⟨twoCellContext [askedItem] true, hhItvlMin, [7], some askedData⟩ := by
  have hsorted : (twoCellContext [askedItem] false).sorted sort = twoCellContext [askedItem] false :=
    congrArg (twoCellContext · false) (List.perm_singleton.1 (hsort.perm compareElementsCache [askedItem]))
  have haddr := addr_askedItem_lt
  have hsize : (Filling.empty.numStored : ℤ) < (twoCellContext [askedItem] false).memorySize.toInt := by decide
  have hkey : ¬ (askedItem.key.extractLsb' 32 32 = 0 ∧ askedItem.key.extractLsb' 0 32 = 0) := by
    change ¬ ((7 : BitVec 64).extractLsb' 32 32 = 0 ∧ (7 : BitVec 64).extractLsb' 0 32 = 0)
    decide
  have hloop : storeItems (twoCellContext [askedItem] false) [askedItem] Filling.empty =
      .ok (Filling.empty.store (twoCellContext [askedItem] false) askedItem) := by
    rw [storeItems, if_pos hsize, if_neg (by unfold maxCacheSize; omega), if_neg (by simp [Filling.empty]),
      if_neg hkey, if_neg (by unfold maxData; omega), storeItems]
  have hitems : (twoCellContext [askedItem] false).requestedItems = [askedItem] := rfl
  have hctxt : askedState.ctxt = twoCellContext [askedItem] false := rfl
  rw [CacheState.handle, timerCache, hctxt, hsorted, hitems, hloop]
  rfl

/-- The words of both cells, written one by one. -/
def cellPuts : List (ℕ × CacheRequest) :=
  [(0, .put .key0 4 (askedData 0 4)), (1, .put .key1 4 (askedData 3 4)), (2, .put .value 4 (askedData 7 4)),
    (3, .put .key0 5 (askedData 0 5)), (4, .put .key1 5 (askedData 3 5)), (5, .put .value 5 (askedData 7 5))]

theorem mem_cellPuts {key : BitVec 64} {a : Word}
    (ha : (twoCellContext [askedItem] true).requestAddress crc32c key = some a) (col : CacheColumn) :
    .put col a (askedData ((twoCellContext [askedItem] true).stage col) a.toNat) ∈
      (numbered cellPuts).map Prod.snd := by
  obtain rfl := Option.some.inj ((requestAddress_twoCells [askedItem] true key).symm.trans ha)
  have hsnd : (numbered cellPuts).map Prod.snd = cellPuts.map Prod.snd := by simp [numbered]
  rw [hsnd]
  rcases add_mod_two (crc32c key) with h | h <;> rw [h] <;> cases col <;> simp [cellPuts, CacheContext.stage, twoCellContext]

/-- The lookup of the key. -/
def askedLookup : CacheRequest :=
  .get askedItem.paddr ((7 : BitVec 64).extractLsb' 32 32) ((7 : BitVec 64).extractLsb' 0 32)

theorem written_askedLookup : (payloadParserCache crc32c (twoCellContext [askedItem] true) (requestFor 7)).2 =
    .written (sessionFor 6 askedLookup).pkt.state.data := by
  have hkey : (requestFor 7).readHost64 payloadStart = 7 := by decide
  rw [payloadParserCache, if_neg (by decide)]
  dsimp only
  rw [hkey, requestAddress_twoCells]
  rfl

end Asked

/-! ### Runs of the switch -/

theorem Chosen.injective {valid : Stage → Bool} {c : CacheContext} (h : Chosen valid c) :
    Function.Injective c.stage := by
  obtain ⟨h01, h12⟩ := h.ascending
  intro col col' heq
  cases col <;> cases col' <;> simp only [CacheContext.stage] at heq <;>
    first
      | rfl
      | exact absurd heq h01.ne
      | exact absurd heq h01.ne'
      | exact absurd heq h12.ne
      | exact absurd heq h12.ne'
      | exact absurd heq (h01.trans h12).ne
      | exact absurd heq (h01.trans h12).ne'

theorem Chosen.stage_valid {valid : Stage → Bool} {c : CacheContext} (h : Chosen valid c) (col : CacheColumn) :
    valid (c.stage col) = true := by
  obtain ⟨h0, h1, h2⟩ := h.valid
  cases col with
  | key0 => exact h0
  | key1 => exact h1
  | value => exact h2

theorem Chosen.stage_ne_last {valid : Stage → Bool} {c : CacheContext} (h : Chosen valid c)
    (hlast : valid 19 = false) (col : CacheColumn) : c.stage col ≠ 19 := fun hcol => by
  have hvalid := h.stage_valid col
  rw [hcol, hlast] at hvalid
  exact Bool.false_ne_true hvalid

namespace Network

variable {cfg : ControllerConfig} {x y : Network} {f : BitVec 16} {heap : Stages} {es₀ es : List NetworkEvent}
  {valid : Stage → Bool} {c : CacheContext} {mutant : List ActiveInstr}

/-- The tables serve a function while its sessions run. -/
theorem serves_of_run (h₀ : Run (fun x e y => x.Step cfg e y ∧ x.Calm e) (start cfg heap) es₀ x)
    (h : Run (fun x e y => (x.Step cfg e y ∧ x.Calm e) ∧ e.isPacket = true) x es y) (hes : es ≠ [])
    (hfid : f.toNat ≤ 255) : Serves x.controller.switch f := by
  obtain ⟨controls, hcontrols⟩ := (sound_of_run h₀).controlled
  cases es with
  | nil => exact absurd rfl hes
  | cons e es =>
      obtain ⟨z, ⟨⟨-, hcalm⟩, -⟩, -⟩ := h.cons_inv
      exact ((Controller.guarded_of_run hcontrols).1.secure hcalm.lock).serves hfid

/-- **The requests of a run**: those before a request have left it its table. -/
theorem table_of_run (h₀ : Run (fun x e y => x.Step cfg e y ∧ x.Calm e) (start cfg heap) es₀ x)
    (h : Run (fun x e y => (x.Step cfg e y ∧ x.Calm e) ∧ e.isPacket = true) x es y) (hfid : f.toNat ≤ 255)
    (hstages : Function.Injective c.stage) (hlast : ∀ col, c.stage col ≠ 19) (hhosts : c.Hosts mutant)
    {qs : List (Session × CacheRequest)} (hqs : ∀ q ∈ qs, q.2.CarriedBy x.controller.switch f c mutant q.1)
    (hes : es.filter (concerns {f}) = (qs.map Prod.fst).flatMap Session.events) :
    (∀ a, (∀ col, x.controller.switch.Cell f (c.stage col) a) →
      c.table y.heap a = (qs.map Prod.snd).foldl CacheRequest.apply (c.table x.heap) a) ∧
    ∀ l q r, qs = l ++ q :: r → ∃ σ, y.flights f q.1.k = some (.departed σ) ∧ σ.data argResult =
      (q.2.answer ((l.map Prod.snd).foldl CacheRequest.apply (c.table x.heap))).getD
        (q.1.pkt.state.data argResult) := by
  obtain ⟨y', hrun, hwords, hflights⟩ := exists_run_alone (f := f) h₀ h fun _ _ _ => rfl
  rw [hes] at hrun
  obtain ⟨hfold, -, hdeparted⟩ := run_sessions hrun fun p hp => by
    obtain ⟨q, hq, rfl⟩ := List.mem_map.1 hp
    exact (hqs q hq).fid
  -- a session has events, and they find the lock free
  have hserves : qs ≠ [] → Serves x.controller.switch f := fun hne => by
    refine serves_of_run h₀ h ?_ hfid
    rintro rfl
    obtain ⟨q, rest, rfl⟩ := List.exists_cons_of_ne_nil hne
    exact absurd hes (by simp [Session.events])
  have htable : ∀ l r, qs = l ++ r →
      c.table ((l.map Prod.fst).foldl (serve x.controller.switch) (x.heap, x.pktCount f)).1 =
        (l.map Prod.snd).foldl CacheRequest.apply (c.table x.heap) := fun l r hl => by
    rcases eq_or_ne l [] with rfl | hne
    · rfl
    · exact table_foldl_serve (hserves (by rw [hl]; simp [hne])) hstages hlast hhosts
        (fun q hq => hqs q (hl ▸ List.mem_append_left r hq)) _
  refine ⟨fun a ha => ?_, fun l q r hl => ?_⟩
  · rw [← htable qs [] (List.append_nil qs).symm, ← congrArg Prod.fst hfold]
    funext col
    exact (hwords (c.stage col) a (ha col)).symm
  · have hq : q ∈ qs := by simp [hl]
    obtain ⟨-, hanswer⟩ := (hqs q hq).serve (hserves (List.ne_nil_of_mem hq)) hstages hlast hhosts
      ((l.map Prod.fst).foldl (serve x.controller.switch) (x.heap, x.pktCount f))
    refine ⟨_, (hflights q.1.k).symm.trans (hdeparted (l.map Prod.fst) q.1 (r.map Prod.fst) (by simp [hl])), ?_⟩
    rw [← htable l (q :: r) hl]
    exact hanswer

end Network

end ActiveRmt
