/-
**The heavy hitters: the address of a key.**

A packet carries the address of its key in two stages, the highest ones with memory.  The address is
counted from the start of the first of them, reduced to the smaller of the two sizes, and put into
sixteen bits.  So it is right in the second stage only if the two ranges lie well to each other, and
in neither if it does not fit.

Main definitions:

* `scanStages`, `hhAddress`, `activeTxHandlerHh` — **the address, and the handler**;
* `Highest` — the two highest stages with memory;
* `WellPlaced` — the address of a packet is in both ranges;
* `OffsetFits`, `RangesFit` — the conditions for a key, and for all keys.

Main results:

* `scanStages_highest` — the loop over the stages finds the two highest;
* `exists_highest` — where two stages have memory there are two highest ones;
* `well_placed_iff` — **exactly when an address is in both ranges**.
-/

import ActiveRmt.CacheTimer

set_option relaxedAutoImplicit false
set_option autoImplicit false

namespace ActiveRmt

/-! ### The handler -/

/-- The loop over the stages, from the last one down: `stage_id_key` and `stage_id_value`, none of
them where the code has `-1`. -/
def scanStages (valid : Stage → Bool) : List Stage → Option Stage → Option Stage × Option Stage
  | [], key => (key, none)
  | i :: stages, none =>
      if valid i = false then scanStages valid stages none else scanStages valid stages (some i)
  | i :: stages, some key =>
      if valid i = false then scanStages valid stages (some key) else (some key, some i)

/-- The number of the cells of a stage. -/
def MemoryStage.size (m : MemoryStage) : BitVec 32 := m.memEnd - m.memStart + 1

/-- `memory_size`: the smaller of two sizes, an `int`. -/
def hhMemorySize (alloc : MemoryRegion) (key value : Stage) : BitVec 32 :=
  if (alloc.syncData key).size < (alloc.syncData value).size then (alloc.syncData key).size
  else (alloc.syncData value).size

/-- **The address of a key**: it is put into sixteen bits. -/
def hhAddress (alloc : MemoryRegion) (key : Stage) (n k : BitVec 32) : BitVec 16 :=
  ((alloc.syncData key).memStart + k % n).setWidth 16

/-- **`active_tx_handler_hh`**; where fewer than two stages have memory it reads what lies before an
array. -/
def activeTxHandlerHh (threshold : BitVec 32) (alloc : MemoryRegion) (inet : Buffer) :
    Option TxFill :=
  if nextProtoId inet ≠ protoUdp then some .kept
  else
    match scanStages alloc.validStages (List.finRange 20).reverse none with
    | (some key, some value) =>
        let n := hhMemorySize alloc key value
        if n.toInt < 2 then some .cleared
        else
          let k := inet.readHost32 payloadStart
          some (.written (Function.update (Function.update (Function.update (fun _ => 0) 0 k)
            1 threshold) 2 ((hhAddress alloc key n k).setWidth 32)))
    | _ => none

/-! ### The stages -/

/-- **The two highest stages with memory.** -/
structure Highest (valid : Stage → Bool) (key value : Stage) : Prop where
  /-- Both have memory. -/
  memory : valid key = true ∧ valid value = true
  /-- They are in order. -/
  lt : value < key
  /-- No other stage above the lower one has memory. -/
  others : ∀ i, value < i → valid i = true → i = key

/-- Stages without memory are passed over. -/
theorem scanStages_filter (valid : Stage → Bool) (stages : List Stage) (key : Option Stage) :
    scanStages valid stages key = scanStages (fun _ => true) (stages.filter valid) key := by
  induction stages generalizing key with
  | nil => rfl
  | cons i stages ih =>
      cases key with
      | none =>
          rw [scanStages]
          split_ifs with hi
          · rw [ih, List.filter_cons_of_neg (by simp [hi])]
          · rw [ih, List.filter_cons_of_pos (by simpa using hi), scanStages, if_neg (by simp)]
      | some key =>
          rw [scanStages]
          split_ifs with hi
          · rw [ih, List.filter_cons_of_neg (by simp [hi])]
          · rw [List.filter_cons_of_pos (by simpa using hi), scanStages, if_neg (by simp)]

/-- The highest stages are the first two of the loop. -/
theorem Highest.filter_eq {valid : Stage → Bool} {key value : Stage} (h : Highest valid key value) :
    ∃ rest, (List.finRange 20).reverse.filter valid = key :: value :: rest := by
  have hsorted : ((List.finRange 20).reverse.filter valid).Pairwise (· > ·) :=
    (List.pairwise_reverse.2 (List.pairwise_lt_finRange 20)).filter _
  have hmem : ∀ i, i ∈ (List.finRange 20).reverse.filter valid ↔ valid i = true := fun i => by
    simp [List.mem_filter]
  match (List.finRange 20).reverse.filter valid, hsorted, hmem with
  | [], _, hmem => exact absurd ((hmem key).2 h.memory.1) (by simp)
  | [a], _, hmem =>
      have hkey := List.mem_singleton.1 ((hmem key).2 h.memory.1)
      have hvalue := List.mem_singleton.1 ((hmem value).2 h.memory.2)
      exact absurd h.lt (by rw [hkey, hvalue]; exact lt_irrefl a)
  | a :: b :: rest, hsorted, hmem =>
      obtain ⟨ha, hb⟩ := List.pairwise_cons.1 hsorted
      obtain ⟨hb, -⟩ := List.pairwise_cons.1 hb
      -- everything in the list but the first two is below them
      have hvalue : value = b := by
        rcases List.mem_cons.1 ((hmem value).2 h.memory.2) with rfl | hv
        · rcases List.mem_cons.1 ((hmem key).2 h.memory.1) with rfl | hk
          · exact absurd h.lt (lt_irrefl _)
          · exact absurd (h.lt.trans (ha key hk)) (lt_irrefl _)
        · rcases List.mem_cons.1 hv with rfl | hv
          · rfl
          · have hkb := h.others b (hb value hv) ((hmem b).1 (by simp))
            have hka := h.others a ((hb value hv).trans (ha b (by simp))) ((hmem a).1 (by simp))
            exact absurd (ha b (by simp)) (by rw [hka, hkb]; exact lt_irrefl key)
      have hkey : key = a := (h.others a (hvalue ▸ ha b (by simp)) ((hmem a).1 (by simp))).symm
      exact ⟨rest, by rw [hkey, hvalue]⟩

/-- **The loop over the stages finds the two highest.** -/
theorem scanStages_highest {valid : Stage → Bool} {key value : Stage} (h : Highest valid key value) :
    scanStages valid (List.finRange 20).reverse none = (some key, some value) := by
  obtain ⟨rest, hfilter⟩ := h.filter_eq
  rw [scanStages_filter, hfilter]
  simp [scanStages]

/-- Where two stages have memory there are two highest ones. -/
theorem exists_highest {valid : Stage → Bool} {i j : Stage} (hij : i ≠ j) (hi : valid i = true)
    (hj : valid j = true) : ∃ key value, Highest valid key value := by
  obtain ⟨key, hkey, hmax⟩ := (Finset.univ.filter fun s => valid s = true).exists_max_image id
    ⟨i, by simpa using hi⟩
  have hother : ((Finset.univ.filter fun s => valid s = true).erase key).Nonempty := by
    by_cases h : i = key
    · exact ⟨j, by simp [← h, hij.symm, hj]⟩
    · exact ⟨i, by simp [h, hi]⟩
  obtain ⟨value, hvalue, hmax'⟩ := Finset.exists_max_image _ id hother
  simp only [Finset.mem_filter, Finset.mem_univ, true_and, Finset.mem_erase, id] at hkey hmax hvalue hmax'
  refine ⟨key, value, ⟨hkey, hvalue.2⟩, lt_of_le_of_ne (hmax value hvalue.2) hvalue.1,
    fun s hs hvalid => ?_⟩
  by_contra hne
  exact absurd (hmax' s ⟨hne, hvalid⟩) (not_le.2 hs)

/-! ### The address -/

/-- **The address of a packet is in both ranges**, if it gets one. -/
def WellPlaced (threshold : BitVec 32) (alloc : MemoryRegion) (key value : Stage) (inet : Buffer) :
    Prop :=
  ∀ args, activeTxHandlerHh threshold alloc inet = some (.written args) →
    (alloc.syncData key).InRange (args 2).toNat ∧ (alloc.syncData value).InRange (args 2).toNat

/-- The number of the cells of a range. -/
def MemoryStage.cells (m : MemoryStage) : ℕ := m.memEnd.toNat + 1 - m.memStart.toNat

/-- The smaller number of cells. -/
def commonCells (alloc : MemoryRegion) (key value : Stage) : ℕ :=
  min (alloc.syncData key).cells (alloc.syncData value).cells

/-- **The cell that a key is counted to lies in the second range**, and its number fits into sixteen
bits; or it is short by `2 ^ 16`, and the cell that many before it lies in both ranges. -/
def OffsetFits (alloc : MemoryRegion) (key value : Stage) (k : BitVec 32) : Prop :=
  let offset := k.toNat % commonCells alloc key value
  let cell := (alloc.syncData key).memStart.toNat + offset
  commonCells alloc key value < 2 ∨
    (cell < 2 ^ 16 ∧ (alloc.syncData value).InRange cell) ∨
    (2 ^ 16 ≤ offset ∧ (alloc.syncData value).InRange (cell - 2 ^ 16))

/-- **The ranges lie well for every key.** -/
def RangesFit (alloc : MemoryRegion) (key value : Stage) : Prop :=
  let first := (alloc.syncData key).memStart.toNat
  let n := commonCells alloc key value
  n < 2 ∨
    ((alloc.syncData value).memStart.toNat ≤ first ∧ first + n ≤ (alloc.syncData value).memEnd.toNat + 1 ∧
      first + n ≤ 2 ^ 16) ∨
    (first = 0 ∧ (alloc.syncData value).memStart.toNat = 0)

section Address

variable {alloc : MemoryRegion} {key value : Stage}

theorem MemoryStage.toNat_size {m : MemoryStage} (h : m.memStart ≤ m.memEnd)
    (hend : m.memEnd.toNat < maxData) : m.size.toNat = m.cells := by
  have hone : (1 : BitVec 32).toNat = 1 := rfl
  rw [BitVec.le_def] at h
  unfold maxData at hend
  rw [size, cells, BitVec.toNat_add, BitVec.toNat_sub, Nat.mod_add_mod, hone]
  omega

theorem toNat_hhMemorySize
    (hkey : (alloc.syncData key).memStart ≤ (alloc.syncData key).memEnd ∧
      (alloc.syncData key).memEnd.toNat < maxData)
    (hvalue : (alloc.syncData value).memStart ≤ (alloc.syncData value).memEnd ∧
      (alloc.syncData value).memEnd.toNat < maxData) :
    (hhMemorySize alloc key value).toNat = commonCells alloc key value := by
  rw [hhMemorySize, commonCells, ← MemoryStage.toNat_size hkey.1 hkey.2,
    ← MemoryStage.toNat_size hvalue.1 hvalue.2]
  split_ifs with h
  · exact (min_eq_left (le_of_lt (BitVec.lt_def.1 h))).symm
  · exact (min_eq_right (not_lt.1 (mt BitVec.lt_def.2 h))).symm

/-- The address that is written, as a number. -/
theorem toNat_hhAddress {n k : BitVec 32} (h : (alloc.syncData key).memStart.toNat + k.toNat % n.toNat < 2 ^ 32) :
    ((hhAddress alloc key n k).setWidth 32).toNat =
      ((alloc.syncData key).memStart.toNat + k.toNat % n.toNat) % 2 ^ 16 := by
  rw [hhAddress, BitVec.toNat_setWidth, BitVec.toNat_setWidth, BitVec.toNat_add, BitVec.toNat_umod,
    Nat.mod_eq_of_lt h]
  exact Nat.mod_eq_of_lt ((Nat.mod_lt _ (by norm_num)).trans (by norm_num))

/-- The handler, for a packet that gets an address if there are cells. -/
theorem activeTxHandlerHh_eq {threshold : BitVec 32} {inet : Buffer}
    (h : Highest alloc.validStages key value) (hudp : nextProtoId inet = protoUdp) :
    activeTxHandlerHh threshold alloc inet =
      if (hhMemorySize alloc key value).toInt < 2 then some .cleared
      else some (.written (Function.update (Function.update (Function.update (fun _ => 0) 0
        (inet.readHost32 payloadStart)) 1 threshold) 2
          ((hhAddress alloc key (hhMemorySize alloc key value)
            (inet.readHost32 payloadStart)).setWidth 32))) := by
  rw [activeTxHandlerHh, if_neg (by simpa using hudp), scanStages_highest h]

variable {threshold : BitVec 32}

/-- **Exactly when the address of a packet is in both ranges.** -/
theorem wellPlaced_iff_offsetFits {inet : Buffer} (h : Highest alloc.validStages key value)
    (hranges : ∀ s, alloc.validStages s = true →
      (alloc.syncData s).memStart ≤ (alloc.syncData s).memEnd ∧ (alloc.syncData s).memEnd.toNat < maxData)
    (hudp : nextProtoId inet = protoUdp) :
    WellPlaced threshold alloc key value inet ↔
      OffsetFits alloc key value (inet.readHost32 payloadStart) := by
  have hkey := hranges key h.memory.1
  have hvalue := hranges value h.memory.2
  have hn := toNat_hhMemorySize hkey hvalue
  have hcells : commonCells alloc key value ≤ (alloc.syncData key).memEnd.toNat + 1 -
    (alloc.syncData key).memStart.toNat := min_le_left _ _
  have hle := BitVec.le_def.1 hkey.1
  have hend := hkey.2
  unfold maxData at hend
  have hint : (hhMemorySize alloc key value).toInt < 2 ↔ commonCells alloc key value < 2 := by
    rw [BitVec.toInt_eq_toNat_cond, hn]
    split_ifs <;> omega
  rw [WellPlaced, activeTxHandlerHh_eq h hudp, OffsetFits]
  generalize inet.readHost32 payloadStart = k
  by_cases htwo : commonCells alloc key value < 2
  · rw [if_pos (hint.2 htwo)]
    exact iff_of_true (fun args hargs => nomatch hargs) (.inl htwo)
  · rw [if_neg (mt hint.1 htwo), or_iff_right htwo]
    have hlt : k.toNat % commonCells alloc key value < commonCells alloc key value :=
      Nat.mod_lt _ (by omega)
    have haddr : ((hhAddress alloc key (hhMemorySize alloc key value) k).setWidth 32).toNat =
        ((alloc.syncData key).memStart.toNat + k.toNat % commonCells alloc key value) % 2 ^ 16 := by
      rw [toNat_hhAddress (by rw [hn]; omega), hn]
    simp only [Option.some.injEq, TxFill.written.injEq, forall_eq', Function.update_self, haddr,
      MemoryStage.InRange]
    generalize k.toNat % commonCells alloc key value = offset at hlt ⊢
    omega

/-- The offsets of all keys fit exactly when the ranges do. -/
theorem forall_offsetFits_iff (hranges : ∀ s, alloc.validStages s = true →
      (alloc.syncData s).memStart ≤ (alloc.syncData s).memEnd ∧ (alloc.syncData s).memEnd.toNat < maxData)
    (h : Highest alloc.validStages key value) :
    (∀ k, OffsetFits alloc key value k) ↔ RangesFit alloc key value := by
  obtain ⟨hkey, hkend⟩ := hranges key h.memory.1
  obtain ⟨hvalue, hvend⟩ := hranges value h.memory.2
  have hn : commonCells alloc key value ≤ (alloc.syncData key).cells ∧
    commonCells alloc key value ≤ (alloc.syncData value).cells := ⟨min_le_left _ _, min_le_right _ _⟩
  rw [BitVec.le_def] at hkey hvalue
  unfold maxData at hkend hvend
  unfold MemoryStage.cells at hn
  unfold RangesFit OffsetFits
  simp only [MemoryStage.InRange]
  generalize commonCells alloc key value = n at hn ⊢
  constructor
  · intro hall
    by_cases htwo : n < 2
    · exact .inl htwo
    · have hoffset : ∀ r < n, _ := fun r hr => hall (BitVec.ofNat 32 r)
      have hnat : ∀ r < n, (BitVec.ofNat 32 r).toNat % n = r := fun r hr => by
        rw [BitVec.toNat_ofNat, Nat.mod_eq_of_lt (show r < 2 ^ 32 by omega)]
        exact Nat.mod_eq_of_lt hr
      -- the first key, the last one, and the first one whose cell does not fit
      have hfirst := hoffset 0 (by omega)
      rw [hnat 0 (by omega)] at hfirst
      have hlast := hoffset (n - 1) (by omega)
      rw [hnat (n - 1) (by omega)] at hlast
      by_cases hbig : 2 ^ 16 < (alloc.syncData key).memStart.toNat + n
      · have hwrap := hoffset (2 ^ 16 - (alloc.syncData key).memStart.toNat) (by omega)
        rw [hnat _ (by omega)] at hwrap
        omega
      · omega
  · intro hfit k
    by_cases htwo : n < 2
    · exact .inl htwo
    · have hlt : k.toNat % n < n := Nat.mod_lt _ (by omega)
      generalize k.toNat % n = offset at hlt ⊢
      omega

end Address

/-- A packet with a key. -/
def hhRequest (k : BitVec 32) : Buffer := requestFor (k.setWidth 64)

theorem hhRequest_key (k : BitVec 32) :
    nextProtoId (hhRequest k) = protoUdp ∧ (hhRequest k).readHost32 payloadStart = k := by
  refine ⟨rfl, ?_⟩
  have hbyte : ∀ j < 4, hhRequest k (payloadStart + j) = k.extractLsb' (8 * j) 8 := by
    intro j hj
    rw [hhRequest, requestFor, if_neg (by unfold payloadStart; omega), Nat.add_sub_cancel_left]
    refine BitVec.eq_of_getLsbD_eq fun b hb => ?_
    simp only [BitVec.getLsbD_extractLsb', BitVec.getLsbD_setWidth]
    rw [decide_eq_true (show 8 * j + b < 64 by omega), Bool.true_and]
  rw [Buffer.readHost32, hbyte 3 (by omega), hbyte 2 (by omega), hbyte 1 (by omega),
    show payloadStart = payloadStart + 0 from rfl, hbyte 0 (by omega),
    BitVec.extractLsb'_append_extractLsb'_eq_extractLsb' (by decide),
    BitVec.extractLsb'_append_extractLsb'_eq_extractLsb' (by decide),
    BitVec.extractLsb'_append_extractLsb'_eq_extractLsb' (by decide)]
  exact BitVec.extractLsb'_eq_self

/-- **Exactly when the addresses are in both ranges**: for the packets with one key, and for all
packets. -/
theorem well_placed_iff (threshold : BitVec 32) {alloc : MemoryRegion} {key value : Stage}
    (h : Highest alloc.validStages key value)
    (hranges : ∀ s, alloc.validStages s = true →
      (alloc.syncData s).memStart ≤ (alloc.syncData s).memEnd ∧
        (alloc.syncData s).memEnd.toNat < maxData) :
    (∀ inet, nextProtoId inet = protoUdp →
      (WellPlaced threshold alloc key value inet ↔
        OffsetFits alloc key value (inet.readHost32 payloadStart))) ∧
    ((∀ inet, WellPlaced threshold alloc key value inet) ↔ RangesFit alloc key value) := by
  refine ⟨fun inet hudp => wellPlaced_iff_offsetFits h hranges hudp, ?_⟩
  rw [← forall_offsetFits_iff hranges h]
  constructor
  · intro hall k
    have hk := (wellPlaced_iff_offsetFits h hranges (hhRequest_key k).1).1 (hall (hhRequest k))
    rwa [(hhRequest_key k).2] at hk
  · intro hall inet
    by_cases hudp : nextProtoId inet = protoUdp
    · exact (wellPlaced_iff_offsetFits h hranges hudp).2 (hall _)
    · intro args hargs
      rw [activeTxHandlerHh, if_pos hudp] at hargs
      cases hargs

/-- Two stages with ranges of their own. -/
def twoRanges (keyFirst keyLast valueFirst valueLast : BitVec 32) : MemoryRegion :=
  { MemoryRegion.zero with
    syncData := fun s =>
      if s = 12 then ⟨fun _ => 0, fun _ => false, keyFirst, keyLast⟩
      else ⟨fun _ => 0, fun _ => false, valueFirst, valueLast⟩
    validStages := fun s => s = 11 || s = 12 }

/-- The address of the key 107, in ranges that are the same. -/
theorem well_placed_same : WellPlaced 10 (twoRanges 0 99 0 99) 12 11 (hhRequest 107) := by
  have hhighest : Highest (twoRanges 0 99 0 99).validStages 12 11 := ⟨by decide, by decide, by decide⟩
  exact (well_placed_iff 10 hhighest (by decide)).2.2 (.inr (.inr ⟨rfl, rfl⟩)) (hhRequest 107)

/-- **A range that starts behind the other one**: the address is behind its end. -/
theorem address_behind_range : ∃ alloc key value inet, Highest alloc.validStages key value ∧
    (∀ s, alloc.validStages s = true → (alloc.syncData s).memStart ≤ (alloc.syncData s).memEnd ∧
      (alloc.syncData s).memEnd.toNat < maxData) ∧
    ¬ WellPlaced 10 alloc key value inet := by
  refine ⟨twoRanges 100 199 0 99, 12, 11, hhRequest 7, ⟨by decide, by decide, by decide⟩, by decide,
    fun h => ?_⟩
  obtain ⟨-, hvalue⟩ := h _ rfl
  exact absurd hvalue (by decide)

end ActiveRmt
