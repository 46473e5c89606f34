/-
**The cache: what its timer writes.**

Whenever the timer fires, the cache goes through the keys it has been asked for, most frequent first,
and gives each a cell that no key before it has taken.  The cell is the one that the last request for
the key went to.  If the allocation has moved since then, requests look in another place, so what is
right at a tick depends on the requests and the allocations before it.

A run is a sequence of requests, allocations and ticks.  With it the keys that were asked for are
recorded, once for each request that had an address.

Main definitions:

* `compareElementsCache`, `storeItems`, `timerCache` — **the timer**;
* `CacheState`, `CacheEvent`, `CacheState.handle` — a step of the application;
* `CacheRun` — the runs whose steps meet a condition;
* `EntriesRight` — what the timer wrote is where requests look, most frequent first;
* `Timely` — the condition on a step.

Main results:

* `Filling.Holds.storeItems` — what the loop of the timer has written;
* `CacheInvariant.handle` — a step keeps what is known of the table;
* `entries_right` — **in a run whose steps are timely, every entry is right**.
-/

import ActiveRmt.CacheRequests
import ActiveRmt.ProgramFiles

set_option relaxedAutoImplicit false
set_option autoImplicit false

namespace ActiveRmt

open KeyedTable

/-! ### The timer -/

/-- `compare_elements_cache`: the difference of two counters without a sign, as an `int`. -/
def compareElementsCache (a b : CacheItem) : ℤ := (b.freq - a.freq).toInt

/-- `HH_ITVL_MIN_US`. -/
def hhItvlMin : ℤ := 100000

/-- `HH_ITVL_MAX_US`. -/
def hhItvlMax : ℤ := 10000000

/-- `MAX_CACHE_SIZE`. -/
def maxCacheSize : ℕ := 100000

/-- `MAX_DATA`. -/
def maxData : ℕ := 94208

/-- The interval of the timer after a tick. -/
def nextInterval (us : ℤ) : ℤ :=
  if us = 0 then hhItvlMin else if us < hhItvlMax then min (us * 2) hhItvlMax else us

/-- The variables of the loop that stores. -/
structure Filling where
  /-- The words of `membuf`. -/
  data : Stage → ℕ → BitVec 32
  /-- `bloom`. -/
  bloom : ℕ → Bool
  /-- `num_stored`. -/
  numStored : ℕ

/-- A word is written. -/
def Filling.put (s : Filling) (t : Stage) (a : ℕ) (v : BitVec 32) : Filling :=
  { s with data := Function.update s.data t (Function.update (s.data t) a v) }

/-- An item is stored. -/
def Filling.store (s : Filling) (c : CacheContext) (item : CacheItem) : Filling :=
  let a := item.paddr.toNat
  let s := s.put c.stageIdKey0 a (item.key.extractLsb' 32 32)
  let s := s.put c.stageIdKey1 a (item.key.extractLsb' 0 32)
  let s := s.put c.stageIdValue a 1
  { s with numStored := s.numStored + 1, bloom := Function.update s.bloom a true }

/-- **The loop that stores.** -/
def storeItems (c : CacheContext) : List CacheItem → Filling → Outcome Filling
  | [], s => .ok s
  | item :: items, s =>
      if (s.numStored : ℤ) < c.memorySize.toInt then
        if maxCacheSize ≤ item.paddr.toNat then .overflow
        else if s.bloom item.paddr.toNat then storeItems c items s
        else if item.key.extractLsb' 32 32 = 0 ∧ item.key.extractLsb' 0 32 = 0 then .assertionFailed
        else if maxData ≤ item.paddr.toNat then .overflow
        else storeItems c items (s.store c item)
      else .ok s

/-- What the loop starts with. -/
def Filling.empty : Filling := ⟨fun _ _ => 0, fun _ => false, 0⟩

/-- `HASH_SORT` of the table. -/
def CacheContext.sorted (sort : (CacheItem → CacheItem → ℤ) → List CacheItem → List CacheItem)
    (c : CacheContext) : CacheContext :=
  { c with requestedItems := sort compareElementsCache c.requestedItems }

/-- **`timer_cache`**: the context, and what the control loop goes on with. -/
def timerCache (sort : (CacheItem → CacheItem → ℤ) → List CacheItem → List CacheItem)
    (c : CacheContext) : Outcome (CacheContext × Timer) :=
  let c := c.sorted sort
  (storeItems c c.requestedItems Filling.empty).bind fun s =>
    .ok ({ c with timerResetTrigger := decide (0 < s.numStored) || c.timerResetTrigger },
      .cache s.data (decide (0 < s.numStored)))

/-! ### Runs -/

/-- The state of the application, with what it was asked for. -/
structure CacheState where
  /-- The context. -/
  ctxt : CacheContext
  /-- The interval of the timer. -/
  timerInterval : ℤ
  /-- The keys of the requests that had an address. -/
  asked : List (BitVec 64)
  /-- What the timer wrote, if the last step was a tick. -/
  wrote : Option (Stage → ℕ → BitVec 32)

/-- An application that has just been started. -/
def CacheState.init : CacheState := ⟨CacheContext.zero, 0, [], none⟩

/-- What happens to the application. -/
inductive CacheEvent
  /-- A packet is sent. -/
  | request (inet : Buffer)
  /-- A response is adopted. -/
  | allocation
  /-- The memory is to be reset. -/
  | reset (mem : MemoryRegion)
  /-- The timer fires. -/
  | tick

section Steps

variable (crc : BitVec 64 → BitVec 32)
  (sort : (CacheItem → CacheItem → ℤ) → List CacheItem → List CacheItem)

/-- The key that a packet asks for, if it has an address. -/
def CacheContext.answered (c : CacheContext) (inet : Buffer) : List (BitVec 64) :=
  match (payloadParserCache crc c inet).2 with
  | .written _ => [inet.readHost64 payloadStart]
  | .kept | .cleared => []

/-- The words that a timer writes. -/
def writtenWords : Timer → Option (Stage → ℕ → BitVec 32)
  | .cache data _ => some data
  | .lb | .hh _ => none

/-- **A step of the application.** -/
def CacheState.handle (s : CacheState) : CacheEvent → Outcome CacheState
  | .request inet => .ok { s with
      ctxt := (payloadParserCache crc s.ctxt inet).1
      asked := s.asked ++ s.ctxt.answered crc inet
      wrote := none }
  -- `on_allocation_cache`
  | .allocation => .ok { s with timerInterval := hhItvlMin, wrote := none }
  | .reset mem => .ok { s with ctxt := (memoryResetCache mem s.ctxt).1, wrote := none }
  | .tick => (timerCache sort s.ctxt).bind fun x => .ok { s with
      ctxt := x.1
      timerInterval := nextInterval s.timerInterval
      wrote := writtenWords x.2 }

/-- **The runs whose steps meet a condition.** -/
inductive CacheRun (P : CacheState → CacheEvent → Prop) : CacheState → Prop
  /-- At the start. -/
  | start : CacheRun P CacheState.init
  /-- One step more. -/
  | step {s s' : CacheState} (h : CacheRun P s) (e : CacheEvent) (hP : P s e)
      (hstep : s.handle crc sort e = .ok s') : CacheRun P s'

/-- **Every entry is right**: it is a key that was asked for, at the address that its requests go to
now, in the three stages, and no key with this address was asked for more often. -/
def EntriesRight (s : CacheState) (data : Stage → ℕ → BitVec 32) : Prop :=
  ∀ t a, data t a ≠ 0 →
    (t = s.ctxt.stageIdKey0 ∨ t = s.ctxt.stageIdKey1 ∨ t = s.ctxt.stageIdValue) ∧
      ∃ k ∈ s.asked, ∃ paddr, s.ctxt.requestAddress crc k = some paddr ∧ paddr.toNat = a ∧
        data s.ctxt.stageIdKey0 a = k.extractLsb' 32 32 ∧
        data s.ctxt.stageIdKey1 a = k.extractLsb' 0 32 ∧
        data s.ctxt.stageIdValue a = 1 ∧
        ∀ k' ∈ s.asked, s.ctxt.requestAddress crc k' = some paddr →
          s.asked.count k' ≤ s.asked.count k

/-- **The condition on a step.** -/
def Timely (s : CacheState) : CacheEvent → Prop
  -- no other key begins with the same four bytes, and the counter of the key keeps its sign
  | .request inet => ∀ k ∈ s.ctxt.answered crc inet,
      (∀ k' ∈ s.asked, hashInt k' = hashInt k → k' = k) ∧ s.asked.count k + 1 < 2 ^ 31
  | .allocation => True
  -- there is memory in three stages
  | .reset mem => s.ctxt.timerResetTrigger = false → 3 ≤ (List.finRange 20).countP mem.validStages
  -- the last request for each key went where a request would go now, and there is such a cell
  | .tick => 0 < s.ctxt.memorySize.toInt → ∀ item ∈ s.ctxt.requestedItems,
      s.ctxt.requestAddress crc item.key = some item.paddr ∧ item.paddr.toNat < maxData

end Steps

/-! ### What the loop stores -/

namespace Filling

variable {c : CacheContext} {item : CacheItem} {s : Filling}

/-- The words after an item is stored: the last word written to a cell stays. -/
theorem data_store (t : Stage) (a : ℕ) :
    (s.store c item).data t a =
      if a = item.paddr.toNat then
        if t = c.stageIdValue then 1
        else if t = c.stageIdKey1 then item.key.extractLsb' 0 32
        else if t = c.stageIdKey0 then item.key.extractLsb' 32 32
        else s.data t a
      else s.data t a := by
  simp only [store, put, Function.update_apply]
  split_ifs <;> simp_all

theorem bloom_store (a : ℕ) :
    (s.store c item).bloom a = (decide (a = item.paddr.toNat) || s.bloom a) := by
  simp only [store, put, Function.update_apply]
  split_ifs with h <;> simp [h]

/-- **What the loop has written** when it has gone through some of the items. -/
structure Holds (c : CacheContext) (all seen : List CacheItem) (s : Filling) : Prop where
  /-- The cells of the items are taken. -/
  taken : ∀ y ∈ seen, s.bloom y.paddr.toNat = true
  /-- A cell that is taken has an item, and no item of the cell is more frequent. -/
  entry : ∀ a, s.bloom a = true → ∃ x ∈ all, x.paddr.toNat = a ∧
    s.data c.stageIdKey0 a = x.key.extractLsb' 32 32 ∧
    s.data c.stageIdKey1 a = x.key.extractLsb' 0 32 ∧ s.data c.stageIdValue a = 1 ∧
    ∀ y ∈ all, y.paddr = x.paddr → y.freq ≤ x.freq
  /-- The other words are zero. -/
  blank : ∀ t a, s.data t a ≠ 0 → s.bloom a = true ∧
    (t = c.stageIdKey0 ∨ t = c.stageIdKey1 ∨ t = c.stageIdValue)

theorem Holds.empty (c : CacheContext) (all : List CacheItem) : Holds c all [] Filling.empty :=
  ⟨by simp, fun a h => by simp [Filling.empty] at h, fun t a h => absurd rfl h⟩

variable {all seen items : List CacheItem}

/-- An item whose cell is taken is passed over. -/
theorem Holds.skip (h : Holds c all seen s) (hitem : s.bloom item.paddr.toNat = true) :
    Holds c all (seen ++ [item]) s := by
  refine ⟨fun y hy => ?_, h.entry, h.blank⟩
  rcases List.mem_append.1 hy with hy | hy
  · exact h.taken y hy
  · exact List.mem_singleton.1 hy ▸ hitem

/-- An item takes a cell: those before it have other cells, and those behind it are not more
frequent. -/
theorem Holds.store (h : Holds c all seen s)
    (hstages : c.stageIdKey0 < c.stageIdKey1 ∧ c.stageIdKey1 < c.stageIdValue)
    (hall : all = seen ++ item :: items) (hsorted : all.Pairwise fun x y => y.freq ≤ x.freq)
    (hitem : s.bloom item.paddr.toNat = false) : Holds c all (seen ++ [item]) (s.store c item) := by
  obtain ⟨h01, h12⟩ := hstages
  have hmost : ∀ y ∈ all, y.paddr = item.paddr → y.freq ≤ item.freq := by
    intro y hy hpaddr
    rw [hall] at hy hsorted
    rcases List.mem_append.1 hy with hy | hy
    · have := h.taken y hy
      rw [hpaddr, hitem] at this
      cases this
    · rcases List.mem_cons.1 hy with rfl | hy
      · exact BitVec.le_refl _
      · exact (List.pairwise_cons.1 (List.pairwise_append.1 hsorted).2.1).1 y hy
  refine ⟨fun y hy => ?_, fun a ha => ?_, fun t a ha => ?_⟩
  · rw [bloom_store, Bool.or_eq_true]
    rcases List.mem_append.1 hy with hy | hy
    · exact .inr (h.taken y hy)
    · exact .inl (decide_eq_true (by rw [List.mem_singleton.1 hy]))
  · rw [bloom_store, Bool.or_eq_true] at ha
    by_cases heq : a = item.paddr.toNat
    · refine ⟨item, by rw [hall]; simp, heq.symm, ?_, ?_, ?_, hmost⟩
      · rw [data_store, if_pos heq, if_neg (h01.trans h12).ne, if_neg h01.ne, if_pos rfl]
      · rw [data_store, if_pos heq, if_neg h12.ne, if_pos rfl]
      · rw [data_store, if_pos heq, if_pos rfl]
    · obtain ⟨x, hx, hpaddr, hkey₀, hkey₁, hvalue, hfreq⟩ :=
        h.entry a (ha.resolve_left (by simpa using heq))
      refine ⟨x, hx, hpaddr, ?_, ?_, ?_, hfreq⟩
      all_goals rwa [data_store, if_neg heq]
  · rw [bloom_store, Bool.or_eq_true, decide_eq_true_eq]
    rw [data_store] at ha
    split_ifs at ha with heq ht ht ht
    · exact ⟨.inl heq, .inr (.inr ht)⟩
    · exact ⟨.inl heq, .inr (.inl ht)⟩
    · exact ⟨.inl heq, .inl ht⟩
    all_goals exact ⟨.inr (h.blank t a ha).1, (h.blank t a ha).2⟩

/-- **What the loop has written at its end.** -/
theorem Holds.storeItems {s' : Filling} (h : Holds c all seen s)
    (hstages : c.stageIdKey0 < c.stageIdKey1 ∧ c.stageIdKey1 < c.stageIdValue)
    (hall : all = seen ++ items) (hsorted : all.Pairwise fun x y => y.freq ≤ x.freq)
    (hloop : storeItems c items s = .ok s') : ∃ seen', Holds c all seen' s' := by
  induction items generalizing seen s with
  | nil =>
      rw [ActiveRmt.storeItems, Outcome.ok.injEq] at hloop
      exact ⟨seen, hloop ▸ h⟩
  | cons item items ih =>
      have hrest : all = (seen ++ [item]) ++ items := by rw [hall, List.append_assoc]; rfl
      rw [ActiveRmt.storeItems] at hloop
      split_ifs at hloop with hnum hmax hbloom hzero hdata
      · exact ih (h.skip hbloom) hrest hloop
      · exact ih (h.store hstages hall hsorted (by simpa using hbloom)) hrest hloop
      · rw [Outcome.ok.injEq] at hloop
        exact ⟨seen, hloop ▸ h⟩

end Filling

/-- The loop stays within the arrays if the addresses do. -/
theorem storeItems_ne_overflow {c : CacheContext} {items : List CacheItem} (s : Filling)
    (h : ∀ item ∈ items, item.paddr.toNat < maxData) : storeItems c items s ≠ .overflow := by
  induction items generalizing s with
  | nil => exact fun h => nomatch h
  | cons item items ih =>
      obtain ⟨hitem, hitems⟩ := List.forall_mem_cons.1 h
      have hsize : item.paddr.toNat < maxCacheSize := hitem.trans (by decide)
      rw [storeItems, if_neg (Nat.not_le.2 hsize), if_neg (Nat.not_le.2 hitem)]
      split_ifs
      · exact ih s hitems
      · exact fun h => nomatch h
      · exact ih _ hitems
      · exact fun h => nomatch h

/-- Nothing is stored where there are no cells. -/
theorem storeItems_of_size_nonpos {c : CacheContext} (h : ¬ 0 < c.memorySize.toInt)
    (items : List CacheItem) : storeItems c items Filling.empty = .ok Filling.empty := by
  cases items with
  | nil => rfl
  | cons item items => rw [storeItems, if_neg (by simpa [Filling.empty] using h)]

/-! ### The order of the items -/

/-- Counters that have no sign are compared as numbers. -/
theorem compareElementsCache_le_iff {x y : CacheItem} (hx : x.freq.toNat < 2 ^ 31)
    (hy : y.freq.toNat < 2 ^ 31) : compareElementsCache x y ≤ 0 ↔ y.freq ≤ x.freq := by
  rw [compareElementsCache, BitVec.toInt_eq_toNat_cond, BitVec.toNat_sub, BitVec.le_def]
  split_ifs <;> omega

variable {sort : (CacheItem → CacheItem → ℤ) → List CacheItem → List CacheItem}

/-- **The most frequent items come first.** -/
theorem pairwise_sort (hsort : Sorts sort) {items : List CacheItem}
    (h : ∀ item ∈ items, item.freq.toNat < 2 ^ 31) :
    (sort compareElementsCache items).Pairwise fun x y => y.freq ≤ x.freq := by
  refine (hsort.sorted compareElementsCache items (fun x hx y hy => ?_)
    fun x hx y hy z hz hxy hyz => ?_).imp_of_mem fun {x y} hx hy hxy => ?_
  · rw [compareElementsCache_le_iff (h x hx) (h y hy), compareElementsCache_le_iff (h y hy) (h x hx)]
    exact Nat.le_total y.freq.toNat x.freq.toNat
  · rw [compareElementsCache_le_iff (h x hx) (h y hy)] at hxy
    rw [compareElementsCache_le_iff (h y hy) (h z hz)] at hyz
    rw [compareElementsCache_le_iff (h x hx) (h z hz)]
    exact Nat.le_trans hyz hxy
  · have hperm := hsort.perm compareElementsCache items
    exact (compareElementsCache_le_iff (h x (hperm.mem_iff.1 hx)) (h y (hperm.mem_iff.1 hy))).1 hxy

theorem Counted.perm {items items' : List CacheItem} {keys : List (BitVec 64)} (h : Counted items keys)
    (hp : items'.Perm items) : Counted items' keys where
  distinct := h.distinct.perm hp
  mem item hitem := h.mem item (hp.mem_iff.1 hitem)
  freq item hitem := h.freq item (hp.mem_iff.1 hitem)
  covered k hk := by
    obtain ⟨item, hitem, heq⟩ := h.covered k hk
    exact ⟨item, hp.mem_iff.2 hitem, heq⟩

/-! ### What is known of the table -/

/-- **What is known of the table** while the steps are timely. -/
structure CacheInvariant (s : CacheState) : Prop where
  /-- The requests are counted. -/
  counted : Counted s.ctxt.requestedItems s.asked
  /-- No two keys begin with the same four bytes. -/
  inj : ∀ k ∈ s.asked, ∀ k' ∈ s.asked, hashInt k = hashInt k' → k = k'
  /-- The counters have no sign. -/
  bounded : ∀ k, s.asked.count k < 2 ^ 31
  /-- Where there are cells there are three stages. -/
  stages : 0 < s.ctxt.memorySize.toInt →
    s.ctxt.stageIdKey0 < s.ctxt.stageIdKey1 ∧ s.ctxt.stageIdKey1 < s.ctxt.stageIdValue

theorem CacheInvariant.init : CacheInvariant CacheState.init :=
  ⟨Counted.nil, by simp [CacheState.init], by simp [CacheState.init], fun h => absurd h (by decide)⟩

/-- The counter of an item is the number of requests for its key. -/
theorem CacheInvariant.freq {s : CacheState} (h : CacheInvariant s) {item : CacheItem}
    (hitem : item ∈ s.ctxt.requestedItems) : item.freq.toNat = s.asked.count item.key :=
  h.counted.freq_eq h.inj hitem ((h.bounded _).trans (by norm_num))

section Invariant

variable {crc : BitVec 64 → BitVec 32} {s : CacheState}

/-- A packet that has no address changes nothing; one that has is a request. -/
theorem payloadParserCache_cases (crc : BitVec 64 → BitVec 32) (c : CacheContext) (inet : Buffer) :
    ((payloadParserCache crc c inet).1 = c ∧ c.answered crc inet = []) ∨
      ∃ paddr, c.requestAddress crc (inet.readHost64 payloadStart) = some paddr ∧
        (payloadParserCache crc c inet).1 = c.monitor crc (inet.readHost64 payloadStart) paddr ∧
        c.answered crc inet = [inet.readHost64 payloadStart] := by
  unfold CacheContext.answered payloadParserCache
  split_ifs with hudp
  · exact .inl ⟨rfl, rfl⟩
  · dsimp only
    cases c.requestAddress crc (inet.readHost64 payloadStart) with
    | none => exact .inl ⟨rfl, rfl⟩
    | some paddr => exact .inr ⟨paddr, rfl, rfl, rfl⟩

/-- A request keeps the invariant. -/
theorem CacheInvariant.request (h : CacheInvariant s) {inet : Buffer}
    (ht : Timely crc s (.request inet)) :
    CacheInvariant { s with
      ctxt := (payloadParserCache crc s.ctxt inet).1
      asked := s.asked ++ s.ctxt.answered crc inet
      wrote := none } := by
  rcases payloadParserCache_cases crc s.ctxt inet with ⟨hsame, hnone⟩ | ⟨paddr, -, hmon, hone⟩
  · rw [hsame, hnone, List.append_nil]
    exact ⟨h.counted, h.inj, h.bounded, h.stages⟩
  · obtain ⟨hfirst, hcount⟩ := ht _ (hone ▸ List.mem_singleton_self _)
    rw [hmon, hone]
    refine ⟨h.counted.monitor crc _ paddr, fun k hk k' hk' heq => ?_, fun k => ?_, h.stages⟩
    · simp only [List.mem_append, List.mem_singleton] at hk hk'
      rcases hk with hk | rfl <;> rcases hk' with hk' | rfl
      · exact h.inj k hk k' hk' heq
      · exact hfirst k hk heq
      · exact (hfirst k' hk' heq.symm).symm
      · rfl
    · dsimp only
      rw [List.count_append, List.count_singleton]
      split_ifs with hk
      · rwa [← eq_of_beq hk]
      · exact h.bounded k

/-- A reset keeps the invariant. -/
theorem CacheInvariant.reset (h : CacheInvariant s) {mem : MemoryRegion}
    (ht : Timely crc s (.reset mem)) :
    CacheInvariant { s with ctxt := (memoryResetCache mem s.ctxt).1, wrote := none } := by
  cases htrig : s.ctxt.timerResetTrigger with
  | true =>
      rw [memoryResetCache, if_pos htrig]
      exact ⟨h.counted, h.inj, h.bounded, h.stages⟩
  | false =>
      rw [memoryResetCache_eq htrig]
      refine ⟨?_, h.inj, h.bounded, fun _ => (chooseStages_chosen (ht htrig) s.ctxt).ascending⟩
      dsimp only
      rw [(chooseStages_frame mem.validStages 0 (List.finRange 20) s.ctxt).1]
      exact h.counted

/-- What a tick does to the context: the table is sorted. -/
theorem timerCache_eq_ok {sort : (CacheItem → CacheItem → ℤ) → List CacheItem → List CacheItem}
    {c : CacheContext} {x : CacheContext × Timer} (h : timerCache sort c = .ok x) :
    ∃ filling, storeItems (c.sorted sort) (c.sorted sort).requestedItems Filling.empty = .ok filling ∧
      x = ({ c.sorted sort with
          timerResetTrigger := decide (0 < filling.numStored) || (c.sorted sort).timerResetTrigger },
        .cache filling.data (decide (0 < filling.numStored))) := by
  rw [timerCache] at h
  cases hloop : storeItems (c.sorted sort) (c.sorted sort).requestedItems Filling.empty with
  | ok filling =>
      rw [hloop] at h
      exact ⟨filling, rfl, (Outcome.ok.inj h).symm⟩
  | assertionFailed => rw [hloop] at h; cases h
  | overflow => rw [hloop] at h; cases h

variable {sort : (CacheItem → CacheItem → ℤ) → List CacheItem → List CacheItem}

/-- The parts of a tick. -/
theorem handle_tick_eq_ok {s' : CacheState} (h : s.handle crc sort .tick = .ok s') :
    ∃ x, timerCache sort s.ctxt = .ok x ∧
      s' = { s with
        ctxt := x.1, timerInterval := nextInterval s.timerInterval, wrote := writtenWords x.2 } := by
  rw [CacheState.handle] at h
  cases htick : timerCache sort s.ctxt with
  | ok x =>
      rw [htick] at h
      exact ⟨x, rfl, (Outcome.ok.inj h).symm⟩
  | assertionFailed => rw [htick] at h; cases h
  | overflow => rw [htick] at h; cases h

/-- **A step keeps what is known of the table**, if it is timely. -/
theorem CacheInvariant.handle (hsort : Sorts sort) {s' : CacheState} (h : CacheInvariant s)
    (e : CacheEvent) (ht : Timely crc s e) (hstep : s.handle crc sort e = .ok s') :
    CacheInvariant s' := by
  cases e with
  | request inet =>
      obtain rfl := Outcome.ok.inj hstep
      exact h.request ht
  | allocation =>
      obtain rfl := Outcome.ok.inj hstep
      exact ⟨h.counted, h.inj, h.bounded, h.stages⟩
  | reset mem =>
      obtain rfl := Outcome.ok.inj hstep
      exact h.reset ht
  | tick =>
      obtain ⟨x, htick, rfl⟩ := handle_tick_eq_ok hstep
      obtain ⟨filling, -, rfl⟩ := timerCache_eq_ok htick
      exact ⟨h.counted.perm (hsort.perm _ _), h.inj, h.bounded, h.stages⟩

/-- **What a timely tick writes is right.** -/
theorem CacheInvariant.entriesRight (hsort : Sorts sort) {s' : CacheState} (h : CacheInvariant s)
    (ht : Timely crc s .tick) (hstep : s.handle crc sort .tick = .ok s') :
    ∀ data, s'.wrote = some data → EntriesRight crc s' data := by
  obtain ⟨x, htick, rfl⟩ := handle_tick_eq_ok hstep
  obtain ⟨filling, hloop, rfl⟩ := timerCache_eq_ok htick
  intro data hdata t a hword
  obtain rfl : filling.data = data := Option.some.inj hdata
  by_cases hsize : 0 < s.ctxt.memorySize.toInt
  · have hperm := hsort.perm compareElementsCache s.ctxt.requestedItems
    have hsorted := pairwise_sort hsort fun item hitem => (h.freq hitem).trans_lt (h.bounded _)
    obtain ⟨seen, hfilled⟩ := (Filling.Holds.empty (s.ctxt.sorted sort) _).storeItems
      (h.stages hsize) rfl hsorted hloop
    obtain ⟨htaken, hstage⟩ := hfilled.blank t a hword
    obtain ⟨item, hitem, haddr, hkey₀, hkey₁, hvalue, hmost⟩ := hfilled.entry a htaken
    have hitem := hperm.mem_iff.1 hitem
    refine ⟨hstage, item.key, h.counted.mem item hitem, item.paddr, (ht hsize item hitem).1, haddr,
      hkey₀, hkey₁, hvalue, fun k hk hkaddr => ?_⟩
    -- the item of another key with this address was in the loop too
    obtain ⟨other, hother, rfl⟩ := h.counted.exists_item h.inj hk
    have hsame : other.paddr = item.paddr :=
      Option.some.inj ((ht hsize other hother).1.symm.trans hkaddr)
    rw [← h.freq hother, ← h.freq hitem]
    exact hmost other (hperm.mem_iff.2 hother) hsame
  · rw [storeItems_of_size_nonpos (c := s.ctxt.sorted sort) hsize, Outcome.ok.injEq] at hloop
    exact absurd (by rw [← hloop]; rfl) hword

/-- **A timely tick stays within the arrays.** -/
theorem handle_tick_ne_overflow (hsort : Sorts sort) (ht : Timely crc s .tick) :
    s.handle crc sort .tick ≠ .overflow := by
  have hloop : storeItems (s.ctxt.sorted sort) (s.ctxt.sorted sort).requestedItems Filling.empty ≠
      .overflow := by
    by_cases hsize : 0 < s.ctxt.memorySize.toInt
    · exact storeItems_ne_overflow _ fun item hitem =>
        (ht hsize item ((hsort.perm _ _).mem_iff.1 hitem)).2
    · rw [storeItems_of_size_nonpos (c := s.ctxt.sorted sort) hsize]
      exact fun h => nomatch h
  rw [CacheState.handle, timerCache]
  cases h : storeItems (s.ctxt.sorted sort) (s.ctxt.sorted sort).requestedItems Filling.empty with
  | ok filling => exact fun h => nomatch h
  | assertionFailed => exact fun h => nomatch h
  | overflow => exact absurd h hloop

/-- What is known of the table in a run whose steps are timely. -/
theorem CacheRun.invariant (hsort : Sorts sort) (h : CacheRun crc sort (Timely crc) s) :
    CacheInvariant s := by
  induction h with
  | start => exact CacheInvariant.init
  | step _ e ht hstep ih => exact ih.handle hsort e ht hstep

/-- **In a run whose steps are timely, every entry that the timer writes is right**, and the timer
stays within its arrays. -/
theorem entries_right (hsort : Sorts sort) (h : CacheRun crc sort (Timely crc) s) :
    (∀ data, s.wrote = some data → EntriesRight crc s data) ∧
      (Timely crc s .tick → s.handle crc sort .tick ≠ .overflow) := by
  refine ⟨?_, handle_tick_ne_overflow hsort⟩
  cases h with
  | start => exact fun data hdata => nomatch hdata
  | step hrun e ht hstep =>
      cases e with
      | tick => exact (hrun.invariant hsort).entriesRight hsort ht hstep
      | request inet =>
          obtain rfl := Outcome.ok.inj hstep
          exact fun data hdata => nomatch hdata
      | allocation =>
          obtain rfl := Outcome.ok.inj hstep
          exact fun data hdata => nomatch hdata
      | reset mem =>
          obtain rfl := Outcome.ok.inj hstep
          exact fun data hdata => nomatch hdata

end Invariant

/-! ### A key, and a move of the allocation -/

/-- The stages 0, 1 and 2 have ten cells. -/
def tenCells (first : BitVec 32) : MemoryRegion :=
  { MemoryRegion.zero with
    syncData := fun _ => ⟨fun _ => 0, fun _ => false, first, first + 9⟩
    validStages := fun s => s = 0 || s = 1 || s = 2 }

section OneKey

variable (crc : BitVec 64 → BitVec 32)

/-- The item of the key 7, after a request. -/
def oneItem : CacheItem := ⟨crc 7, 0 + crc 7 % 10, 7, 1⟩

/-- A context with ten cells. -/
def oneKey (first : BitVec 32) (items : List CacheItem) : CacheContext :=
  ⟨0, 1, 2, first, 10, items, false⟩

theorem toNat_mod_ten (first : BitVec 32) (h : first.toNat < 2 ^ 31) :
    (first + crc 7 % 10).toNat = first.toNat + (crc 7).toNat % 10 := by
  have hten : (10 : BitVec 32).toNat = 10 := rfl
  rw [BitVec.toNat_add, BitVec.toNat_umod, hten]
  omega

theorem requestAddress_oneKey (first : BitVec 32) (items : List CacheItem) :
    (oneKey first items).requestAddress crc 7 = some (first + crc 7 % 10) := rfl

variable {crc} {sort : (CacheItem → CacheItem → ℤ) → List CacheItem → List CacheItem}

/-- The key is asked for. -/
theorem cacheRun_oneKey {P : CacheState → CacheEvent → Prop}
    (hreset : P CacheState.init (.reset (tenCells 0)))
    (hrequest : P ⟨oneKey 0 [], 0, [], none⟩ (.request (requestFor 7))) :
    CacheRun crc sort P ⟨oneKey 0 [oneItem crc], 0, [7], none⟩ := by
  have hfirst : CacheRun crc sort P ⟨oneKey 0 [], 0, [], none⟩ :=
    .step .start (.reset (tenCells 0)) hreset rfl
  have hkey : (requestFor 7).readHost64 payloadStart = 7 := by decide
  refine .step hfirst (.request (requestFor 7)) hrequest ?_
  rw [CacheState.handle, CacheContext.answered, payloadParserCache, if_neg (by decide)]
  dsimp only
  rw [hkey, requestAddress_oneKey]
  rfl

/-- The timer stores the key, wherever the allocation is. -/
theorem handle_tick_oneKey (hsort : Sorts sort) (first : BitVec 32) :
    CacheState.handle crc sort ⟨oneKey first [oneItem crc], 0, [7], none⟩ .tick =
      .ok ⟨{ oneKey first [oneItem crc] with timerResetTrigger := true }, hhItvlMin, [7],
        some (Filling.empty.store (oneKey first [oneItem crc]) (oneItem crc)).data⟩ := by
  have hsorted : (oneKey first [oneItem crc]).sorted sort = oneKey first [oneItem crc] :=
    congrArg (oneKey first) (List.perm_singleton.1 (hsort.perm compareElementsCache [oneItem crc]))
  have haddr : (oneItem crc).paddr.toNat < 10 := by
    rw [oneItem, toNat_mod_ten crc 0 (by decide)]
    exact (Nat.zero_add _).trans_lt (Nat.mod_lt _ (by omega))
  have hloop : storeItems (oneKey first [oneItem crc]) [oneItem crc] Filling.empty =
      .ok (Filling.empty.store (oneKey first [oneItem crc]) (oneItem crc)) := by
    have hsize : (Filling.empty.numStored : ℤ) < (oneKey first [oneItem crc]).memorySize.toInt := by
      change ((0 : ℕ) : ℤ) < (10 : BitVec 32).toInt
      decide
    have hkey : ¬ ((oneItem crc).key.extractLsb' 32 32 = 0 ∧ (oneItem crc).key.extractLsb' 0 32 = 0) := by
      change ¬ ((7 : BitVec 64).extractLsb' 32 32 = 0 ∧ (7 : BitVec 64).extractLsb' 0 32 = 0)
      decide
    rw [storeItems, if_pos hsize, if_neg (by unfold maxCacheSize; omega), if_neg (by simp [Filling.empty]),
      if_neg hkey, if_neg (by unfold maxData; omega), storeItems]
  rw [CacheState.handle, timerCache, hsorted]
  dsimp only
  rw [show (oneKey first [oneItem crc]).requestedItems = [oneItem crc] from rfl, hloop]
  rfl

/-- The tick is timely if the allocation has not moved. -/
theorem timely_tick_oneKey : Timely crc ⟨oneKey 0 [oneItem crc], 0, [7], none⟩ .tick := by
  intro _ item hitem
  obtain rfl : item = oneItem crc := List.mem_singleton.1 hitem
  refine ⟨requestAddress_oneKey crc 0 [oneItem crc], ?_⟩
  rw [oneItem, toNat_mod_ten crc 0 (by decide)]
  exact (Nat.zero_add _).trans_lt ((Nat.mod_lt _ (by omega)).trans (by decide))

/-- The entry is not where requests go if the allocation has moved. -/
theorem not_entriesRight_oneKey {s : CacheState} (hctxt : s.ctxt = { oneKey 100 [oneItem crc] with
      timerResetTrigger := true }) (hasked : s.asked = [7]) :
    ¬ EntriesRight crc s (Filling.empty.store (oneKey 100 [oneItem crc]) (oneItem crc)).data := by
  intro h
  have hword : (Filling.empty.store (oneKey 100 [oneItem crc]) (oneItem crc)).data 1
      (oneItem crc).paddr.toNat ≠ 0 := by
    rw [Filling.data_store, if_pos rfl]
    change (if (1 : Stage) = 2 then (1 : BitVec 32) else if (1 : Stage) = 1 then
      (7 : BitVec 64).extractLsb' 0 32 else _) ≠ 0
    rw [if_neg (by decide), if_pos rfl]
    decide
  obtain ⟨-, k, hk, paddr, haddr, ha, -⟩ := h 1 (oneItem crc).paddr.toNat hword
  -- a request for the key goes to the cells from 100 on
  rw [hasked, List.mem_singleton] at hk
  rw [hctxt, hk] at haddr
  have hnow : paddr = 100 + crc 7 % 10 :=
    Option.some.inj (haddr.symm.trans (requestAddress_oneKey crc 100 [oneItem crc]))
  rw [hnow, oneItem, toNat_mod_ten crc 100 (by decide), toNat_mod_ten crc 0 (by decide)] at ha
  have h100 : (100 : BitVec 32).toNat = 100 := rfl
  have h0 : (0 : BitVec 32).toNat = 0 := rfl
  omega

end OneKey

/-- The key is stored at the address of its requests. -/
theorem entries_right_oneKey :
    EntriesRight crc32c
      ⟨{ oneKey 0 [oneItem crc32c] with timerResetTrigger := true }, hhItvlMin, [7],
        some (Filling.empty.store (oneKey 0 [oneItem crc32c]) (oneItem crc32c)).data⟩
      (Filling.empty.store (oneKey 0 [oneItem crc32c]) (oneItem crc32c)).data := by
  have hsort : Sorts (@mergeSort CacheItem) := sorts_mergeSort
  have hrun : CacheRun crc32c mergeSort (Timely crc32c) ⟨oneKey 0 [oneItem crc32c], 0, [7], none⟩ :=
    cacheRun_oneKey (fun _ => by decide) fun k hk => ⟨by simp, by simp⟩
  exact (entries_right hsort
    (hrun.step .tick timely_tick_oneKey (handle_tick_oneKey hsort 0))).1 _ rfl

/-- **The allocation moves, and the timer stores the key where it was.** -/
theorem stored_where_it_was :
    ∃ s data, CacheRun crc32c mergeSort (fun _ _ => True) s ∧ s.wrote = some data ∧
      ¬ EntriesRight crc32c s data := by
  have hrun : CacheRun crc32c mergeSort (fun _ _ => True)
      ⟨oneKey 100 [oneItem crc32c], 0, [7], none⟩ :=
    .step (cacheRun_oneKey trivial trivial) (.reset (tenCells 100)) trivial rfl
  exact ⟨_, _, hrun.step .tick trivial (handle_tick_oneKey sorts_mergeSort 100), rfl,
    not_entriesRight_oneKey rfl rfl⟩

end ActiveRmt
