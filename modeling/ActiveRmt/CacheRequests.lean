/-
**The cache: its requests, and the addresses they go to.**

The cache keeps a key in two stages and its value in a third, all at one address.  The address comes
from a hash of the key, reduced to the cells that the three stages have in common; how many there are
is computed without a sign, stored with one, tested with it, and used without it again.

For each request the cache counts the key in a table.  The table finds a key by its first four bytes.

Main definitions:

* `TxFill` — what a handler does to the arguments of a packet;
* `CacheItem`, `CacheContext` — the state of the application;
* `memoryResetCache`, `payloadParserCache` — **a new allocation, and a request**;
* `InCommon` — an address that the three stages have in common;
* `CountsPerKey` — the table has each key once, with the number of its requests.

Main results:

* `addresses_in_common` — **a request goes to an address that the three stages have in common**;
* `counted_requests` — what the table says: the requests, counted by the first four bytes of the key;
* `counts_per_key_iff` — **exactly when it counts the requests of each key**.
-/

import ActiveRmt.ControlLoop
import ActiveRmt.KeyedTable

set_option relaxedAutoImplicit false
set_option autoImplicit false

namespace ActiveRmt

open KeyedTable

/-! ### The packets of an application -/

/-- `IPPROTO_UDP`. -/
def protoUdp : Byte := 17

/-- `next_proto_id` of the IPv4 header. -/
def nextProtoId (inet : Buffer) : Byte := inet 9

/-- The payload stands behind the IPv4 and the UDP header. -/
def payloadStart : ℕ := 20 + 8

/-- **What a handler does to the arguments of a packet.** -/
inductive TxFill
  /-- It returns before it touches them. -/
  | kept
  /-- It clears them. -/
  | cleared
  /-- It clears them and writes them. -/
  | written (args : Args)

/-! ### The cache -/

/-- `cache_item_t`. -/
structure CacheItem where
  /-- The hash. -/
  vaddr : BitVec 32
  /-- The address of the last request. -/
  paddr : BitVec 32
  /-- The key. -/
  key : BitVec 64
  /-- How often it was asked for. -/
  freq : BitVec 32

/-- **`HASH_FIND_INT` and `HASH_ADD_INT` look at the first `sizeof(int)` bytes** of a key. -/
def hashInt (key : BitVec 64) : BitVec 32 := key.setWidth 32

/-- The part of an item that the table looks at. -/
def CacheItem.hashed (item : CacheItem) : BitVec 32 := hashInt item.key

/-- `cache_context_t`. -/
structure CacheContext where
  /-- The stage of the upper half of a key. -/
  stageIdKey0 : Stage
  /-- The stage of the lower half of a key. -/
  stageIdKey1 : Stage
  /-- The stage of the values. -/
  stageIdValue : Stage
  /-- The first cell that the stages have in common. -/
  memoryStart : BitVec 32
  /-- The number of cells, an `int`. -/
  memorySize : BitVec 32
  /-- The table. -/
  requestedItems : List CacheItem
  /-- The memory is about to be written. -/
  timerResetTrigger : Bool

/-- The loop over the stages: `k` of them have been found. -/
def chooseStages (valid : Stage → Bool) : ℕ → List Stage → CacheContext → CacheContext
  | _, [], c => c
  | k, i :: stages, c =>
      if 3 ≤ k then c
      else if valid i = false then chooseStages valid k stages c
      else chooseStages valid (k + 1) stages
        (if k = 0 then { c with stageIdKey0 := i }
         else if k = 1 then { c with stageIdKey1 := i }
         else { c with stageIdValue := i })

/-- The cells that the chosen stages have in common: the first one and their number. -/
def CacheContext.measure (c : CacheContext) (mem : MemoryRegion) : BitVec 32 × BitVec 32 :=
  let memStart := (mem.syncData c.stageIdKey0).memStart
  let memStart := if memStart < (mem.syncData c.stageIdKey1).memStart then
    (mem.syncData c.stageIdKey1).memStart else memStart
  let memStart := if memStart < (mem.syncData c.stageIdValue).memStart then
    (mem.syncData c.stageIdValue).memStart else memStart
  let memEnd := (mem.syncData c.stageIdKey0).memEnd
  let memEnd := if (mem.syncData c.stageIdKey1).memEnd < memEnd then
    (mem.syncData c.stageIdKey1).memEnd else memEnd
  let memEnd := if (mem.syncData c.stageIdValue).memEnd < memEnd then
    (mem.syncData c.stageIdValue).memEnd else memEnd
  (memStart, memEnd - memStart + 1)

/-- **`memory_reset_cache`**, and whether the memory is to be written. -/
def memoryResetCache (mem : MemoryRegion) (c : CacheContext) : CacheContext × Bool :=
  if c.timerResetTrigger then ({ c with timerResetTrigger := false }, true)
  else
    let c := chooseStages mem.validStages 0 (List.finRange 20) c
    let (memStart, memSize) := c.measure mem
    ({ c with memoryStart := memStart, memorySize := memSize }, false)

section Requests

variable (crc : BitVec 64 → BitVec 32)

/-- **The address of a key**, if the stages have enough cells in common. -/
def CacheContext.requestAddress (c : CacheContext) (key : BitVec 64) : Option (BitVec 32) :=
  if c.memorySize.toInt < 2 then none else some (c.memoryStart + crc key % c.memorySize)

/-- A request is counted. -/
def CacheContext.monitor (c : CacheContext) (key : BitVec 64) (paddr : BitVec 32) : CacheContext :=
  { c with
    requestedItems := upsert CacheItem.hashed (hashInt key) ⟨0, 0, key, 0⟩
      (fun item => { item with vaddr := crc key, paddr := paddr, freq := item.freq + 1 })
      c.requestedItems }

/-- **`payload_parser_cache`.** -/
def payloadParserCache (c : CacheContext) (inet : Buffer) : CacheContext × TxFill :=
  if nextProtoId inet ≠ protoUdp then (c, .kept)
  else
    let key := inet.readHost64 payloadStart
    match c.requestAddress crc key with
    | none => (c, .cleared)
    | some paddr =>
        (c.monitor crc key paddr,
          .written (Function.update (Function.update (Function.update (fun _ => 0) argMar paddr)
            argMbr (key.extractLsb' 32 32)) argMbr2 (key.extractLsb' 0 32)))

end Requests

/-! ### Addresses -/

/-- **An address that the three stages have in common.** -/
def InCommon (mem : MemoryRegion) (c : CacheContext) (a : ℕ) : Prop :=
  (mem.syncData c.stageIdKey0).InRange a ∧ (mem.syncData c.stageIdKey1).InRange a ∧
    (mem.syncData c.stageIdValue).InRange a

/-- The stages that were chosen: three with memory, in ascending order. -/
structure Chosen (valid : Stage → Bool) (c : CacheContext) : Prop where
  /-- They have memory. -/
  valid : valid c.stageIdKey0 = true ∧ valid c.stageIdKey1 = true ∧ valid c.stageIdValue = true
  /-- They are in order. -/
  ascending : c.stageIdKey0 < c.stageIdKey1 ∧ c.stageIdKey1 < c.stageIdValue

/-- Stages without memory are passed over. -/
theorem chooseStages_filter (valid : Stage → Bool) (k : ℕ) (stages : List Stage) (c : CacheContext) :
    chooseStages valid k stages c = chooseStages (fun _ => true) k (stages.filter valid) c := by
  induction stages generalizing k c with
  | nil => rfl
  | cons i stages ih =>
      rw [chooseStages]
      split_ifs with hk hi
      · cases (i :: stages).filter valid with
        | nil => rfl
        | cons j rest => rw [chooseStages, if_pos hk]
      · rw [ih, List.filter_cons_of_neg (by simp [hi])]
      all_goals
        rw [ih, List.filter_cons_of_pos (by simpa using hi), chooseStages, if_neg hk, if_neg (by simp)]
        simp [*]

theorem chooseStages_chosen {valid : Stage → Bool} (h : 3 ≤ (List.finRange 20).countP valid)
    (c : CacheContext) : Chosen valid (chooseStages valid 0 (List.finRange 20) c) := by
  rw [chooseStages_filter]
  rw [List.countP_eq_length_filter] at h
  have hsorted : ((List.finRange 20).filter valid).Pairwise (· < ·) :=
    (List.pairwise_lt_finRange 20).filter _
  have hvalid : ∀ i ∈ (List.finRange 20).filter valid, valid i = true :=
    fun i hi => (List.mem_filter.1 hi).2
  match (List.finRange 20).filter valid, h, hsorted, hvalid with
  | s₀ :: s₁ :: s₂ :: rest, _, hsorted, hvalid =>
      have hc : chooseStages (fun _ => true) 0 (s₀ :: s₁ :: s₂ :: rest) c =
          { c with stageIdKey0 := s₀, stageIdKey1 := s₁, stageIdValue := s₂ } := by
        cases rest <;> simp [chooseStages]
      rw [hc]
      simp only [List.pairwise_cons, List.mem_cons, forall_eq_or_imp] at hsorted hvalid
      exact ⟨⟨hvalid.1, hvalid.2.1, hvalid.2.2.1⟩, hsorted.1.1, hsorted.2.1.1⟩

/-- The choice leaves the table and the trigger alone. -/
theorem chooseStages_frame (valid : Stage → Bool) (k : ℕ) (stages : List Stage) (c : CacheContext) :
    (chooseStages valid k stages c).requestedItems = c.requestedItems ∧
      (chooseStages valid k stages c).timerResetTrigger = c.timerResetTrigger := by
  induction stages generalizing k c with
  | nil => exact ⟨rfl, rfl⟩
  | cons i stages ih =>
      rw [chooseStages]
      split_ifs
      · exact ⟨rfl, rfl⟩
      all_goals exact ih _ _

/-- The cells in common, as they are computed: the greatest of the first and the least of the last
ones. -/
theorem measure_spec (mem : MemoryRegion) (c : CacheContext) :
    ∃ memEnd : BitVec 32, c.measure mem = ((c.measure mem).1, memEnd - (c.measure mem).1 + 1) ∧
      (∀ a : ℕ, InCommon mem c a ↔ (c.measure mem).1.toNat ≤ a ∧ a ≤ memEnd.toNat) ∧
      ∀ n, (mem.syncData c.stageIdKey0).memStart.toNat < n → (mem.syncData c.stageIdKey1).memStart.toNat < n →
        (mem.syncData c.stageIdValue).memStart.toNat < n → (mem.syncData c.stageIdKey0).memEnd.toNat < n →
        (c.measure mem).1.toNat < n ∧ memEnd.toNat < n := by
  refine ⟨_, rfl, fun a => ?_, fun n h₀ h₁ h₂ h₃ => ?_⟩
  · unfold InCommon MemoryStage.InRange CacheContext.measure
    dsimp only
    simp only [BitVec.lt_def]
    split_ifs <;> omega
  · unfold CacheContext.measure
    dsimp only
    simp only [BitVec.lt_def]
    split_ifs <;> omega

/-- **A size of two or more is the number of cells**: between bounds below `2 ^ 31` the sign tells
whether there are any. -/
theorem size_of_two_le {s e : BitVec 32} (hs : s.toNat < 2 ^ 31) (he : e.toNat < 2 ^ 31)
    (h : ¬ (e - s + 1).toInt < 2) :
    (e - s + 1).toNat = e.toNat + 1 - s.toNat ∧ s.toNat < e.toNat := by
  rw [BitVec.toInt_eq_toNat_cond] at h
  have hn : (e - s + 1).toNat = (e.toNat + 2 ^ 32 - s.toNat + 1) % 2 ^ 32 := by
    have hone : (1 : BitVec 32).toNat = 1 := rfl
    rw [BitVec.toNat_add, BitVec.toNat_sub, Nat.mod_add_mod, hone]
    congr 1
    omega
  rw [hn] at h ⊢
  split_ifs at h <;> omega

/-- An address of a request. -/
theorem toNat_address {s n v : BitVec 32} {e : ℕ} (hn : n.toNat = e + 1 - s.toNat) (hse : s.toNat < e)
    (he : e < 2 ^ 31) : s.toNat ≤ (s + v % n).toNat ∧ (s + v % n).toNat ≤ e := by
  have hlt : v.toNat % n.toNat < n.toNat := Nat.mod_lt _ (by omega)
  rw [BitVec.toNat_add, BitVec.toNat_umod, Nat.mod_eq_of_lt (by omega)]
  omega

section Reset

variable {mem : MemoryRegion} {c : CacheContext}

/-- A context after a reset, if no write is under way. -/
theorem memoryResetCache_eq (h : c.timerResetTrigger = false) :
    (memoryResetCache mem c).1 =
      { chooseStages mem.validStages 0 (List.finRange 20) c with
        memoryStart := ((chooseStages mem.validStages 0 (List.finRange 20) c).measure mem).1
        memorySize := ((chooseStages mem.validStages 0 (List.finRange 20) c).measure mem).2 } := by
  rw [memoryResetCache, if_neg (by simp [h])]

/-- The address of a key after a reset is one that the three stages have in common, and there are
two such addresses. -/
theorem inCommon_requestAddress {crc : BitVec 64 → BitVec 32} {key : BitVec 64} {paddr : BitVec 32}
    (h3 : 3 ≤ (List.finRange 20).countP mem.validStages)
    (hbounds : ∀ s, mem.validStages s = true →
      (mem.syncData s).memStart ≤ (mem.syncData s).memEnd ∧ (mem.syncData s).memEnd.toNat < 2 ^ 31)
    (htrig : c.timerResetTrigger = false)
    (h : (memoryResetCache mem c).1.requestAddress crc key = some paddr) :
    InCommon mem (memoryResetCache mem c).1 paddr.toNat ∧
      ∃ a b, a ≠ b ∧ InCommon mem (memoryResetCache mem c).1 a ∧
        InCommon mem (memoryResetCache mem c).1 b := by
  rw [memoryResetCache_eq htrig] at h ⊢
  have hchosen := chooseStages_chosen h3 c
  generalize chooseStages mem.validStages 0 (List.finRange 20) c = d at h hchosen ⊢
  obtain ⟨⟨hv₀, hv₁, hv₂⟩, -⟩ := hchosen
  obtain ⟨memEnd, hmeasure, hcommon, hlt⟩ := measure_spec mem d
  obtain ⟨hs, he⟩ := hlt (2 ^ 31) ((hbounds _ hv₀).1.trans_lt (hbounds _ hv₀).2)
    ((hbounds _ hv₁).1.trans_lt (hbounds _ hv₁).2) ((hbounds _ hv₂).1.trans_lt (hbounds _ hv₂).2)
    (hbounds _ hv₀).2
  rw [CacheContext.requestAddress] at h
  split_ifs at h with hsize
  obtain rfl := Option.some.inj h
  dsimp only at hsize ⊢
  rw [hmeasure] at hsize ⊢
  obtain ⟨hn, hse⟩ := size_of_two_le hs he hsize
  obtain ⟨hlow, hhigh⟩ := toNat_address (v := crc key) hn hse he
  have hin : ∀ a, InCommon mem d a ↔ (d.measure mem).1.toNat ≤ a ∧ a ≤ memEnd.toNat := hcommon
  exact ⟨(hin _).2 ⟨hlow, hhigh⟩, (d.measure mem).1.toNat, memEnd.toNat, hse.ne, (hin _).2 ⟨le_rfl, hse.le⟩,
    (hin _).2 ⟨hse.le, le_rfl⟩⟩

/-- The arguments of a request carry its address. -/
theorem payloadParserCache_written {crc : BitVec 64 → BitVec 32} {c : CacheContext} {inet : Buffer}
    {args : Args} (h : (payloadParserCache crc c inet).2 = .written args) :
    c.requestAddress crc (inet.readHost64 payloadStart) = some (args argMar) := by
  rw [payloadParserCache] at h
  split_ifs at h
  dsimp only at h
  split at h
  · cases h
  · rename_i paddr haddr
    rw [← TxFill.written.inj h]
    exact haddr

/-- **A request goes to an address that the three stages have in common**, whatever the hash is, and
no request is made where they have fewer than two. -/
theorem addresses_in_common (crc : BitVec 64 → BitVec 32)
    (h3 : 3 ≤ (List.finRange 20).countP mem.validStages)
    (hbounds : ∀ s, mem.validStages s = true →
      (mem.syncData s).memStart ≤ (mem.syncData s).memEnd ∧ (mem.syncData s).memEnd.toNat < 2 ^ 31)
    (htrig : c.timerResetTrigger = false) :
    Chosen mem.validStages (memoryResetCache mem c).1 ∧ ∀ inet : Buffer,
      (∀ args, (payloadParserCache crc (memoryResetCache mem c).1 inet).2 = .written args →
        InCommon mem (memoryResetCache mem c).1 (args argMar).toNat) ∧
      ((∀ a b, InCommon mem (memoryResetCache mem c).1 a → InCommon mem (memoryResetCache mem c).1 b →
        a = b) → ∀ args, (payloadParserCache crc (memoryResetCache mem c).1 inet).2 ≠ .written args) := by
  refine ⟨?_, fun inet => ⟨fun args h => ?_, fun hone args h => ?_⟩⟩
  · rw [memoryResetCache_eq htrig]
    exact ⟨(chooseStages_chosen h3 c).1, (chooseStages_chosen h3 c).2⟩
  · exact (inCommon_requestAddress h3 hbounds htrig (payloadParserCache_written h)).1
  · obtain ⟨-, a, b, hne, ha, hb⟩ :=
      inCommon_requestAddress h3 hbounds htrig (payloadParserCache_written h)
    exact hne (hone a b ha hb)

end Reset

/-- `rte_zmalloc` of a context. -/
def CacheContext.zero : CacheContext := ⟨0, 0, 0, 0, 0, [], false⟩

/-- `rte_hash_crc_8byte` from zero: the CRC-32C of the eight bytes, first bit first. -/
def crc32c (key : BitVec 64) : BitVec 32 :=
  (Nat.iterate (fun s : BitVec 64 => if s.getLsbD 0 then (s >>> 1) ^^^ 0x82F63B78 else s >>> 1) 64
    key).setWidth 32

/-- A UDP packet with a key. -/
def requestFor (key : BitVec 64) : Buffer :=
  fun k => if k = 9 then protoUdp else key.extractLsb' (8 * (k - payloadStart)) 8

/-- Three stages that overlap from 4 to 8. -/
def overlapping : MemoryRegion :=
  { MemoryRegion.zero with
    syncData := fun s =>
      if s = 2 then ⟨fun _ => 0, fun _ => false, 0, 9⟩
      else if s = 5 then ⟨fun _ => 0, fun _ => false, 4, 20⟩
      else ⟨fun _ => 0, fun _ => false, 3, 8⟩
    validStages := fun s => s = 2 || s = 5 || s = 7 }

/-- The key goes to one of the five cells. -/
theorem addresses_in_common_overlapping :
    Chosen overlapping.validStages (memoryResetCache overlapping CacheContext.zero).1 ∧
      ∃ args, (payloadParserCache crc32c (memoryResetCache overlapping CacheContext.zero).1
          (requestFor 7)).2 = .written args ∧
        InCommon overlapping (memoryResetCache overlapping CacheContext.zero).1 (args argMar).toNat := by
  have h3 : 3 ≤ (List.finRange 20).countP overlapping.validStages := by decide
  obtain ⟨hchosen, hall⟩ := addresses_in_common crc32c (c := CacheContext.zero) h3 (by decide) rfl
  exact ⟨hchosen, _, rfl, (hall (requestFor 7)).1 _ rfl⟩

/-! ### Frequencies -/

/-- The keys that are asked for. -/
def requestedKeys (inets : List Buffer) : List (BitVec 64) :=
  (inets.filter fun inet => nextProtoId inet = protoUdp).map fun inet => inet.readHost64 payloadStart

/-- **What the table says of some requests**: it has one item for each first half of a key, with the
number of the requests that have it. -/
structure Counted (items : List CacheItem) (keys : List (BitVec 64)) : Prop where
  /-- No two items have the same first half. -/
  distinct : Distinct CacheItem.hashed items
  /-- The key of an item was asked for. -/
  mem : ∀ item ∈ items, item.key ∈ keys
  /-- The requests are counted. -/
  freq : ∀ item ∈ items, item.freq = BitVec.ofNat 32 (keys.countP fun k => hashInt k = item.hashed)
  /-- Every request has an item. -/
  covered : ∀ k ∈ keys, ∃ item ∈ items, item.hashed = hashInt k

theorem Counted.nil : Counted [] [] := ⟨Distinct.nil, by simp, by simp, by simp⟩

/-- **A request is counted.** -/
theorem Counted.monitor {c : CacheContext} {keys : List (BitVec 64)} (h : Counted c.requestedItems keys)
    (crc : BitVec 64 → BitVec 32) (key : BitVec 64) (paddr : BitVec 32) :
    Counted (c.monitor crc key paddr).requestedItems (keys ++ [key]) := by
  let count : CacheItem → CacheItem := fun item =>
    { item with vaddr := crc key, paddr := paddr, freq := item.freq + 1 }
  have hmem : ∀ item, item ∈ (c.monitor crc key paddr).requestedItems ↔
      (item ∈ c.requestedItems ∧ item.hashed ≠ hashInt key) ∨
      (∃ x ∈ c.requestedItems, x.hashed = hashInt key ∧ item = count x) ∨
      ((∀ x ∈ c.requestedItems, x.hashed ≠ hashInt key) ∧ item = count ⟨0, 0, key, 0⟩) :=
    fun _ => mem_upsert_iff h.distinct
  refine ⟨h.distinct.upsert (fun _ => rfl) rfl, fun item hitem => ?_, fun item hitem => ?_,
    fun k hk => ?_⟩
  · rcases (hmem item).1 hitem with ⟨hold, -⟩ | ⟨x, hx, -, rfl⟩ | ⟨-, rfl⟩
    · exact List.mem_append_left _ (h.mem item hold)
    · exact List.mem_append_left _ (h.mem x hx)
    · exact List.mem_append_right _ (List.mem_singleton_self key)
  · rw [List.countP_append, List.countP_singleton]
    rcases (hmem item).1 hitem with ⟨hold, hne⟩ | ⟨x, hx, hxk, rfl⟩ | ⟨hno, rfl⟩
    · rw [if_neg (by simpa using Ne.symm hne), Nat.add_zero]
      exact h.freq item hold
    · have hhashed : (count x).hashed = x.hashed := rfl
      have hfreq : (count x).freq = x.freq + 1 := rfl
      rw [hhashed, hfreq, if_pos (by simpa using hxk.symm), h.freq x hx, BitVec.ofNat_add]
      rfl
    · -- the key was not asked for before
      have hzero : keys.countP (fun k => hashInt k = hashInt key) = 0 := by
        refine List.countP_eq_zero.2 fun k hk hkey => ?_
        obtain ⟨item, hitem, hhash⟩ := h.covered k hk
        exact hno item hitem (hhash.trans (of_decide_eq_true hkey))
      rw [show CacheItem.hashed _ = hashInt key from rfl, hzero, if_pos (by simp)]
      rfl
  · rcases List.mem_append.1 hk with hk | hk
    · obtain ⟨x, hx, hxk⟩ := h.covered k hk
      by_cases hkey : x.hashed = hashInt key
      · exact ⟨_, (hmem _).2 (.inr (.inl ⟨x, hx, hkey, rfl⟩)), hxk⟩
      · exact ⟨x, (hmem x).2 (.inl ⟨hx, hkey⟩), hxk⟩
    · obtain rfl := List.mem_singleton.1 hk
      by_cases hold : ∃ x ∈ c.requestedItems, x.hashed = hashInt k
      · obtain ⟨x, hx, hxk⟩ := hold
        exact ⟨_, (hmem _).2 (.inr (.inl ⟨x, hx, hxk, rfl⟩)), hxk⟩
      · exact ⟨_, (hmem _).2 (.inr (.inr ⟨fun x hx hxk => hold ⟨x, hx, hxk⟩, rfl⟩)), rfl⟩

/-- The context after some packets. -/
def afterRequests (crc : BitVec 64 → BitVec 32) (c : CacheContext) (inets : List Buffer) :
    CacheContext :=
  inets.foldl (fun c inet => (payloadParserCache crc c inet).1) c

section Frequencies

variable {crc : BitVec 64 → BitVec 32} {c : CacheContext}

/-- A packet leaves the memory alone, and its key is counted if it has one. -/
theorem counted_payloadParserCache {keys : List (BitVec 64)} (h : Counted c.requestedItems keys)
    (hsize : 2 ≤ c.memorySize.toInt) (inet : Buffer) :
    (payloadParserCache crc c inet).1.memorySize = c.memorySize ∧
      Counted (payloadParserCache crc c inet).1.requestedItems (keys ++ requestedKeys [inet]) := by
  rw [payloadParserCache]
  split_ifs with hudp
  · rw [requestedKeys, List.filter_cons_of_neg (by simpa using hudp)]
    exact ⟨rfl, by simpa using h⟩
  · have haddr : c.requestAddress crc (inet.readHost64 payloadStart) =
        some (c.memoryStart + crc (inet.readHost64 payloadStart) % c.memorySize) :=
      if_neg (by omega)
    rw [requestedKeys, List.filter_cons_of_pos (by simpa using hudp)]
    dsimp only
    rw [haddr]
    exact ⟨rfl, h.monitor crc _ _⟩

/-- **What the table says after some packets.** -/
theorem counted_requests (hempty : c.requestedItems = []) (hsize : 2 ≤ c.memorySize.toInt)
    (inets : List Buffer) :
    (afterRequests crc c inets).memorySize = c.memorySize ∧
      Counted (afterRequests crc c inets).requestedItems (requestedKeys inets) := by
  induction inets using List.reverseRecOn with
  | nil => exact ⟨rfl, by simpa [afterRequests, hempty, requestedKeys] using Counted.nil⟩
  | append_singleton inets inet ih =>
      have hkeys : requestedKeys (inets ++ [inet]) = requestedKeys inets ++ requestedKeys [inet] := by
        simp only [requestedKeys, List.filter_append, List.map_append]
      have hrun : afterRequests crc c (inets ++ [inet]) =
          (payloadParserCache crc (afterRequests crc c inets) inet).1 := List.foldl_append
      rw [hkeys, hrun]
      have hsize' : 2 ≤ (afterRequests crc c inets).memorySize.toInt := ih.1 ▸ hsize
      obtain ⟨hmem, hcounted⟩ := counted_payloadParserCache ih.2 hsize' inet
      exact ⟨hmem.trans ih.1, hcounted⟩

/-- **The requests are counted by key.** -/
structure CountsPerKey (items : List CacheItem) (keys : List (BitVec 64)) : Prop where
  /-- No key has two items. -/
  distinct : Distinct CacheItem.key items
  /-- A key has an item if it was asked for. -/
  mem_iff : ∀ k, (∃ item ∈ items, item.key = k) ↔ k ∈ keys
  /-- The item has the number of the requests. -/
  freq : ∀ item ∈ items, item.freq.toNat = keys.count item.key

/-- The number of an item is that of its key, if no two keys begin with the same four bytes. -/
theorem Counted.freq_eq {items : List CacheItem} {keys : List (BitVec 64)} (h : Counted items keys)
    (hinj : ∀ k ∈ keys, ∀ k' ∈ keys, hashInt k = hashInt k' → k = k') {item : CacheItem}
    (hitem : item ∈ items) (hcount : keys.count item.key < 2 ^ 32) :
    item.freq.toNat = keys.count item.key := by
  have hsame : keys.countP (fun k => hashInt k = item.hashed) = keys.count item.key := by
    rw [List.count]
    refine List.countP_congr fun k hk => ?_
    simp only [decide_eq_true_eq, beq_iff_eq]
    exact ⟨hinj k hk item.key (h.mem item hitem), fun heq => heq ▸ rfl⟩
  rw [h.freq item hitem, hsame, BitVec.toNat_ofNat, Nat.mod_eq_of_lt hcount]

/-- The item of a key, if no two keys begin with the same four bytes. -/
theorem Counted.exists_item {items : List CacheItem} {keys : List (BitVec 64)} (h : Counted items keys)
    (hinj : ∀ k ∈ keys, ∀ k' ∈ keys, hashInt k = hashInt k' → k = k') {k : BitVec 64} (hk : k ∈ keys) :
    ∃ item ∈ items, item.key = k := by
  obtain ⟨item, hitem, heq⟩ := h.covered k hk
  exact ⟨item, hitem, hinj _ (h.mem item hitem) k hk heq⟩

/-- **Exactly when the requests are counted by key**: no two keys that are asked for begin with the
same four bytes. -/
theorem counts_per_key_iff (hempty : c.requestedItems = []) (hsize : 2 ≤ c.memorySize.toInt)
    {inets : List Buffer} (hcount : ∀ k, (requestedKeys inets).count k < 2 ^ 32) :
    CountsPerKey (afterRequests crc c inets).requestedItems (requestedKeys inets) ↔
      ∀ k ∈ requestedKeys inets, ∀ k' ∈ requestedKeys inets, hashInt k = hashInt k' → k = k' := by
  have h : Counted (afterRequests crc c inets).requestedItems (requestedKeys inets) :=
    (counted_requests hempty hsize inets).2
  generalize (afterRequests crc c inets).requestedItems = items at h ⊢
  generalize requestedKeys inets = keys at h hcount ⊢
  constructor
  · intro hper k hk k' hk' heq
    obtain ⟨item, hitem, rfl⟩ := (hper.mem_iff k).2 hk
    obtain ⟨item', hitem', rfl⟩ := (hper.mem_iff k').2 hk'
    rw [h.distinct.eq hitem hitem' heq]
  · intro hinj
    refine ⟨?_, fun k => ⟨?_, fun hk => ?_⟩, fun item hitem => ?_⟩
    · exact List.Nodup.of_map hashInt (by rw [List.map_map]; exact h.distinct)
    · rintro ⟨item, hitem, rfl⟩
      exact h.mem item hitem
    · exact h.exists_item hinj hk
    · exact h.freq_eq hinj hitem (hcount item.key)

end Frequencies

/-- A cache with five cells. -/
def fiveCells : CacheContext := { CacheContext.zero with memoryStart := 4, memorySize := 5 }

/-- Three requests for two keys. -/
theorem counts_per_key_two :
    CountsPerKey (afterRequests crc32c fiveCells [requestFor 7, requestFor 9, requestFor 7]).requestedItems
      (requestedKeys [requestFor 7, requestFor 9, requestFor 7]) := by
  have hkeys : requestedKeys [requestFor 7, requestFor 9, requestFor 7] = [7, 9, 7] := by decide
  refine (counts_per_key_iff (c := fiveCells) rfl (by decide) fun k => ?_).2 ?_
  · exact lt_of_le_of_lt List.count_le_length (by rw [hkeys]; decide)
  · rw [hkeys]
    simp [hashInt]

/-- **Two keys that differ in their other half are one item.** -/
theorem one_item_for_two_keys :
    ∃ c inets, c.requestedItems = [] ∧ 2 ≤ c.memorySize.toInt ∧
      (∀ k, (requestedKeys inets).count k < 2 ^ 32) ∧
      ¬ CountsPerKey (afterRequests crc32c c inets).requestedItems (requestedKeys inets) := by
  have hkeys : requestedKeys [requestFor 1, requestFor 0x100000001] = [1, 0x100000001] := by decide
  refine ⟨fiveCells, [requestFor 1, requestFor 0x100000001], rfl, by decide, fun k => ?_, fun h => ?_⟩
  · exact lt_of_le_of_lt List.count_le_length (by rw [hkeys]; decide)
  · obtain ⟨item, hitem, hkey⟩ := (h.mem_iff 0x100000001).2 (by rw [hkeys]; decide)
    have hone : (afterRequests crc32c fiveCells
        [requestFor 1, requestFor 0x100000001]).requestedItems.map CacheItem.key = [1] := by
      decide +kernel
    have hmem := List.mem_map_of_mem (f := CacheItem.key) hitem
    rw [hone, hkey, List.mem_singleton] at hmem
    exact absurd hmem (by decide)

end ActiveRmt
