/-
**An allocation request, from the client to the controller.**

The client writes its request into a packet: an array of eight bytes for the positions of the memory
accesses and one for their demands, one behind the other.  The switch reads the packet into a digest
with a field for each byte, and the controller takes the pairs up to the first demand that is zero.  The
definition that the client starts from has integers, and up to twenty accesses.

Main definitions:

* `AllocationDef` — what a client knows of its program when it asks for memory;
* `constructReqallocPacket` — **the packet of the client**;
* `mallocDigest` — the digest that the switch makes of a packet;
* `ingressLimit` — the ingress limit that the controller works with;
* `RequestRoundtrip` — the controller gets what the client has.

Main results:

* `readConstraint_eq` — the bytes that the switch reads for an access;
* `reqalloc_roundtrip_iff` — **exactly which definitions survive**.
-/

import ActiveRmt.Controller
import ActiveRmt.Frames

set_option relaxedAutoImplicit false
set_option autoImplicit false

namespace ActiveRmt

open Controller (MallocDigest)

/-! ### The client -/

/-- **A program definition with memory accesses**, as it is read from the files of a program, with the
demands that the application has set. -/
structure AllocationDef where
  /-- `access_idx`. -/
  accessIdx : List ℤ
  /-- `demand`. -/
  demand : List ℤ
  /-- `proglen`. -/
  proglen : ℕ
  /-- `iglim`. -/
  iglim : ℤ
  length_demand : demand.length = accessIdx.length
  length_pos : 0 < accessIdx.length
  length_le : accessIdx.length ≤ 20
  demand_pos : ∀ d ∈ demand, 0 < d
  proglen_le : proglen ≤ maxProgramLen
  iglim_ge : -1 ≤ iglim

/-- The accesses with their demands. -/
def AllocationDef.constraints (p : AllocationDef) : List (ℤ × ℤ) := p.accessIdx.zip p.demand

theorem AllocationDef.map_fst_constraints (p : AllocationDef) :
    p.constraints.map Prod.fst = p.accessIdx := List.map_fst_zip p.length_demand.ge

theorem AllocationDef.map_snd_constraints (p : AllocationDef) :
    p.constraints.map Prod.snd = p.demand := List.map_snd_zip p.length_demand.le

theorem AllocationDef.length_constraints (p : AllocationDef) :
    p.constraints.length = p.accessIdx.length := by
  rw [← p.map_fst_constraints, List.length_map]

/-- `MAX_MEMACCESS`. -/
def maxMemaccess : ℕ := 8

/-- `sizeof(activep4_malloc_req_t)`. -/
def mallocReqLen : ℕ := 3 + 2 * maxMemaccess

/-- Where the request starts. -/
def mallocReqStart : ℕ := etherLen + ihLen

/-- Where its array `mem` starts. -/
def memStart : ℕ := mallocReqStart + 3

/-- Where its array `dem` starts. -/
def demStart : ℕ := memStart + maxMemaccess

/-- **The loop over the accesses**, from access `i` on.  It goes as far as there are accesses, also
beyond the end of an array. -/
def storeConstraints : ℕ → List (ℤ × ℤ) → Buffer → Buffer
  | _, [], b => b
  | i, x :: xs, b =>
      storeConstraints (i + 1) xs
        (Function.update (Function.update b (memStart + i) (BitVec.ofInt 8 x.1)) (demStart + i)
          (BitVec.ofInt 8 x.2))

/-- The header of an empty packet. -/
def emptyIpv4 (cksum : List Byte → BitVec 16) (addr : BitVec 32) : List Byte :=
  let head : List Byte := [0x45, 0] ++ bytes16 20 ++ bytes16 0 ++ bytes16 0 ++ [64, 0]
  let addrs := bytes32 addr ++ bytes32 addr
  head ++ bytes16 (cksum (head ++ bytes16 0 ++ addrs)) ++ addrs

/-- The part of the packet before the arrays, which are cleared. -/
def writeRequest (mac : Fin 6 → Byte) (fid : ℕ) (p : AllocationDef) (b : Buffer) : Buffer :=
  let b := b.write 12 (bytes16 etherTypeAp4)
  let b := b.write 0 (List.ofFn mac ++ List.ofFn mac)
  let header : ActiveHeader := ⟨flagReqalloc, BitVec.ofNat 16 fid, 0⟩
  let b := b.write etherLen header.bytes
  let b := b.write mallocReqStart (List.replicate mallocReqLen 0)
  let b := b.write mallocReqStart (bytes16 (BitVec.ofNat 16 p.proglen))
  b.write (mallocReqStart + 2) [BitVec.ofInt 8 p.iglim]

/-- **`construct_reqalloc_packet`**, into memory that holds something else. -/
def constructReqallocPacket (mac : Fin 6 → Byte) (cksum : List Byte → BitVec 16) (addr : BitVec 32)
    (fid : ℕ) (p : AllocationDef) (b : Buffer) : Buffer :=
  (storeConstraints 0 p.constraints (writeRequest mac fid p b)).write (mallocReqStart + mallocReqLen)
    (emptyIpv4 cksum addr)

/-! ### The switch -/

/-- `flag_reqalloc`. -/
def flagsReqalloc (flags : BitVec 16) : BitVec 2 := flags.extractLsb' 4 2

/-- **The malloc digest of a packet**: the parser extracts a request when `flag_reqalloc` says so, and
the digest is packed unless the packet is about a remap as well. -/
def mallocDigest (b : Buffer) : Option MallocDigest :=
  let flags := b.read16 (etherLen + 4)
  if b.read16 12 = etherTypeAp4 ∧ flagsReqalloc flags = 1 ∧ testFlag flags flagRemapped = false then
    some
      { fid := (b.read16 (etherLen + 6)).toNat
        progLen := (b.read16 mallocReqStart).toNat
        igLim := (b (mallocReqStart + 2)).toNat
        constraints := fun k => ((b (memStart + k)).toNat, (b (demStart + k)).toNat) }
  else none

/-! ### The controller -/

/-- The ingress limit that `allocate` works with. -/
def Controller.ingressLimit (cfg : ControllerConfig) (req : Request) : ℤ :=
  if req.igLim = 255 ∨ cfg.leastConstrained then -1 else req.igLim

theorem Controller.activeFunction_eq (cfg : ControllerConfig) (req : Request) :
    activeFunction cfg req = ActiveFunction.init req.fid req.accessIdx (ingressLimit cfg req)
      req.progLen req.minDemand cfg.leastConstrained := rfl

/-- **The controller gets what the client has.** -/
structure RequestRoundtrip (cfg : ControllerConfig) (p : AllocationDef) (req : Request) : Prop where
  accessIdx : req.accessIdx.map Int.ofNat = p.accessIdx
  minDemand : req.minDemand.map Int.ofNat = p.demand
  progLen : req.progLen = p.proglen
  igLim : Controller.ingressLimit cfg req = p.iglim
  allocate : req.allocate = true

/-! ### What the switch reads -/

section Reading

variable {b : Buffer} {l : List (ℤ × ℤ)} {i j q : ℕ}

/-- A byte that the loop does not write. -/
theorem storeConstraints_of_ne
    (h : ∀ k < l.length, q ≠ memStart + (i + k) ∧ q ≠ demStart + (i + k)) :
    storeConstraints i l b q = b q := by
  induction l generalizing i b with
  | nil => rfl
  | cons x xs ih =>
      have h0 : q ≠ memStart + i ∧ q ≠ demStart + i := h 0 (Nat.succ_pos _)
      rw [storeConstraints, ih, Function.update_of_ne h0.2, Function.update_of_ne h0.1]
      intro k hk
      have hk' := h (k + 1) (Nat.succ_lt_succ hk)
      rwa [show i + 1 + k = i + (k + 1) by omega]

/-- **What the loop leaves for an access**, as long as the accesses fit the array. -/
theorem storeConstraints_add {x : ℤ × ℤ} (hlen : i + l.length ≤ maxMemaccess) (h : l[j]? = some x) :
    storeConstraints i l b (memStart + (i + j)) = BitVec.ofInt 8 x.1 ∧
      storeConstraints i l b (demStart + (i + j)) = BitVec.ofInt 8 x.2 := by
  have h8 : maxMemaccess = 8 := rfl
  have hdem : demStart = memStart + 8 := rfl
  induction l generalizing i j b with
  | nil => simp at h
  | cons y ys ih =>
      rw [List.length_cons] at hlen
      cases j with
      | zero =>
          obtain rfl : y = x := Option.some.inj h
          rw [storeConstraints, storeConstraints_of_ne, storeConstraints_of_ne, Nat.add_zero,
            Function.update_self, Function.update_of_ne (by omega), Function.update_self]
          · exact ⟨rfl, rfl⟩
          all_goals
            intro k hk
            omega
      | succ j =>
          rw [show i + (j + 1) = i + 1 + j by omega]
          exact ih (by omega) h

end Reading

section Roundtrip

variable {cfg : ControllerConfig} {mac : Fin 6 → Byte} {cksum : List Byte → BitVec 16}
  {addr : BitVec 32} {fid : ℕ} {p : AllocationDef} {b : Buffer}

/-- The part before the request. -/
theorem slice_writeRequest_head {start n : ℕ} (h : start + n ≤ mallocReqStart) :
    (writeRequest mac fid p b).slice start n =
      (((b.write 12 (bytes16 etherTypeAp4)).write 0 (List.ofFn mac ++ List.ofFn mac)).write etherLen
        (ActiveHeader.bytes ⟨flagReqalloc, BitVec.ofNat 16 fid, 0⟩)).slice start n := by
  rw [writeRequest, Buffer.slice_write_of_ge (by omega), Buffer.slice_write_of_ge h,
    Buffer.slice_write_of_ge h]

theorem writeRequest_etherType : (writeRequest mac fid p b).read16 12 = etherTypeAp4 := by
  have h24 : mallocReqStart = 24 := rfl
  have h14 : etherLen = 14 := rfl
  refine Buffer.read16_eq ?_
  rw [slice_writeRequest_head (by omega), Buffer.slice_write_of_ge (by omega),
    Buffer.slice_write_of_le (by simp), Buffer.slice_write _ _ (length_bytes16 _)]

theorem writeRequest_header :
    (writeRequest mac fid p b).read16 (etherLen + 4) = flagReqalloc ∧
      (writeRequest mac fid p b).read16 (etherLen + 6) = BitVec.ofNat 16 fid := by
  set header : ActiveHeader := ⟨flagReqalloc, BitVec.ofNat 16 fid, 0⟩ with hheader
  have hslice : (writeRequest mac fid p b).slice etherLen (4 + (2 + (2 + 2))) =
      bytes32 activeSig ++ (bytes16 header.flags ++ (bytes16 header.fid ++ bytes16 header.seq)) := by
    rw [slice_writeRequest_head (by decide),
      Buffer.slice_write _ _ (show header.bytes.length = 4 + (2 + (2 + 2)) from rfl)]
    simp [ActiveHeader.bytes, hheader]
  rw [Buffer.slice_add, Buffer.slice_add, Buffer.slice_add] at hslice
  obtain ⟨-, hslice⟩ := List.append_inj hslice (by simp)
  obtain ⟨hflags, hslice⟩ := List.append_inj hslice (by simp)
  obtain ⟨hfid, -⟩ := List.append_inj hslice (by simp)
  exact ⟨Buffer.read16_eq hflags, Buffer.read16_eq hfid⟩

theorem writeRequest_lengths :
    (writeRequest mac fid p b).read16 mallocReqStart = BitVec.ofNat 16 p.proglen ∧
      writeRequest mac fid p b (mallocReqStart + 2) = BitVec.ofInt 8 p.iglim := by
  constructor
  · refine Buffer.read16_eq ?_
    rw [writeRequest, Buffer.slice_write_of_ge le_rfl, Buffer.slice_write _ _ (length_bytes16 _)]
  · exact Buffer.write_add (i := 0) rfl

/-- The arrays are cleared. -/
theorem writeRequest_arrays {q : ℕ} (hlow : memStart ≤ q) (hhigh : q < memStart + 16) :
    writeRequest mac fid p b q = 0 := by
  have h27 : memStart = mallocReqStart + 3 := rfl
  have h19 : mallocReqLen = 19 := rfl
  obtain ⟨k, rfl⟩ := Nat.exists_eq_add_of_le (show mallocReqStart ≤ q by omega)
  rw [writeRequest, Buffer.write_of_le (by simp; omega), Buffer.write_of_le (by simp; omega),
    Buffer.write_add]
  rw [List.getElem?_replicate, if_pos (by omega)]

theorem constructReqallocPacket_of_lt {q : ℕ} (hq : q < memStart + 16) :
    constructReqallocPacket mac cksum addr fid p b q =
      storeConstraints 0 p.constraints (writeRequest mac fid p b) q :=
  Buffer.write_of_lt hq

/-- What stands before the arrays. -/
theorem constructReqallocPacket_head {q : ℕ} (hq : q < memStart) :
    constructReqallocPacket mac cksum addr fid p b q = writeRequest mac fid p b q := by
  have hdem : demStart = memStart + 8 := rfl
  rw [constructReqallocPacket_of_lt (by omega), storeConstraints_of_ne]
  intro k _
  omega

theorem read16_constructReqallocPacket {start : ℕ} (h : start + 1 < memStart) :
    (constructReqallocPacket mac cksum addr fid p b).read16 start =
      (writeRequest mac fid p b).read16 start := by
  rw [Buffer.read16, Buffer.read16, constructReqallocPacket_head (Nat.lt_of_succ_lt h),
    constructReqallocPacket_head h]

/-- The bytes that the switch reads for access `k`. -/
def readConstraint (c : Buffer) (k : ℕ) : ℕ × ℕ := ((c (memStart + k)).toNat, (c (demStart + k)).toNat)

/-- The bytes of an access. -/
def constraintBytes (x : ℤ × ℤ) : ℕ × ℕ := ((BitVec.ofInt 8 x.1).toNat, (BitVec.ofInt 8 x.2).toNat)

/-- **The bytes that the switch reads for the accesses**, when they fit the arrays. -/
theorem readConstraint_eq {k : ℕ} (hn : p.accessIdx.length ≤ maxMemaccess) (hk : k < maxMemaccess) :
    readConstraint (constructReqallocPacket mac cksum addr fid p b) k =
      (p.constraints[k]?.map constraintBytes).getD (0, 0) := by
  have h8 : maxMemaccess = 8 := rfl
  have hdem : demStart = memStart + 8 := rfl
  rw [← p.length_constraints] at hn
  rw [readConstraint, constructReqallocPacket_of_lt (by omega),
    constructReqallocPacket_of_lt (by omega)]
  cases hx : p.constraints[k]? with
  | some x =>
      have h := storeConstraints_add (b := writeRequest mac fid p b) (i := 0) (by omega) hx
      rw [Nat.zero_add] at h
      rw [h.1, h.2]
      rfl
  | none =>
      have hlen := List.getElem?_eq_none_iff.1 hx
      rw [storeConstraints_of_ne, storeConstraints_of_ne, writeRequest_arrays (by omega) (by omega),
        writeRequest_arrays (by omega) (by omega)]
      · rfl
      all_goals
        intro i hi
        omega

/-- **The digest of the packet.** -/
theorem mallocDigest_constructReqallocPacket :
    mallocDigest (constructReqallocPacket mac cksum addr fid p b) = some
      { fid := (BitVec.ofNat 16 fid).toNat
        progLen := p.proglen
        igLim := (BitVec.ofInt 8 p.iglim).toNat
        constraints := fun k => readConstraint (constructReqallocPacket mac cksum addr fid p b) k } := by
  have h27 : memStart = 27 := rfl
  have h24 : mallocReqStart = 24 := rfl
  have h14 : etherLen = 14 := rfl
  have h50 : maxProgramLen = 50 := rfl
  have hlen := p.proglen_le
  have hproglen : (BitVec.ofNat 16 p.proglen).toNat = p.proglen := by
    rw [BitVec.toNat_ofNat]
    omega
  rw [mallocDigest, read16_constructReqallocPacket (by omega),
    read16_constructReqallocPacket (by omega), read16_constructReqallocPacket (by omega),
    read16_constructReqallocPacket (by omega), constructReqallocPacket_head (by omega),
    writeRequest_etherType, writeRequest_header.1, writeRequest_header.2, writeRequest_lengths.1,
    writeRequest_lengths.2, hproglen, if_pos ⟨rfl, by decide, by decide⟩]
  rfl

variable (mac cksum addr fid b) in
/-- **The request of the packet**, when the accesses fit and no demand is lost. -/
theorem request_constraints (hn : p.accessIdx.length ≤ maxMemaccess) (hdem : ∀ d ∈ p.demand, d ≤ 255) :
    ((List.finRange 8).map fun k => readConstraint (constructReqallocPacket mac cksum addr fid p b)
      k.val).takeWhile (fun x => decide (0 < x.2)) = p.constraints.map constraintBytes := by
  have h8 : maxMemaccess = 8 := rfl
  have hsplit : ((List.finRange 8).map fun k =>
      readConstraint (constructReqallocPacket mac cksum addr fid p b) k.val) =
        p.constraints.map constraintBytes ++ List.replicate (8 - p.accessIdx.length) (0, 0) := by
    refine List.ext_getElem? fun k => ?_
    rw [List.getElem?_map, List.getElem?_append, List.length_map, p.length_constraints]
    by_cases hk : k < 8
    · have hfin : (List.finRange 8)[k]? = some ⟨k, hk⟩ := by simp [hk]
      rw [hfin, Option.map_some, readConstraint_eq hn (by omega)]
      dsimp only
      split_ifs with hlt
      · rw [List.getElem?_map, List.getElem?_eq_getElem (p.length_constraints.symm ▸ hlt)]
        rfl
      · rw [List.getElem?_replicate, if_pos (by omega),
          List.getElem?_eq_none (by rw [p.length_constraints]; omega)]
        rfl
    · rw [List.getElem?_eq_none (by simp; omega), if_neg (by omega),
        List.getElem?_eq_none (by simp; omega)]
      rfl
  have hzeros : ∀ n, (List.replicate n ((0, 0) : ℕ × ℕ)).takeWhile (fun x => decide (0 < x.2)) = [] := by
    intro n
    cases n <;> simp [List.replicate_succ]
  rw [hsplit, List.takeWhile_append_of_pos]
  · rw [hzeros, List.append_nil]
  · intro x hx
    obtain ⟨y, hy, rfl⟩ := List.mem_map.1 hx
    have hmem : y.2 ∈ p.demand := by
      rw [← p.map_snd_constraints]
      exact List.mem_map_of_mem hy
    have hpos := p.demand_pos _ hmem
    have hle := hdem _ hmem
    simp only [constraintBytes, BitVec.toNat_ofInt, decide_eq_true_eq]
    omega

theorem toNat_ofInt_of_le {x : ℤ} (h0 : 0 ≤ x) (h : x ≤ 255) :
    Int.ofNat (BitVec.ofInt 8 x).toNat = x := by
  rw [BitVec.toNat_ofInt]
  simp only [Int.ofNat_eq_natCast]
  omega

/-- Everything in a request is a byte, and there are at most eight accesses. -/
theorem request_bounds (d : MallocDigest) (hbyte : ∀ k, (d.constraints k).1 < 256 ∧
    (d.constraints k).2 < 256) : d.request.accessIdx.length ≤ 8 ∧
      (∀ x ∈ d.request.accessIdx, x < 256) ∧ ∀ x ∈ d.request.minDemand, x < 256 := by
  have hused : ∀ x ∈ ((List.finRange 8).map d.constraints).takeWhile (fun p => decide (0 < p.2)),
      x.1 < 256 ∧ x.2 < 256 := by
    intro x hx
    obtain ⟨k, -, rfl⟩ := List.mem_map.1 (List.takeWhile_subset _ hx)
    exact hbyte k
  refine ⟨?_, fun x hx => ?_, fun x hx => ?_⟩
  · have hlen := (List.takeWhile_sublist (fun p => decide (0 < p.2))
      (l := (List.finRange 8).map d.constraints)).length_le
    simpa [MallocDigest.request] using hlen
  · obtain ⟨y, hy, rfl⟩ := List.mem_map.1 hx
    exact (hused y hy).1
  · obtain ⟨y, hy, rfl⟩ := List.mem_map.1 hx
    exact (hused y hy).2

/-- **When the byte of an ingress limit says what it should.** -/
theorem ingressLimit_eq_iff {req : Request} {x : ℤ} (hreq : req.igLim = (BitVec.ofInt 8 x).toNat)
    (hx : -1 ≤ x) :
    Controller.ingressLimit cfg req = x ↔ x ≤ 254 ∧ (cfg.leastConstrained = true → x = -1) := by
  have hbyte : req.igLim = (x % 256).toNat := by
    rw [hreq, BitVec.toNat_ofInt]
    rfl
  unfold Controller.ingressLimit
  cases hmode : cfg.leastConstrained with
  | true =>
      rw [if_pos (Or.inr rfl)]
      exact ⟨fun h => by subst h; exact ⟨by decide, fun _ => rfl⟩, fun h => (h.2 rfl).symm⟩
  | false =>
      simp only [Bool.false_eq_true, or_false, false_implies, and_true]
      split_ifs with h255 <;> omega

/-- **Exactly which definitions survive**: at most eight accesses, at positions below 256, demands below
256, an ingress limit below 255, and none when the controller ignores it. -/
theorem reqalloc_roundtrip_iff (cfg : ControllerConfig) (mac : Fin 6 → Byte)
    (cksum : List Byte → BitVec 16) (addr : BitVec 32) (fid : ℕ) (p : AllocationDef) (b : Buffer) :
    (∃ d, mallocDigest (constructReqallocPacket mac cksum addr fid p b) = some d ∧
      RequestRoundtrip cfg p d.request) ↔
      p.accessIdx.length ≤ maxMemaccess ∧ (∀ a ∈ p.accessIdx, 0 ≤ a ∧ a ≤ 255) ∧
        (∀ d ∈ p.demand, d ≤ 255) ∧ p.iglim ≤ 254 ∧ (cfg.leastConstrained = true → p.iglim = -1) := by
  have higlim := p.iglim_ge
  constructor
  · rintro ⟨d, hd, hround⟩
    rw [mallocDigest_constructReqallocPacket] at hd
    obtain rfl := Option.some.inj hd
    obtain ⟨hlength, haccess, hdemand⟩ := request_bounds
      ⟨(BitVec.ofNat 16 fid).toNat, p.proglen, (BitVec.ofInt 8 p.iglim).toNat,
        fun k => readConstraint (constructReqallocPacket mac cksum addr fid p b) k⟩ fun k =>
      ⟨BitVec.isLt (constructReqallocPacket mac cksum addr fid p b (memStart + k)),
        BitVec.isLt (constructReqallocPacket mac cksum addr fid p b (demStart + k))⟩
    refine ⟨?_, fun a ha => ?_, fun x hx => ?_, (ingressLimit_eq_iff rfl higlim).1 hround.igLim⟩
    · rw [← hround.accessIdx, List.length_map]
      exact hlength
    · rw [← hround.accessIdx] at ha
      obtain ⟨y, hy, rfl⟩ := List.mem_map.1 ha
      have := haccess y hy
      simp only [Int.ofNat_eq_natCast]
      omega
    · rw [← hround.minDemand] at hx
      obtain ⟨y, hy, rfl⟩ := List.mem_map.1 hx
      have := hdemand y hy
      simp only [Int.ofNat_eq_natCast]
      omega
  · rintro ⟨hn, haccess, hdemand, hlimit⟩
    refine ⟨_, mallocDigest_constructReqallocPacket, ?_⟩
    have hused := request_constraints mac cksum addr fid b hn hdemand
    have hfst : p.constraints.map (fun x => Int.ofNat (constraintBytes x).1) = p.accessIdx := by
      conv_rhs => rw [← p.map_fst_constraints]
      refine List.map_congr_left fun x hx => ?_
      have hmem : x.1 ∈ p.accessIdx := by
        rw [← p.map_fst_constraints]
        exact List.mem_map_of_mem hx
      exact toNat_ofInt_of_le (haccess _ hmem).1 (haccess _ hmem).2
    have hsnd : p.constraints.map (fun x => Int.ofNat (constraintBytes x).2) = p.demand := by
      conv_rhs => rw [← p.map_snd_constraints]
      refine List.map_congr_left fun x hx => ?_
      have hmem : x.2 ∈ p.demand := by
        rw [← p.map_snd_constraints]
        exact List.mem_map_of_mem hx
      exact toNat_ofInt_of_le (p.demand_pos _ hmem).le (hdemand _ hmem)
    constructor
    · simp only [MallocDigest.request, hused, List.map_map, Function.comp_def]
      exact hfst
    · simp only [MallocDigest.request, hused, List.map_map, Function.comp_def]
      exact hsnd
    · rfl
    · exact (ingressLimit_eq_iff rfl higlim).2 hlimit
    · simp only [MallocDigest.request, hused]
      have hpos := p.length_pos
      rw [← p.length_constraints] at hpos
      simpa [List.isEmpty_iff, ← List.length_pos_iff] using hpos

/-- A definition with one access. -/
def oneAccess (demand : ℤ) (h : 0 < demand) : AllocationDef where
  accessIdx := [3]
  demand := [demand]
  proglen := 12
  iglim := -1
  length_demand := rfl
  length_pos := Nat.one_pos
  length_le := by decide
  demand_pos := by simpa using h
  proglen_le := by decide
  iglim_ge := le_rfl

/-- **A demand of 256 blocks is read as no demand**, and the request as one to depart. -/
theorem demand_lost :
    ∃ d, mallocDigest (constructReqallocPacket (fun _ => 0) (fun _ => 0) 0 1
        (oneAccess 256 (by decide)) (fun _ => 0)) = some d ∧ d.request.allocate = false ∧
      ∀ cfg, ¬ RequestRoundtrip cfg (oneAccess 256 (by decide)) d.request := by
  have hd : (mallocDigest (constructReqallocPacket (fun _ => 0) (fun _ => 0) 0 1
      (oneAccess 256 (by decide)) (fun _ => 0))).map (fun d => d.request.allocate) = some false := by
    decide +kernel
  obtain ⟨d, hd, hallocate⟩ := Option.map_eq_some_iff.1 hd
  exact ⟨d, hd, hallocate, fun cfg hround => by simp [hround.allocate] at hallocate⟩

end Roundtrip

end ActiveRmt
