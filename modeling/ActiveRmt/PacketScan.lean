/-
**Scanning a packet for its headers.**

The length of an active program is not in the packet; it is found by a scan for the first opcode that is
zero.  The scan counts the bytes that remain once, before it begins, so nothing but a zero opcode ends it,
and what it returns may lie behind the packet.  The checks behind it compare a signed difference with an
unsigned size: a negative difference passes.  The length of the payload is then computed from the length of
the whole IP datagram, of which only the transport header is taken off.

A packet is a list of bytes in memory, and what stands behind it can be anything.  A read behind the end of
memory is a fault.

Main definitions:

* `NetUtils.getActiveEof` — the scan, with the addresses that it reads;
* `NetUtils.extractNetworkHeaders` — the headers of a packet;
* `NetUtils.ScanSafe`, `NetUtils.PacketSafe` — nothing behind the end is read or handed on;
* `NetUtils.HeadersFit` — what the bytes of a packet have to say for that.

Main results:

* `NetUtils.getActiveEof_eq_some_iff` — what the scan finds;
* `NetUtils.extractTransport_inside_iff` — the transport header and the payload;
* `NetUtils.exists_outside` — a scan that leaves the packet can find headers behind it;
* `NetUtils.packet_scan_iff` — **exactly when the scan and the headers are safe**.
-/

import ActiveRmt.Frames

set_option relaxedAutoImplicit false
set_option autoImplicit false

namespace ActiveRmt

namespace NetUtils

/-! ### Memory -/

/-- A signed number compared with a size: it is converted to an unsigned one, so that a negative number is
not less than any size. -/
def sizeLt (x : ℤ) (size : ℕ) : Prop := 0 ≤ x ∧ x < size

instance (x : ℤ) (size : ℕ) : Decidable (sizeLt x size) := inferInstanceAs (Decidable (_ ∧ _))

/-- `ntohs` of two bytes of memory. -/
def load16 (mem : List Byte) (o : ℕ) : Option (BitVec 16) := do
  let b ← mem[o]?
  let c ← mem[o + 1]?
  pure (b ++ c)

/-- `ntohl` of four bytes of memory. -/
def load32 (mem : List Byte) (o : ℕ) : Option (BitVec 32) := do
  let b ← load16 mem o
  let c ← load16 mem (o + 2)
  pure (b ++ c)

/-! ### The scan for the end of the program -/

/-- The loop of `get_active_eof` at the offset `eof`, with the offsets that it reads.  The opcode is read
before the number of bytes that remain is looked at, and that number stays the same. -/
def eofLoop (remainingBytes : ℤ) (eof : ℕ) : List Byte → Option (ℕ × List ℕ)
  | _ :: opcode :: rest =>
      if opcode = 0 ∨ sizeLt remainingBytes 2 then some (eof + 2, [eof + 1])
      else (eofLoop remainingBytes (eof + 2) rest).map fun r => (r.1, (eof + 1) :: r.2)
  | _ => none

/-- **`get_active_eof`**: what it returns, and the offsets that it reads; `none` when it faults. -/
def getActiveEof (mem : List Byte) (buflen : ℤ) : Option (ℕ × List ℕ) :=
  if sizeLt buflen 2 then some (0, [])
  else eofLoop (buflen - 2) 0 mem

/-- The first opcode that is zero is that of instruction `k`. -/
def FirstZero (mem : List Byte) (k : ℕ) : Prop :=
  mem[2 * k + 1]? = some 0 ∧ ∀ j < k, mem[2 * j + 1]? ≠ some 0

/-- The offsets of the opcodes of `k` instructions from `eof` on. -/
def opcodeOffsets (eof k : ℕ) : List ℕ := (List.range k).map fun j => eof + (2 * j + 1)

section Scan

variable {mem rest : List Byte} {buflen remaining : ℤ} {eof k : ℕ} {a b : Byte}

theorem firstZero_cons_zero : FirstZero (a :: 0 :: rest) k ↔ k = 0 := by
  constructor
  · intro h
    by_contra hk
    exact h.2 0 (Nat.pos_of_ne_zero hk) rfl
  · rintro rfl
    exact ⟨rfl, fun j hj => absurd hj (Nat.not_lt_zero j)⟩

theorem firstZero_cons (hb : b ≠ 0) :
    FirstZero (a :: b :: rest) k ↔ ∃ m, k = m + 1 ∧ FirstZero rest m := by
  have hshift : ∀ j, (a :: b :: rest)[2 * (j + 1) + 1]? = rest[2 * j + 1]? := fun j => by
    rw [show 2 * (j + 1) + 1 = 2 * j + 1 + 1 + 1 by omega, List.getElem?_cons_succ, List.getElem?_cons_succ]
  constructor
  · intro h
    cases k with
    | zero => exact absurd (Option.some.inj h.1) hb
    | succ m =>
        refine ⟨m, rfl, ?_, fun j hj => ?_⟩
        · rw [← hshift]
          exact h.1
        · rw [← hshift]
          exact h.2 (j + 1) (Nat.succ_lt_succ hj)
  · rintro ⟨m, rfl, hm⟩
    refine ⟨by rw [hshift]; exact hm.1, fun j hj => ?_⟩
    cases j with
    | zero =>
        intro h
        exact hb (Option.some.inj h)
    | succ j =>
        rw [hshift]
        exact hm.2 j (Nat.lt_of_succ_lt_succ hj)

theorem FirstZero.lt_length (h : FirstZero mem k) : 2 * k + 1 < mem.length :=
  (List.getElem?_eq_some_iff.1 h.1).1

/-- An opcode that is zero is the first one or comes after it. -/
theorem exists_firstZero (h : mem[2 * k + 1]? = some 0) : ∃ m ≤ k, FirstZero mem m := by
  classical
  have hex : ∃ m, mem[2 * m + 1]? = some 0 := ⟨k, h⟩
  exact ⟨Nat.find hex, Nat.find_min' hex h, Nat.find_spec hex, fun j hj => Nat.find_min hex hj⟩

theorem opcodeOffsets_succ (eof k : ℕ) :
    opcodeOffsets eof (k + 1) = (eof + 1) :: opcodeOffsets (eof + 2) k := by
  unfold opcodeOffsets
  rw [List.range_succ_eq_map, List.map_cons, List.map_map]
  refine congrArg _ (List.map_congr_left fun j _ => ?_)
  rw [Function.comp_apply]
  omega

/-- **The loop ends at the first opcode that is zero**, and without one it runs out of memory. -/
theorem eofLoop_eq_some_iff (hrem : ¬sizeLt remaining 2) {r : ℕ × List ℕ} :
    eofLoop remaining eof mem = some r ↔
      ∃ k, FirstZero mem k ∧ r = (eof + 2 * (k + 1), opcodeOffsets eof (k + 1)) := by
  induction mem using List.twoStepInduction generalizing eof r with
  | nil => simp [eofLoop, FirstZero]
  | singleton a => simp [eofLoop, FirstZero]
  | cons_cons a b rest ih _ =>
      by_cases hb : b = 0
      · subst hb
        simp only [eofLoop, true_or, if_true, Option.some.injEq, firstZero_cons_zero, exists_eq_left]
        exact eq_comm
      · simp only [eofLoop, hb, hrem, or_self, if_false, Option.map_eq_some_iff, firstZero_cons hb]
        constructor
        · rintro ⟨r', hr', rfl⟩
          obtain ⟨k, hk, rfl⟩ := ih.1 hr'
          refine ⟨k + 1, ⟨k, rfl, hk⟩, ?_⟩
          rw [opcodeOffsets_succ eof (k + 1)]
          exact congrArg (·, _) (by simp only; omega)
        · rintro ⟨_, ⟨k, rfl, hk⟩, rfl⟩
          refine ⟨_, ih.2 ⟨k, hk, rfl⟩, ?_⟩
          rw [opcodeOffsets_succ eof (k + 1)]
          exact congrArg (·, _) (by simp only; omega)

/-- **The scan stays inside of the buffer**: it ends, reads nothing at or behind the length, and returns no
more than the length. -/
def ScanSafe (mem : List Byte) (buflen : ℤ) : Prop :=
  ∃ eof reads, getActiveEof mem buflen = some (eof, reads) ∧ (∀ o ∈ reads, (o : ℤ) < buflen) ∧
    (eof : ℤ) ≤ buflen

theorem mem_opcodeOffsets {eof k o : ℕ} : o ∈ opcodeOffsets eof k ↔ ∃ j < k, o = eof + (2 * j + 1) := by
  simp only [opcodeOffsets, List.mem_map, List.mem_range, eq_comm]

/-- The first instruction ends a scan of less than two. -/
theorem getActiveEof_short {mem : List Byte} {buflen : ℤ} (h₂ : 2 ≤ buflen) (h₄ : buflen < 4) :
    getActiveEof mem buflen = if 2 ≤ mem.length then some (2, [1]) else none := by
  have hlong : ¬sizeLt buflen 2 := fun h => by
    have := h.2
    omega
  have hrem : sizeLt (buflen - 2) 2 := ⟨by omega, by omega⟩
  rw [getActiveEof, if_neg hlong]
  match mem with
  | [] => rfl
  | [_] => rfl
  | _ :: _ :: rest =>
      simp only [eofLoop, hrem, or_true, if_true]
      rw [if_pos (by simp)]

/-- A longer scan ends at the first opcode that is zero. -/
theorem getActiveEof_eq_some_iff {mem : List Byte} {buflen : ℤ} (h : buflen < 0 ∨ 4 ≤ buflen)
    {r : ℕ × List ℕ} : getActiveEof mem buflen = some r ↔
      ∃ k, FirstZero mem k ∧ r = (2 * (k + 1), opcodeOffsets 0 (k + 1)) := by
  have hlong : ¬sizeLt buflen 2 := by
    rintro ⟨h0, h2⟩
    omega
  have hrem : ¬sizeLt (buflen - 2) 2 := by
    rintro ⟨h0, h2⟩
    omega
  rw [getActiveEof, if_neg hlong, eofLoop_eq_some_iff hrem]
  simp only [Nat.zero_add]

/-- **When the scan is safe**: the buffer is too short for a second instruction, or it has an opcode that is
zero. -/
theorem scanSafe_iff (mem : List Byte) (buflen : ℤ) :
    ScanSafe mem buflen ↔ 0 ≤ buflen ∧ buflen < 2 ∨ 2 ≤ buflen ∧ buflen < 4 ∧ 2 ≤ mem.length ∨
      ∃ k : ℕ, 2 * (k : ℤ) + 1 < buflen ∧ mem[2 * k + 1]? = some 0 := by
  rcases lt_or_ge buflen 0 with hneg | h0
  · -- a negative length is no bound at all
    constructor
    · rintro ⟨eof, reads, hr, hreads, -⟩
      obtain ⟨k, -, heq⟩ := (getActiveEof_eq_some_iff (Or.inl hneg)).1 hr
      obtain ⟨rfl, rfl⟩ := Prod.mk.inj heq
      have := hreads _ (mem_opcodeOffsets.2 ⟨0, Nat.succ_pos k, rfl⟩)
      omega
    · rintro (h | h | ⟨k, hk, -⟩) <;> omega
  rcases lt_or_ge buflen 2 with h₂ | h₂
  · refine iff_of_true ⟨0, [], ?_, by simp, by omega⟩ (Or.inl ⟨h0, h₂⟩)
    rw [getActiveEof, if_pos ⟨h0, by omega⟩]
  rcases lt_or_ge buflen 4 with h₄ | h₄
  · rw [ScanSafe, getActiveEof_short h₂ h₄]
    split_ifs with hlen
    · refine iff_of_true ⟨2, [1], rfl, fun o ho => ?_, by omega⟩ (Or.inr (Or.inl ⟨h₂, h₄, hlen⟩))
      rw [List.mem_singleton.1 ho]
      omega
    · refine iff_of_false ?_ ?_
      · rintro ⟨eof, reads, hr, -⟩
        cases hr
      rintro (h | h | ⟨k, hk, hz⟩)
      · omega
      · exact hlen h.2.2
      · have := (List.getElem?_eq_some_iff.1 hz).1
        omega
  · constructor
    · rintro ⟨eof, reads, hr, hreads, -⟩
      obtain ⟨k, hk, heq⟩ := (getActiveEof_eq_some_iff (Or.inr h₄)).1 hr
      obtain ⟨rfl, rfl⟩ := Prod.mk.inj heq
      have := hreads _ (mem_opcodeOffsets.2 ⟨k, Nat.lt_succ_self k, rfl⟩)
      exact Or.inr (Or.inr ⟨k, by push_cast at this; omega, hk.1⟩)
    · rintro (h | h | ⟨k, hk, hz⟩)
      · omega
      · omega
      · obtain ⟨m, hm, hfirst⟩ := exists_firstZero hz
        refine ⟨_, _, (getActiveEof_eq_some_iff (Or.inr h₄)).2 ⟨m, hfirst, rfl⟩, fun o ho => ?_, ?_⟩
        · obtain ⟨j, hj, rfl⟩ := mem_opcodeOffsets.1 ho
          omega
        · omega

end Scan

/-! ### The headers of a packet -/

/-- `sizeof(struct iphdr)`. -/
def iphLen : ℕ := 20

/-- `sizeof(struct tcphdr)`. -/
def tcphLen : ℕ := 20

/-- `sizeof(struct udphdr)`. -/
def udphLen : ℕ := 8

/-- `IPPROTO_TCP`. -/
def ipprotoTcp : Byte := 6

/-- `IPPROTO_UDP`. -/
def ipprotoUdp : Byte := 17

/-- `net_headers_t`, with the offset of each header in the packet; `payload` is also what is returned. -/
structure NetHeaders where
  /-- `eth`. -/
  eth : ℕ
  /-- `iph`. -/
  iph : ℕ
  /-- `tcph`. -/
  tcph : Option ℕ
  /-- `udph`. -/
  udph : Option ℕ
  /-- `ap4ih`. -/
  ap4ih : Option ℕ
  /-- `ap4args`. -/
  ap4args : Option ℕ
  /-- `payload`. -/
  payload : ℕ
  /-- `payload_length`. -/
  payloadLength : ℤ
  deriving DecidableEq

/-- `extract_network_headers` from the IP header on, which is at `offset`; the outer `none` is a fault, the
inner one a packet that is refused. -/
def extractTransport (mem : List Byte) (pktlen : ℤ) (ap4ih ap4args : Option ℕ) (offset : ℕ) :
    Option (Option NetHeaders) :=
  if sizeLt (pktlen - offset) iphLen then some none
  else do
    let iph := offset
    let offset := offset + iphLen
    let protocol ← mem[iph + 9]?
    if protocol = ipprotoTcp ∧ ¬sizeLt (pktlen - offset) tcphLen then do
      let doff ← mem[offset + 12]?
      let totLen ← load16 mem (iph + 2)
      let doff := (doff >>> 4).toNat * 4
      pure (some ⟨0, iph, some offset, none, ap4ih, ap4args, offset + doff, totLen.toNat - doff⟩)
    else if protocol = ipprotoUdp ∧ ¬sizeLt (pktlen - offset) udphLen then do
      let totLen ← load16 mem (iph + 2)
      pure (some ⟨0, iph, none, some offset, ap4ih, ap4args, offset + udphLen, totLen.toNat - udphLen⟩)
    else pure none

/-- **`extract_network_headers`.** -/
def extractNetworkHeaders (mem : List Byte) (pktlen : ℤ) : Option (Option NetHeaders) :=
  if sizeLt pktlen etherLen then some none
  else do
    let proto ← load16 mem 12
    if proto = etherTypeAp4 then
      if sizeLt (pktlen - etherLen) ihLen then pure none
      else do
        let sig ← load32 mem etherLen
        if sig ≠ activeSig then pure none
        else do
          let flags ← load16 mem (etherLen + 4)
          let args := testFlag flags flagOptArgs
          let offset := etherLen + ihLen + if args then argsLen else 0
          let eof ← getActiveEof (mem.drop offset) (pktlen - offset)
          extractTransport mem pktlen (some etherLen) (if args then some (etherLen + ihLen) else none)
            (offset + eof.1)
    else extractTransport mem pktlen none none etherLen

/-- The headers that were found, with their sizes. -/
def NetHeaders.spans (h : NetHeaders) : List (ℕ × ℕ) :=
  [(h.eth, etherLen), (h.iph, iphLen)] ++ h.tcph.toList.map (·, tcphLen) ++ h.udph.toList.map (·, udphLen) ++
    h.ap4ih.toList.map (·, ihLen) ++ h.ap4args.toList.map (·, argsLen)

/-- **The headers and the payload lie inside of the packet.** -/
structure Inside (len : ℕ) (h : NetHeaders) : Prop where
  /-- Every header does. -/
  spans : ∀ p ∈ h.spans, p.1 + p.2 ≤ len
  /-- The offset that is returned does. -/
  payload_le : h.payload ≤ len
  /-- The payload has a length. -/
  payloadLength_nonneg : 0 ≤ h.payloadLength
  /-- The payload does. -/
  payload_add_le : h.payload + h.payloadLength ≤ len

/-- **What is returned for a packet lies inside of it**, whatever stands behind the packet. -/
def PacketSafe (packet : List Byte) : Prop :=
  ∀ (rest : List Byte) (h : NetHeaders),
    extractNetworkHeaders (packet ++ rest) packet.length = some (some h) → Inside packet.length h

/-! ### What the bytes of a packet have to say -/

/-- A byte of a packet. -/
def byteAt (packet : List Byte) (o : ℕ) : Byte := packet.getD o 0

/-- Two bytes of a packet. -/
def wordAt (packet : List Byte) (o : ℕ) : BitVec 16 := byteAt packet o ++ byteAt packet (o + 1)

/-- **The total length of an IP packet** is that of the transport header and the payload: it is no less than
the transport header, and behind the IP header there is as much of the packet. -/
def TransportFits (packet : List Byte) (ip : ℕ) : Prop :=
  (byteAt packet (ip + 9) = ipprotoTcp → ip + iphLen + tcphLen ≤ packet.length →
    (byteAt packet (ip + iphLen + 12) >>> 4).toNat * 4 ≤ (wordAt packet (ip + 2)).toNat ∧
      ip + iphLen + (wordAt packet (ip + 2)).toNat ≤ packet.length) ∧
  (byteAt packet (ip + 9) = ipprotoUdp → ip + iphLen + udphLen ≤ packet.length →
    udphLen ≤ (wordAt packet (ip + 2)).toNat ∧
      ip + iphLen + (wordAt packet (ip + 2)).toNat ≤ packet.length)

instance (packet : List Byte) (ip : ℕ) : Decidable (TransportFits packet ip) :=
  inferInstanceAs (Decidable (_ ∧ _))

/-- Where the program of an active packet begins. -/
def programOffset (packet : List Byte) : ℕ :=
  etherLen + ihLen + if testFlag (wordAt packet (etherLen + 4)) flagOptArgs then argsLen else 0

/-- **The headers of a packet fit**: an active program has an opcode that is zero, unless there is no room
for an IP header anyway, and the length of the IP packet behind it fits. -/
def HeadersFit (packet : List Byte) : Prop :=
  etherLen ≤ packet.length →
    if wordAt packet 12 = etherTypeAp4 then
      etherLen + ihLen ≤ packet.length → wordAt packet etherLen ++ wordAt packet (etherLen + 2) = activeSig →
        programOffset packet ≤ packet.length ∧ packet.length < programOffset packet + 4 ∨
          ∃ k, FirstZero (packet.drop (programOffset packet)) k ∧
            TransportFits packet (programOffset packet + 2 * (k + 1))
    else TransportFits packet etherLen

section Packets

variable {packet rest : List Byte} {o ip : ℕ} {ap4ih ap4args : Option ℕ}

theorem getElem?_packet (h : o < packet.length) : (packet ++ rest)[o]? = some (byteAt packet o) := by
  rw [List.getElem?_append_left h, byteAt, List.getD_eq_getElem?_getD, List.getElem?_eq_getElem h,
    Option.getD_some]

theorem load16_packet (h : o + 2 ≤ packet.length) : load16 (packet ++ rest) o = some (wordAt packet o) := by
  rw [load16, getElem?_packet (by omega), getElem?_packet (by omega)]
  rfl

theorem load32_packet (h : o + 4 ≤ packet.length) :
    load32 (packet ++ rest) o = some (wordAt packet o ++ wordAt packet (o + 2)) := by
  rw [load32, load16_packet (by omega), load16_packet (by omega)]
  rfl

theorem sizeLt_sub {len size : ℕ} (h : o ≤ len) : sizeLt ((len : ℤ) - o) size ↔ len < o + size := by
  unfold sizeLt
  omega

/-- Behind the end of the packet every check passes. -/
theorem not_sizeLt_sub {len size : ℕ} (h : len < o) : ¬sizeLt ((len : ℤ) - o) size := by
  rintro ⟨h0, -⟩
  omega

/-- The payload lies inside of the packet when the total length says so. -/
theorem inside_iff {len offset header totLen : ℕ} {h : NetHeaders} (hspans : ∀ p ∈ h.spans, p.1 + p.2 ≤ len)
    (hpay : h.payload = offset + header) (hlen : h.payloadLength = (totLen : ℤ) - header) :
    Inside len h ↔ header ≤ totLen ∧ offset + totLen ≤ len := by
  constructor
  · intro hin
    have h0 := hin.payloadLength_nonneg
    have hle := hin.payload_add_le
    rw [hlen] at h0 hle
    rw [hpay] at hle
    push_cast at hle
    omega
  · rintro ⟨h0, hle⟩
    refine ⟨hspans, by omega, by omega, ?_⟩
    rw [hlen, hpay]
    push_cast
    omega

/-- All headers lie inside of the packet when each of them does. -/
theorem forall_spans_iff {len : ℕ} {h : NetHeaders} : (∀ p ∈ h.spans, p.1 + p.2 ≤ len) ↔
    h.eth + etherLen ≤ len ∧ h.iph + iphLen ≤ len ∧ (∀ o ∈ h.tcph, o + tcphLen ≤ len) ∧
      (∀ o ∈ h.udph, o + udphLen ≤ len) ∧ (∀ o ∈ h.ap4ih, o + ihLen ≤ len) ∧
        ∀ o ∈ h.ap4args, o + argsLen ≤ len := by
  simp only [NetHeaders.spans, List.mem_append, or_imp, forall_and, List.forall_mem_cons, List.forall_mem_map,
    List.not_mem_nil, IsEmpty.forall_iff, implies_true, and_true, Option.mem_toList, Option.mem_def, and_assoc]

/-! ### From the IP header on -/

section Transport

variable {mem : List Byte} {pktlen : ℤ} {b doff : Byte} {totLen : BitVec 16}

theorem extractTransport_short (h : sizeLt (pktlen - ip) iphLen) :
    extractTransport mem pktlen ap4ih ap4args ip = some none := by
  rw [extractTransport, if_pos h]

theorem extractTransport_tcp (h : ¬sizeLt (pktlen - ip) iphLen) (hproto : mem[ip + 9]? = some ipprotoTcp)
    (hroom : ¬sizeLt (pktlen - (ip + iphLen : ℕ)) tcphLen) (hdoff : mem[ip + iphLen + 12]? = some doff)
    (htot : load16 mem (ip + 2) = some totLen) :
    extractTransport mem pktlen ap4ih ap4args ip = some (some ⟨0, ip, some (ip + iphLen), none, ap4ih, ap4args,
      ip + iphLen + (doff >>> 4).toNat * 4, totLen.toNat - ((doff >>> 4).toNat * 4 : ℕ)⟩) := by
  rw [extractTransport, if_neg h]
  simp only [hproto, Option.bind_eq_bind, Option.bind_some]
  rw [if_pos ⟨trivial, hroom⟩, hdoff, htot]
  rfl

theorem extractTransport_udp (h : ¬sizeLt (pktlen - ip) iphLen) (hproto : mem[ip + 9]? = some ipprotoUdp)
    (hroom : ¬sizeLt (pktlen - (ip + iphLen : ℕ)) udphLen) (htot : load16 mem (ip + 2) = some totLen) :
    extractTransport mem pktlen ap4ih ap4args ip = some (some ⟨0, ip, none, some (ip + iphLen), ap4ih, ap4args,
      ip + iphLen + udphLen, totLen.toNat - udphLen⟩) := by
  rw [extractTransport, if_neg h]
  simp only [hproto, Option.bind_eq_bind, Option.bind_some]
  rw [if_neg fun h => absurd h.1 (by decide), if_pos ⟨trivial, hroom⟩, htot]
  rfl

theorem extractTransport_other (h : ¬sizeLt (pktlen - ip) iphLen) (hproto : mem[ip + 9]? = some b)
    (htcp : ¬(b = ipprotoTcp ∧ ¬sizeLt (pktlen - (ip + iphLen : ℕ)) tcphLen))
    (hudp : ¬(b = ipprotoUdp ∧ ¬sizeLt (pktlen - (ip + iphLen : ℕ)) udphLen)) :
    extractTransport mem pktlen ap4ih ap4args ip = some none := by
  rw [extractTransport, if_neg h]
  simp only [hproto, Option.bind_eq_bind, Option.bind_some]
  rw [if_neg htcp, if_neg hudp]
  rfl

end Transport

/-- **From the IP header on**, when it is inside of the packet. -/
theorem extractTransport_inside_iff (hip : ip ≤ packet.length) (heth : etherLen ≤ packet.length)
    (hih : ∀ o ∈ ap4ih, o + ihLen ≤ packet.length) (hargs : ∀ o ∈ ap4args, o + argsLen ≤ packet.length) :
    (∀ h, extractTransport (packet ++ rest) packet.length ap4ih ap4args ip = some (some h) →
      Inside packet.length h) ↔ TransportFits packet ip := by
  by_cases hshort : packet.length < ip + iphLen
  · rw [extractTransport_short ((sizeLt_sub hip).2 hshort)]
    refine iff_of_true (fun h hh => by cases hh) ⟨fun _ hle => ?_, fun _ hle => ?_⟩ <;> omega
  have hlong : ¬sizeLt ((packet.length : ℤ) - ip) iphLen := fun h => hshort ((sizeLt_sub hip).1 h)
  have hnext : ip + iphLen ≤ packet.length := not_lt.1 hshort
  have hroom : ∀ size, ¬sizeLt ((packet.length : ℤ) - (ip + iphLen : ℕ)) size ↔
      ip + iphLen + size ≤ packet.length := fun size => by
    rw [sizeLt_sub hnext, not_lt]
  have hbytes : ip + 20 ≤ packet.length := hnext
  have hproto : (packet ++ rest)[ip + 9]? = some (byteAt packet (ip + 9)) := getElem?_packet (by omega)
  have htot : load16 (packet ++ rest) (ip + 2) = some (wordAt packet (ip + 2)) := load16_packet (by omega)
  by_cases htcp : byteAt packet (ip + 9) = ipprotoTcp ∧ ip + iphLen + tcphLen ≤ packet.length
  · obtain ⟨hp, hfit⟩ := htcp
    have hdoff : (packet ++ rest)[ip + iphLen + 12]? = some (byteAt packet (ip + iphLen + 12)) :=
      getElem?_packet (by unfold tcphLen at hfit; omega)
    rw [extractTransport_tcp hlong (hp ▸ hproto) ((hroom _).2 hfit) hdoff htot]
    have hudp : byteAt packet (ip + 9) ≠ ipprotoUdp := by
      rw [hp]
      decide
    simp only [Option.some.injEq, forall_eq', TransportFits, hp, hfit, true_implies]
    rw [and_iff_left fun h => absurd (hp.trans h) hudp]
    refine inside_iff (forall_spans_iff.2 ⟨heth, hnext, ?_, by simp, hih, hargs⟩) rfl rfl
    simpa using hfit
  · by_cases hudp : byteAt packet (ip + 9) = ipprotoUdp ∧ ip + iphLen + udphLen ≤ packet.length
    · obtain ⟨hp, hfit⟩ := hudp
      rw [extractTransport_udp hlong (hp ▸ hproto) ((hroom _).2 hfit) htot]
      simp only [Option.some.injEq, forall_eq', TransportFits, hp, hfit, true_implies]
      rw [and_iff_right fun h => absurd h (by decide)]
      refine inside_iff (forall_spans_iff.2 ⟨heth, hnext, by simp, ?_, hih, hargs⟩) rfl rfl
      simpa using hfit
    · rw [extractTransport_other hlong hproto (by rwa [hroom]) (by rwa [hroom])]
      refine iff_of_true (fun h hh => by cases hh) ⟨fun hp hfit => absurd ⟨hp, hfit⟩ htcp,
        fun hp hfit => absurd ⟨hp, hfit⟩ hudp⟩

end Packets

/-! ### The whole packet -/

/-- Where the arguments of an active packet are. -/
def argsOffset (packet : List Byte) : Option ℕ :=
  if testFlag (wordAt packet (etherLen + 4)) flagOptArgs then some (etherLen + ihLen) else none

/-- An active packet with the right signature. -/
structure IsActive (packet : List Byte) : Prop where
  /-- There is room for the header. -/
  room : etherLen + ihLen ≤ packet.length
  /-- It has the type. -/
  type : wordAt packet 12 = etherTypeAp4
  /-- It has the signature. -/
  sig : wordAt packet etherLen ++ wordAt packet (etherLen + 2) = activeSig

section Packets

variable {packet rest : List Byte}

theorem extract_short (h : packet.length < etherLen) :
    extractNetworkHeaders (packet ++ rest) packet.length = some none := by
  rw [extractNetworkHeaders, if_pos ⟨by omega, by omega⟩]

theorem extract_plain (h : etherLen ≤ packet.length) (htype : wordAt packet 12 ≠ etherTypeAp4) :
    extractNetworkHeaders (packet ++ rest) packet.length =
      extractTransport (packet ++ rest) packet.length none none etherLen := by
  have hlong : ¬sizeLt (packet.length : ℤ) etherLen := fun hlt => by
    have := hlt.2
    omega
  rw [extractNetworkHeaders, if_neg hlong, load16_packet h]
  simp only [Option.bind_eq_bind, Option.bind_some, if_neg htype]

theorem extract_refused (h : etherLen ≤ packet.length) (htype : wordAt packet 12 = etherTypeAp4)
    (hnot : ¬IsActive packet) : extractNetworkHeaders (packet ++ rest) packet.length = some none := by
  have hlong : ¬sizeLt (packet.length : ℤ) etherLen := fun hlt => by
    have := hlt.2
    omega
  rw [extractNetworkHeaders, if_neg hlong, load16_packet h]
  simp only [Option.bind_eq_bind, Option.bind_some, if_pos htype]
  by_cases hroom : packet.length < etherLen + ihLen
  · rw [if_pos ((sizeLt_sub h).2 hroom)]
    rfl
  · rw [if_neg fun hlt => hroom ((sizeLt_sub h).1 hlt),
      load32_packet (by unfold ihLen at hroom; omega), Option.bind_some,
      if_pos fun hsig => hnot ⟨not_lt.1 hroom, htype, hsig⟩]
    rfl

theorem extract_active (h : IsActive packet) :
    extractNetworkHeaders (packet ++ rest) packet.length =
      (getActiveEof ((packet ++ rest).drop (programOffset packet))
        (packet.length - (programOffset packet : ℕ))).bind fun eof =>
          extractTransport (packet ++ rest) packet.length (some etherLen) (argsOffset packet)
            (programOffset packet + eof.1) := by
  have hroom := h.room
  have hroom' : 24 ≤ packet.length := hroom
  have hlong : ¬sizeLt (packet.length : ℤ) etherLen := fun hlt => by
    have := hlt.2
    unfold etherLen at this
    omega
  have hether : etherLen ≤ packet.length := by
    unfold etherLen
    omega
  rw [extractNetworkHeaders, if_neg hlong, load16_packet (by omega)]
  simp only [Option.bind_eq_bind, Option.bind_some, if_pos h.type]
  rw [if_neg fun hlt => absurd ((sizeLt_sub hether).1 hlt) (not_lt.2 hroom),
    load32_packet (by unfold etherLen; omega), Option.bind_some, if_neg (not_not.2 h.sig),
    load16_packet (by unfold etherLen; omega)]
  rfl

theorem programOffset_eq (packet : List Byte) :
    programOffset packet = 24 ∧ argsOffset packet = none ∨
      programOffset packet = 40 ∧ argsOffset packet = some 24 := by
  unfold programOffset argsOffset
  split_ifs
  · exact Or.inr ⟨rfl, rfl⟩
  · exact Or.inl ⟨rfl, rfl⟩

/-- A program that is shorter than two instructions leaves no room for an IP header. -/
theorem extract_active_short (h : IsActive packet) (hle : programOffset packet ≤ packet.length)
    (hlt : packet.length < programOffset packet + 4) (hdrs : NetHeaders) :
    extractNetworkHeaders (packet ++ rest) packet.length ≠ some (some hdrs) := by
  rw [extract_active h]
  intro hx
  obtain ⟨r, hr, hx⟩ := Option.bind_eq_some_iff.1 hx
  have hr0 : (r.1 : ℤ) ≤ packet.length - (programOffset packet : ℕ) := by
    rcases lt_or_ge ((packet.length : ℤ) - (programOffset packet : ℕ)) 2 with h₂ | h₂
    · rw [getActiveEof, if_pos ⟨by omega, by omega⟩] at hr
      obtain rfl := Option.some.inj hr
      simp only
      omega
    · rw [getActiveEof_short h₂ (by omega)] at hr
      split_ifs at hr
      obtain rfl := Option.some.inj hr
      simp only
      omega
  rw [extractTransport_short ⟨by push_cast; omega, by unfold iphLen; push_cast; omega⟩] at hx
  cases hx

/-- A program with an opcode that is zero ends inside of the packet. -/
theorem extract_active_firstZero (h : IsActive packet) {k : ℕ}
    (hk : FirstZero (packet.drop (programOffset packet)) k) (hge : programOffset packet + 4 ≤ packet.length) :
    extractNetworkHeaders (packet ++ rest) packet.length =
      extractTransport (packet ++ rest) packet.length (some etherLen) (argsOffset packet)
        (programOffset packet + 2 * (k + 1)) := by
  have hlt := hk.lt_length
  have hin : ∀ j ≤ k, ((packet ++ rest).drop (programOffset packet))[2 * j + 1]? =
      (packet.drop (programOffset packet))[2 * j + 1]? := fun j hj => by
    rw [List.drop_append_of_le_length (by omega), List.getElem?_append_left (by omega)]
  have hk' : FirstZero ((packet ++ rest).drop (programOffset packet)) k :=
    ⟨(hin k le_rfl).trans hk.1, fun j hj => by rw [hin j hj.le]; exact hk.2 j hj⟩
  have hlong : 4 ≤ (packet.length : ℤ) - (programOffset packet : ℕ) := by omega
  have hr := (getActiveEof_eq_some_iff (Or.inr hlong)).2 ⟨k, hk', rfl⟩
  rw [extract_active h, hr]
  rfl

/-- The headers behind a program with an opcode that is zero. -/
theorem extract_active_inside_iff (h : IsActive packet) {k : ℕ}
    (hk : FirstZero (packet.drop (programOffset packet)) k) (hge : programOffset packet + 4 ≤ packet.length) :
    (∀ hdrs, extractNetworkHeaders (packet ++ rest) packet.length = some (some hdrs) →
      Inside packet.length hdrs) ↔ TransportFits packet (programOffset packet + 2 * (k + 1)) := by
  have hroom : 24 ≤ packet.length := h.room
  have hlt := hk.lt_length
  rw [List.length_drop] at hlt
  rw [extract_active_firstZero h hk hge]
  refine extractTransport_inside_iff (by omega) (by unfold etherLen; omega) (fun o ho => ?_) fun o ho => ?_
  · obtain rfl := Option.some.inj ho
    exact h.room
  · rcases programOffset_eq packet with ⟨-, hargs⟩ | ⟨hf, hargs⟩
    · rw [hargs] at ho
      cases ho
    · rw [hargs] at ho
      obtain rfl := Option.some.inj ho
      unfold argsLen
      omega

/-- Memory behind a packet: zeros, and the number of a protocol at one place. -/
def behind (len q : ℕ) : List Byte := (List.range 64).map fun i => if len + i = q then ipprotoUdp else 0

theorem getElem?_behind {len q j : ℕ} (hlen : packet.length = len) (hj : len ≤ j) (hj' : j < len + 64) :
    (packet ++ behind len q)[j]? = some (if j = q then ipprotoUdp else 0) := by
  rw [List.getElem?_append_right (by omega), behind, List.getElem?_map, List.getElem?_range (by omega), hlen]
  simp only [Option.map_some, Nat.add_sub_cancel' hj]

/-- **A scan that leaves the packet** finds headers behind it. -/
theorem exists_outside (h : IsActive packet)
    (hlong : packet.length < programOffset packet ∨ programOffset packet + 4 ≤ packet.length)
    (hno : ∀ k, ¬FirstZero (packet.drop (programOffset packet)) k) :
    ∃ rest hdrs, extractNetworkHeaders (packet ++ rest) packet.length = some (some hdrs) ∧
      packet.length < hdrs.iph := by
  have hroom : 24 ≤ packet.length := h.room
  -- the first opcode that the scan reads behind the packet
  obtain ⟨k, hk, hbefore, hnear⟩ : ∃ k, packet.length ≤ programOffset packet + (2 * k + 1) ∧
      (∀ j < k, programOffset packet + (2 * j + 1) < packet.length) ∧
      programOffset packet + (2 * k + 1) < packet.length + 20 := by
    refine ⟨(packet.length - programOffset packet) / 2, ?_, fun j hj => ?_, ?_⟩
    · omega
    · omega
    · rcases programOffset_eq packet with ⟨hf, -⟩ | ⟨hf, -⟩ <;> omega
  set f := programOffset packet with hf
  set ip := f + 2 * (k + 1) with hip
  set mem := packet ++ behind packet.length (ip + 9) with hmem
  have hload : ∀ j, packet.length ≤ j → j < packet.length + 64 → j ≠ ip + 9 → mem[j]? = some 0 := by
    intro j hj hj' hne
    rw [hmem, getElem?_behind rfl hj hj', if_neg hne]
  have hfirst : FirstZero (mem.drop f) k := by
    refine ⟨?_, fun j hj hzero => ?_⟩
    · rw [List.getElem?_drop]
      exact hload _ hk (by omega) (by omega)
    · -- a zero before it would be one of the packet
      rw [List.getElem?_drop, hmem, List.getElem?_append_left (hbefore j hj), ← List.getElem?_drop] at hzero
      obtain ⟨m, -, hm⟩ := exists_firstZero hzero
      exact hno m hm
  have hlen : (packet.length : ℤ) - f < 0 ∨ 4 ≤ (packet.length : ℤ) - f := by omega
  have heof := (getActiveEof_eq_some_iff hlen).2 ⟨k, hfirst, rfl⟩
  have hproto : mem[ip + 9]? = some ipprotoUdp := by
    rw [hmem, getElem?_behind rfl (by omega) (by omega), if_pos rfl]
  have htot : load16 mem (ip + 2) = some 0 := by
    rw [load16, hload _ (by omega) (by omega) (by omega), hload _ (by omega) (by omega) (by omega)]
    rfl
  obtain ⟨hdrs, hx, hiph⟩ : ∃ hdrs, extractTransport mem packet.length (some etherLen) (argsOffset packet) ip =
      some (some hdrs) ∧ hdrs.iph = ip :=
    ⟨_, extractTransport_udp (not_sizeLt_sub (by omega)) hproto (not_sizeLt_sub (by omega)) htot, rfl⟩
  refine ⟨behind packet.length (ip + 9), hdrs, ?_, by omega⟩
  rw [extract_active h, heof]
  exact hx

end Packets

/-- **When the headers of a packet are safe.** -/
theorem packetSafe_iff (packet : List Byte) : PacketSafe packet ↔ HeadersFit packet := by
  constructor
  · intro hsafe hether
    split_ifs with htype
    · intro hroom hsig
      have hact : IsActive packet := ⟨hroom, htype, hsig⟩
      by_cases hshort : programOffset packet ≤ packet.length ∧ packet.length < programOffset packet + 4
      · exact Or.inl hshort
      have hlong : packet.length < programOffset packet ∨ programOffset packet + 4 ≤ packet.length := by omega
      right
      by_cases hz : ∃ k, FirstZero (packet.drop (programOffset packet)) k
      · obtain ⟨k, hk⟩ := hz
        have hlt := hk.lt_length
        rw [List.length_drop] at hlt
        exact ⟨k, hk, (extract_active_inside_iff hact hk (by omega)).1 fun hdrs hx => hsafe [] hdrs hx⟩
      · obtain ⟨rest, hdrs, hx, hout⟩ := exists_outside hact hlong (not_exists.1 hz)
        have := (hsafe rest hdrs hx).spans (hdrs.iph, iphLen) (by simp [NetHeaders.spans])
        simp only at this
        omega
    · exact (extractTransport_inside_iff hether hether (by simp) (by simp)).1 fun hdrs hx =>
        hsafe [] hdrs ((extract_plain hether htype).trans hx)
  · intro hfit rest hdrs hx
    by_cases hether : packet.length < etherLen
    · rw [extract_short hether] at hx
      cases hx
    have hether := not_lt.1 hether
    have hfit := hfit hether
    by_cases htype : wordAt packet 12 = etherTypeAp4
    · rw [if_pos htype] at hfit
      by_cases hact : IsActive packet
      · by_cases hshort : programOffset packet ≤ packet.length ∧ packet.length < programOffset packet + 4
        · exact absurd hx (extract_active_short hact hshort.1 hshort.2 hdrs)
        · obtain ⟨k, hk, hfit⟩ := (hfit hact.room hact.sig).resolve_left hshort
          have hlt := hk.lt_length
          rw [List.length_drop] at hlt
          exact (extract_active_inside_iff hact hk (by omega)).2 hfit hdrs hx
      · rw [extract_refused hether htype hact] at hx
        cases hx
    · rw [if_neg htype] at hfit
      rw [extract_plain hether htype] at hx
      exact (extractTransport_inside_iff hether hether (by simp) (by simp)).2 hfit hdrs hx

/-- **Scanning a packet.**  The scan for the end of a program stays inside of its buffer exactly when the
buffer is too short for a second instruction or has an opcode that is zero; and what is returned for a packet
lies inside of it exactly when its headers fit. -/
theorem packet_scan_iff (mem : List Byte) (buflen : ℤ) (packet : List Byte) :
    (ScanSafe mem buflen ↔ 0 ≤ buflen ∧ buflen < 2 ∨ 2 ≤ buflen ∧ buflen < 4 ∧ 2 ≤ mem.length ∨
      ∃ k : ℕ, 2 * (k : ℤ) + 1 < buflen ∧ mem[2 * k + 1]? = some 0) ∧
    (PacketSafe packet ↔ HeadersFit packet) :=
  ⟨scanSafe_iff mem buflen, packetSafe_iff packet⟩

/-- A UDP packet with one byte of payload. -/
def datagram : List Byte :=
  List.replicate 12 0 ++ [0x08, 0x00] ++ [0x45, 0, 0, 29] ++ List.replicate 5 0 ++ [ipprotoUdp] ++
    List.replicate 18 0 ++ [0x41]

/-- **A scan that leaves its buffer, and a payload that is longer than its packet.**  Of two instructions none
has an opcode that is zero, and the scan reads on behind them; and the payload of a packet of 43 bytes is said
to be 21 bytes from byte 42 on. -/
theorem packet_scan_leaves :
    (getActiveEof [0, 1, 0, 1, 0, 0] 4 = some (6, [1, 3, 5]) ∧ ¬ScanSafe [0, 1, 0, 1, 0, 0] 4) ∧
    (∃ h, extractNetworkHeaders datagram datagram.length = some (some h) ∧ datagram.length = 43 ∧
      h.payload = 42 ∧ h.payloadLength = 21) ∧ ¬PacketSafe datagram := by
  have hscan : getActiveEof [0, 1, 0, 1, 0, 0] 4 = some (6, [1, 3, 5]) := by decide
  have hext : extractNetworkHeaders datagram datagram.length =
      some (some ⟨0, 14, none, some 34, none, none, 42, 21⟩) := by decide
  refine ⟨⟨hscan, ?_⟩, ⟨_, hext, rfl, rfl, rfl⟩, fun hsafe => ?_⟩
  · rintro ⟨eof, reads, hr, -, hle⟩
    obtain ⟨rfl, -⟩ := Prod.mk.inj (Option.some.inj (hscan.symm.trans hr))
    exact absurd hle (by decide)
  · have hle := (hsafe [] _ (by rw [List.append_nil]; exact hext)).payload_add_le
    exact absurd hle (by decide)

end NetUtils

end ActiveRmt
