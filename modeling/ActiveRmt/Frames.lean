/-
**Frames: how active headers are put into packets, and taken out again.**

The client adds to every packet that it sends the active header, four argument words and the
instructions of a program.  The switch removes the instructions that it has executed.  When the packet
comes back, the client finds the end of the active headers by looking for the instruction whose opcode
is zero, unless all instructions are gone and an IPv4 header follows at once.

The receive filter handles a packet as follows: the EtherType is set to that of IPv4 before anything
else is looked at, and the headers are removed only from a packet that an application gets to see.

Main definitions:

* `Mbuf`, `Mbuf.frame`, `Mbuf.ofFrame` — packet buffers;
* `insertActiveProgramHeaders` — the headers are inserted;
* `getActiveEof` — the length of the instructions;
* `activeDecapFilter` — **the receive filter, for one packet**;
* `Executed` — what the switch makes of a packet;
* `ActiveHeaders` — the format of the headers.

Main results:

* `encapsulation_roundtrip` — **a packet comes back as it was sent**, whatever was executed;
* `handed_up_iff` — exactly when the frame that is handed up is well formed.
-/

import ActiveRmt.Client

set_option relaxedAutoImplicit false
set_option autoImplicit false

namespace ActiveRmt

/-! ### Packet buffers -/

/-- A packet buffer. -/
structure Mbuf where
  /-- The memory, from the first byte of the packet on. -/
  bytes : Buffer
  /-- `pkt_len`. -/
  pktLen : ℕ
  /-- `data_len`. -/
  dataLen : BitVec 16
  /-- How much of the memory can be read. -/
  room : ℕ

/-- The bytes of the packet. -/
def Mbuf.frame (m : Mbuf) : List Byte := m.bytes.slice 0 m.pktLen

/-- A packet is received into memory that holds something else. -/
def Mbuf.ofFrame (l : List Byte) (rest : Buffer) (tailroom : ℕ) : Mbuf :=
  ⟨Buffer.write rest 0 l, l.length, BitVec.ofNat 16 l.length, l.length + tailroom⟩

theorem Mbuf.frame_ofFrame (l : List Byte) (rest : Buffer) (tailroom : ℕ) :
    (Mbuf.ofFrame l rest tailroom).frame = l := Buffer.slice_write rest 0 rfl

/-- `sizeof(struct rte_ether_hdr)`. -/
def etherLen : ℕ := 14

/-- `sizeof(activep4_ih)`. -/
def ihLen : ℕ := 10

/-- `sizeof(activep4_data_t)`. -/
def argsLen : ℕ := 16

/-- `sizeof(activep4_malloc_res_t)`. -/
def mallocResLen : ℕ := 160

/-- `RTE_ETHER_TYPE_IPV4`. -/
def etherTypeIpv4 : BitVec 16 := 0x0800

/-- `AP4_ETHER_TYPE_AP4`. -/
def etherTypeAp4 : BitVec 16 := 0x83B2

/-- `ACTIVEP4SIG`. -/
def activeSig : BitVec 32 := 0x12345678

/-! ### Sending -/

/-- The bytes of an instruction. -/
def ActiveInstr.bytes (instr : ActiveInstr) : List Byte := [instr.flags, instr.opcode]

/-- The bytes of a program. -/
def programBytes (code : List ActiveInstr) : List Byte := code.flatMap ActiveInstr.bytes

/-- The bytes of a header. -/
def ActiveHeader.bytes (h : ActiveHeader) : List Byte :=
  bytes32 activeSig ++ bytes16 h.flags ++ bytes16 h.fid ++ bytes16 h.seq

/-- The bytes of the arguments. -/
def argsBytes (a : Args) : List Byte := (List.finRange 4).flatMap fun i => bytes32 (a i)

/-- The arguments at an address. -/
def readArgs (b : Buffer) (start : ℕ) : Args := fun i => b.read32 (start + 4 * i)

/-- **`insert_active_program_headers`.**  The argument words hold what stood in the memory before,
until the application fills them in. -/
def insertActiveProgramHeaders (c : Context) (m : Mbuf) : Context × Mbuf :=
  let pid := c.txMux m.bytes c.currentPid
  let program := (c.programs pid).mutant
  let ap4hlen := ihLen + argsLen + 2 * program.length
  let b := m.bytes.write 12 (bytes16 etherTypeAp4)
  let b := b.moveUp ap4hlen etherLen (m.pktLen - etherLen)
  let header : ActiveHeader := ⟨flagOptArgs ||| flagPreload, BitVec.ofNat 16 c.fid, 0⟩
  let b := b.write etherLen header.bytes
  let b := b.write (etherLen + ihLen + argsLen) (programBytes program)
  let inner : Buffer := fun k => b (etherLen + ap4hlen + k)
  let (args, inner) := c.txHandler inner (readArgs b (etherLen + ihLen))
  let b := b.write (etherLen + ihLen) (argsBytes args)
  let b : Buffer := fun k => if etherLen + ap4hlen ≤ k then inner (k - (etherLen + ap4hlen)) else b k
  ({ c with currentPid := pid },
    { m with bytes := b, pktLen := m.pktLen + ap4hlen, dataLen := m.dataLen + BitVec.ofNat 16 ap4hlen })

/-! ### Receiving -/

/-- The scan for the instruction whose opcode is zero, as far as memory can be read. -/
def scanEof (b : Buffer) : ℕ → ℕ → Option ℕ
  | 0, _ => none
  | fuel + 1, start =>
      if b (start + 1) = 0 then some 2 else (scanEof b fuel (start + 2)).map (2 + ·)

/-- **`get_active_eof`.**  The number of bytes that remain is never updated, so the scan does not end
with the packet. -/
def getActiveEof (m : Mbuf) (start : ℕ) : Option ℕ :=
  if m.pktLen < 2 then some 0
  else if m.pktLen - 2 < 2 then some 2
  else scanEof m.bytes (m.room - start) start

/-- The context of a function: the last one that has its identifier. -/
def contextOf (apps : List Context) (fid : BitVec 16) : Option (ℕ × Context) :=
  (apps.zipIdx.filter fun p => p.1.fid = fid.toNat).getLast?.map fun p => (p.2, p.1)

/-- What a packet says. -/
def rxPacketOf (b : Buffer) : RxPacket where
  header := ⟨b.read16 (etherLen + 4), b.read16 (etherLen + 6), b.read16 (etherLen + 8)⟩
  args := readArgs b (etherLen + ihLen)
  ranges := fun s => (b.read32 (etherLen + ihLen + 8 * s), b.read32 (etherLen + ihLen + 8 * s + 4))

/-- The length of the active headers before the instructions. -/
def fixedLen (flags : BitVec 16) : ℕ :=
  ihLen + (if testFlag flags flagOptArgs then argsLen else 0) +
    if testFlag flags flagAllocated then mallocResLen else 0

/-- The length of the active headers. -/
def headersLen (m : Mbuf) (flags : BitVec 16) : Option ℕ :=
  let fixed := fixedLen flags
  if ¬testFlag flags flagEoe ∨ m.bytes (etherLen + fixed) ≠ 0x45 then
    (getActiveEof m (etherLen + fixed)).map (fixed + ·)
  else some fixed

/-- The flags with which an application gets to see a packet. -/
def allowedFlagsRxHandler : BitVec 16 := flagOptArgs ||| flagEoe ||| flagPreload

/-- An application gets to see a packet with these flags. -/
def isForHandler (flags : BitVec 16) : Bool :=
  decide (flags ||| allowedFlagsRxHandler = allowedFlagsRxHandler) && testFlag flags flagEoe

/-- The statuses in which packets are handed to the application. -/
def ClientStatus.handsUp : ClientStatus → Bool
  | .transmitting | .updating => true
  | _ => false

/-- The application looks at a packet, and its headers of length `offset` are removed.  Headers that
end behind the packet make its length negative. -/
def stripHeaders (c : Context) (header : ActiveHeader) (offset : ℕ) (m : Mbuf) : Option Mbuf :=
  if m.pktLen < etherLen + offset then none
  else
    let args := if testFlag header.flags flagOptArgs then
      some (readArgs m.bytes (etherLen + ihLen)) else none
    let inner := c.rxHandler header args fun k => m.bytes (etherLen + offset + k)
    let b : Buffer := fun k =>
      if etherLen + offset ≤ k then inner (k - (etherLen + offset)) else m.bytes k
    some { m with
      bytes := b.moveDown offset etherLen (m.pktLen - etherLen - offset)
      pktLen := m.pktLen - offset
      dataLen := m.dataLen - BitVec.ofNat 16 offset }

/-- The packet after its EtherType has been rewritten. -/
def Mbuf.retyped (m : Mbuf) : Mbuf := { m with bytes := m.bytes.write 12 (bytes16 etherTypeIpv4) }

/-- An active packet, after its EtherType has been rewritten. -/
def decapActive (apps : List Context) (m : Mbuf) : Option (List Context × Mbuf) :=
  if m.bytes.read32 etherLen ≠ activeSig then some (apps, m)
  else
    let pkt := rxPacketOf m.bytes
    (headersLen m pkt.header.flags).bind fun offset =>
      match contextOf apps pkt.header.fid with
      | none => some (apps, m)
      | some (i, c) =>
          (rxControl c pkt).bind fun c' =>
            if c.status.handsUp ∧ isForHandler pkt.header.flags then
              (stripHeaders c pkt.header offset m).map fun m => (apps.set i c', m)
            else some (apps.set i c', m)

/-- **`active_decap_filter`, for one packet**: the contexts and the packet afterwards, unless an
assertion fails or memory is read that cannot be. -/
def activeDecapFilter (apps : List Context) (m : Mbuf) : Option (List Context × Mbuf) :=
  if m.bytes.read16 12 = etherTypeAp4 then
    decapActive apps m.retyped
  else some (apps, m)

/-! ### What is sent -/

@[simp] theorem length_programBytes (code : List ActiveInstr) :
    (programBytes code).length = 2 * code.length := by
  induction code with
  | nil => rfl
  | cons c code ih =>
      rw [programBytes, List.flatMap_cons, List.length_append, ← programBytes, ih, List.length_cons]
      show 2 + 2 * code.length = 2 * (code.length + 1)
      omega

@[simp] theorem length_argsBytes (a : Args) : (argsBytes a).length = 16 := by
  simp [argsBytes, List.length_flatMap]

@[simp] theorem ActiveHeader.length_bytes (h : ActiveHeader) : h.bytes.length = 10 := rfl

theorem programBytes_append (code code' : List ActiveInstr) :
    programBytes (code ++ code') = programBytes code ++ programBytes code' := List.flatMap_append

namespace Buffer

/-- The parts of what is known of a buffer. -/
theorem slice_append {b : Buffer} {start n : ℕ} {l l' : List Byte} (h : b.slice start n = l ++ l') :
    b.slice start l.length = l ∧ b.slice (start + l.length) l'.length = l' := by
  have hn : n = l.length + l'.length := by
    rw [← List.length_append, ← h, length_slice]
  rw [hn, slice_add] at h
  exact List.append_inj h (by simp)

end Buffer

/-- A frame with its active headers. -/
def activeFrame (mac : List Byte) (header : ActiveHeader) (args : Args) (code : List ActiveInstr)
    (inner : List Byte) : List Byte :=
  mac ++ (bytes16 etherTypeAp4 ++ (header.bytes ++ (argsBytes args ++ (programBytes code ++ inner))))

/-- The application does not touch the packet that is sent. -/
def Context.TxKeeps (c : Context) : Prop := ∀ inner args, (c.txHandler inner args).2 = inner

/-- **What is sent**: the headers stand between the Ethernet header and the rest of the packet. -/
theorem frame_insertActiveProgramHeaders {c : Context} (htx : c.TxKeeps) {m : Mbuf}
    (hlen : etherLen ≤ m.pktLen) :
    ∃ args, (insertActiveProgramHeaders c m).2.frame = activeFrame (m.bytes.slice 0 12)
      ⟨flagOptArgs ||| flagPreload, BitVec.ofNat 16 c.fid, 0⟩ args
      (c.programs (c.txMux m.bytes c.currentPid)).mutant
      (m.bytes.slice etherLen (m.pktLen - etherLen)) := by
  set program := (c.programs (c.txMux m.bytes c.currentPid)).mutant with hprogram
  set header : ActiveHeader := ⟨flagOptArgs ||| flagPreload, BitVec.ofNat 16 c.fid, 0⟩ with hheader
  set h := ihLen + argsLen + 2 * program.length with hh
  set b₁ := m.bytes.write 12 (bytes16 etherTypeAp4) with hb₁
  set b₂ := b₁.moveUp h etherLen (m.pktLen - etherLen) with hb₂
  set b₃ := b₂.write etherLen header.bytes with hb₃
  set b₄ := b₃.write (etherLen + ihLen + argsLen) (programBytes program) with hb₄
  set out := c.txHandler (fun k => b₄ (etherLen + h + k)) (readArgs b₄ (etherLen + ihLen)) with hout
  set b₅ := b₄.write (etherLen + ihLen) (argsBytes out.1) with hb₅
  set b₆ : Buffer := fun k =>
    if etherLen + h ≤ k then out.2 (k - (etherLen + h)) else b₅ k with hb₆
  have hres : (insertActiveProgramHeaders c m).2.frame = b₆.slice 0 (m.pktLen + h) := rfl
  have hlow : ∀ k < etherLen + h, b₆ k = b₅ k := fun k hk => if_neg (Nat.not_le.2 hk)
  have h14 : etherLen = 14 := rfl
  have h10 : ihLen = 10 := rfl
  have h16 : argsLen = 16 := rfl
  have hh : h = 26 + 2 * program.length := rfl
  refine ⟨out.1, ?_⟩
  rw [hres, show m.pktLen + h = 12 + (2 + (10 + (16 + (2 * program.length + (m.pktLen - etherLen)))))
    by omega, Buffer.slice_add, Buffer.slice_add, Buffer.slice_add, Buffer.slice_add,
    Buffer.slice_add, activeFrame]
  refine congrArg₂ _ ?_ (congrArg₂ _ ?_ (congrArg₂ _ ?_ (congrArg₂ _ ?_ (congrArg₂ _ ?_ ?_))))
  · -- the addresses of the Ethernet header
    refine Buffer.slice_congr fun i hi => ?_
    rw [hlow _ (by omega), hb₅, Buffer.write_of_lt (by omega), hb₄, Buffer.write_of_lt (by omega),
      hb₃, Buffer.write_of_lt (by omega), hb₂, Buffer.moveUp_of_lt (by omega), hb₁,
      Buffer.write_of_lt (by omega)]
  · -- its type
    refine Eq.trans (Buffer.slice_congr fun i hi => ?_) (Buffer.slice_write m.bytes 12 rfl)
    rw [hlow _ (by omega), hb₅, Buffer.write_of_lt (by omega), hb₄, Buffer.write_of_lt (by omega),
      hb₃, Buffer.write_of_lt (by omega), hb₂, Buffer.moveUp_of_lt (by omega)]
  · -- the active header
    refine Eq.trans (Buffer.slice_congr fun i hi => ?_) (Buffer.slice_write b₂ etherLen rfl)
    rw [hlow _ (by omega), hb₅, Buffer.write_of_lt (by omega), hb₄, Buffer.write_of_lt (by omega)]
    rfl
  · -- the arguments
    refine Eq.trans (Buffer.slice_congr fun i hi => ?_)
      (Buffer.slice_write b₄ (etherLen + ihLen) (length_argsBytes out.1))
    rw [hlow _ (by omega)]
    rfl
  · -- the program
    refine Eq.trans (Buffer.slice_congr fun i hi => ?_)
      (Buffer.slice_write b₃ (etherLen + ihLen + argsLen) (length_programBytes program))
    rw [hlow _ (by omega), hb₅, Buffer.write_of_le]
    · rfl
    · rw [length_argsBytes]
      show 24 + 16 ≤ 0 + 12 + 2 + 10 + 16 + i
      omega
  · -- the rest of the packet
    refine Buffer.slice_congr fun i hi => ?_
    have hpos : 0 + 12 + 2 + 10 + 16 + 2 * program.length + i = etherLen + h + i := by omega
    have hin : b₆ (etherLen + h + i) = out.2 i := by
      rw [hb₆]
      dsimp only
      rw [if_pos (Nat.le_add_right _ _), Nat.add_sub_cancel_left]
    rw [hpos, hin, hout, htx, hb₄, Buffer.write_of_le (by rw [length_programBytes]; omega), hb₃,
      Buffer.write_of_le (by rw [ActiveHeader.length_bytes]; omega), hb₂, Buffer.moveUp_add hi, hb₁,
      Buffer.write_of_le (by rw [length_bytes16]; omega)]

/-! ### What comes back -/

/-- **What the switch makes of a packet**: the first `n` instructions are executed and removed, the end
of the execution is flagged, and the arguments are others. -/
def executed (n : ℕ) (args : Args) (frame : List Byte) : List Byte :=
  let b : Buffer := fun k => frame.getD k 0
  let header := (rxPacketOf b).header
  frame.take etherLen ++ ({ header with flags := header.flags ||| flagEoe }.bytes ++
    (argsBytes args ++ frame.drop (etherLen + ihLen + argsLen + 2 * n)))

/-- The bytes of a list, as a buffer. -/
theorem slice_getD (l : List Byte) : Buffer.slice (fun k => l.getD k 0) 0 l.length = l := by
  refine Buffer.slice_eq_iff.2 ⟨rfl, fun i hi => ?_⟩
  rw [Nat.zero_add, List.getD_eq_getElem _ _ hi, List.getElem?_eq_getElem hi]

/-- The active header of a buffer that holds one. -/
theorem header_of_slice {b : Buffer} {header : ActiveHeader}
    (h : b.slice etherLen 10 = header.bytes) :
    b.read32 etherLen = activeSig ∧ (rxPacketOf b).header = header := by
  unfold ActiveHeader.bytes at h
  rw [List.append_assoc, List.append_assoc] at h
  obtain ⟨hsig, h⟩ := Buffer.slice_append h
  obtain ⟨hflags, h⟩ := Buffer.slice_append h
  obtain ⟨hfid, hseq⟩ := Buffer.slice_append h
  refine ⟨Buffer.read32_eq hsig, ?_⟩
  have h1 : b.read16 (etherLen + 4) = header.flags := Buffer.read16_eq hflags
  have h2 : b.read16 (etherLen + 6) = header.fid := Buffer.read16_eq hfid
  have h3 : b.read16 (etherLen + 8) = header.seq := Buffer.read16_eq hseq
  unfold rxPacketOf
  rw [h1, h2, h3]

variable {mac inner : List Byte} {header : ActiveHeader} {args : Args} {code : List ActiveInstr}

theorem length_activeFrame (hmac : mac.length = 12) :
    (activeFrame mac header args code inner).length = 40 + 2 * code.length + inner.length := by
  simp only [activeFrame, List.length_append, hmac, length_bytes16, ActiveHeader.length_bytes,
    length_argsBytes, length_programBytes]
  omega

/-- The parts of a frame in a buffer. -/
theorem slices_activeFrame (hmac : mac.length = 12) {b : Buffer} {n : ℕ}
    (h : b.slice 0 n = activeFrame mac header args code inner) :
    b.slice 0 12 = mac ∧ b.slice 12 2 = bytes16 etherTypeAp4 ∧
      b.slice etherLen 10 = header.bytes ∧ b.slice 40 (2 * code.length) = programBytes code ∧
      b.slice (40 + 2 * code.length) inner.length = inner := by
  unfold activeFrame at h
  obtain ⟨h1, h⟩ := Buffer.slice_append h
  obtain ⟨h2, h⟩ := Buffer.slice_append h
  obtain ⟨h3, h⟩ := Buffer.slice_append h
  obtain ⟨h4, h⟩ := Buffer.slice_append h
  obtain ⟨h5, h6⟩ := Buffer.slice_append h
  simp only [hmac, length_bytes16, ActiveHeader.length_bytes, length_argsBytes,
    length_programBytes, Nat.zero_add, Nat.reduceAdd] at h1 h2 h3 h5 h6
  exact ⟨h1, h2, h3, h5, h6⟩

/-- The switch removes instructions, and nothing else. -/
theorem executed_activeFrame (hmac : mac.length = 12) {n : ℕ} (hn : n ≤ code.length) (args' : Args) :
    executed n args' (activeFrame mac header args code inner) =
      activeFrame mac { header with flags := header.flags ||| flagEoe } args' (code.drop n) inner := by
  set frame := activeFrame mac header args code inner with hframe
  obtain ⟨-, -, hh, -, -⟩ := slices_activeFrame hmac ((slice_getD frame).trans hframe)
  have hhead := (header_of_slice hh).2
  have htake : frame.take etherLen = mac ++ bytes16 etherTypeAp4 := by
    rw [hframe, activeFrame, ← List.append_assoc]
    exact List.take_left' (by rw [List.length_append, hmac]; rfl)
  have hcode : programBytes code = programBytes (code.take n) ++ programBytes (code.drop n) := by
    rw [← programBytes_append, List.take_append_drop]
  have hdrop : frame.drop (etherLen + ihLen + argsLen + 2 * n) = programBytes (code.drop n) ++ inner := by
    rw [hframe, activeFrame, hcode]
    simp only [← List.append_assoc]
    rw [List.append_assoc _ _ inner]
    refine List.drop_left' ?_
    simp only [List.length_append, hmac, length_bytes16, ActiveHeader.length_bytes, length_argsBytes,
      length_programBytes, List.length_take, Nat.min_eq_left hn]
    rfl
  unfold executed
  dsimp only
  rw [htake, hdrop, hhead, List.append_assoc, activeFrame]

/-- **The scan finds the end of a program.** -/
theorem scanEof_programBytes {b : Buffer} {eof : ActiveInstr} (heof : eof.opcode = 0)
    (hcode : ∀ c ∈ code, c.opcode ≠ 0) {start fuel : ℕ} (hfuel : code.length < fuel)
    (h : b.slice start (2 * (code.length + 1)) = programBytes (code ++ [eof])) :
    scanEof b fuel start = some (2 * (code.length + 1)) := by
  induction code generalizing start fuel with
  | nil =>
      obtain ⟨fuel, rfl⟩ := Nat.exists_eq_succ_of_ne_zero (Nat.ne_of_gt hfuel)
      have hop : some eof.opcode = some (b (start + 1)) := (Buffer.slice_eq_iff.1 h).2 1 (by decide)
      rw [scanEof, if_pos ((Option.some.inj hop).symm.trans heof)]
      rfl
  | cons c code ih =>
      obtain ⟨fuel, rfl⟩ := Nat.exists_eq_succ_of_ne_zero (Nat.ne_of_gt (Nat.zero_lt_of_lt hfuel))
      have h : b.slice start _ = c.bytes ++ programBytes (code ++ [eof]) := h
      obtain ⟨hc, hrest⟩ := Buffer.slice_append h
      have hop : some c.opcode = some (b (start + 1)) :=
        (Buffer.slice_eq_iff.1 hc).2 1 (Nat.lt_succ_self 1)
      have hlen : (programBytes (code ++ [eof])).length = 2 * (code.length + 1) := by simp
      rw [hlen, show c.bytes.length = 2 from rfl] at hrest
      rw [scanEof, if_neg (Option.some.inj hop ▸ hcode c (List.mem_cons_self ..)),
        ih (fun c hc => hcode c (List.mem_cons_of_mem _ hc)) (Nat.lt_of_succ_lt_succ hfuel) hrest,
        Option.map_some, List.length_cons]
      congr 1
      omega

/-- What the application leaves of the packet behind headers of length `offset`. -/
def Context.handled (c : Context) (header : ActiveHeader) (offset : ℕ) (b : Buffer) : Buffer :=
  c.rxHandler header
    (if testFlag header.flags flagOptArgs then some (readArgs b (etherLen + ihLen)) else none)
    fun k => b (etherLen + offset + k)

/-- **The headers are removed.** -/
theorem stripHeaders_eq (c : Context) (header : ActiveHeader) {offset : ℕ} {m : Mbuf}
    (h : etherLen + offset ≤ m.pktLen) :
    ∃ out, stripHeaders c header offset m = some out ∧
      out.frame = m.bytes.slice 0 etherLen ++
        (c.handled header offset m.bytes).slice 0 (m.pktLen - etherLen - offset) ∧
      out.pktLen = m.pktLen - offset ∧ out.dataLen = m.dataLen - BitVec.ofNat 16 offset := by
  refine ⟨_, by rw [stripHeaders, if_neg (Nat.not_lt.2 h)], ?_, rfl, rfl⟩
  have hlen : m.pktLen - offset = etherLen + (m.pktLen - etherLen - offset) := by omega
  rw [Mbuf.frame]
  dsimp only
  rw [hlen, Buffer.slice_add, Nat.zero_add, Buffer.slice_moveDown]
  refine congrArg₂ _ (Buffer.slice_congr fun i hi => ?_) (Buffer.slice_congr fun i _ => ?_)
  · rw [Buffer.moveDown_of_lt (by omega), if_neg (by omega)]
  · rw [if_pos (Nat.le_add_right _ _), Nat.add_sub_cancel_left, Nat.zero_add]
    rfl

theorem le_of_stripHeaders {c : Context} {offset : ℕ} {m out : Mbuf}
    (h : stripHeaders c header offset m = some out) : etherLen + offset ≤ m.pktLen := by
  by_contra hnot
  rw [stripHeaders, if_pos (Nat.lt_of_not_le hnot)] at h
  exact absurd h (Option.some_ne_none out).symm

/-- **The end of the active headers**: either all instructions are gone and an IPv4 header follows, or
the instructions that are left end with one whose opcode is zero. -/
def EndsHeaders (flags : BitVec 16) (code : List ActiveInstr) (inner : List Byte) : Prop :=
  (code = [] ∧ testFlag flags flagEoe = true ∧ inner.head? = some 0x45) ∨
    ∃ init eof, code = init ++ [eof] ∧ eof.opcode = 0 ∧ (∀ c ∈ init, c.opcode ≠ 0) ∧
      (testFlag flags flagEoe = true → (programBytes code).head? ≠ some 0x45)

/-- **The format of an active frame**: the Ethernet header, the active headers `hdr`, and the packet
inside. -/
structure ActiveHeaders (frame : List Byte) (header : ActiveHeader) (hdr inner : List Byte) : Prop where
  /-- The headers follow the Ethernet header. -/
  frame_eq : ∃ eth, eth.length = etherLen ∧ frame = eth ++ (hdr ++ inner)
  /-- Their parts. -/
  hdr_eq : ∃ fixed code, hdr = header.bytes ++ (fixed ++ programBytes code) ∧
    ihLen + fixed.length = fixedLen header.flags ∧ EndsHeaders header.flags code inner

/-- The first byte of a slice. -/
theorem head?_of_slice {b : Buffer} {start n : ℕ} {l : List Byte} (h : b.slice start n = l)
    (hn : 0 < n) : l.head? = some (b start) := by
  rw [← h, List.head?_eq_getElem?, Buffer.getElem?_slice, if_pos hn, Nat.add_zero]

/-- The length of the headers, as the filter finds it. -/
theorem headersLen_eq {m : Mbuf} {flags : BitVec 16} (hcode : EndsHeaders flags code inner)
    (hpkt : m.pktLen = etherLen + fixedLen flags + 2 * code.length + inner.length)
    (hroom : m.pktLen ≤ m.room)
    (h : m.bytes.slice (etherLen + fixedLen flags) (2 * code.length) = programBytes code)
    (h' : m.bytes.slice (etherLen + fixedLen flags + 2 * code.length) inner.length = inner) :
    headersLen m flags = some (fixedLen flags + 2 * code.length) := by
  unfold headersLen
  dsimp only
  rcases hcode with ⟨rfl, heoe, hip⟩ | ⟨init, eof, rfl, heof, hops, hfirst⟩
  · -- everything was executed: an IPv4 header follows
    have hpos : 0 < inner.length := by
      rw [List.length_pos_iff]
      rintro rfl
      exact absurd hip (by simp)
    have hbyte := head?_of_slice h' hpos
    rw [hip] at hbyte
    rw [if_neg]
    · rfl
    · rw [not_or, not_not, not_not]
      exact ⟨heoe, (Option.some.inj hbyte).symm⟩
  · -- the first instruction left does not look like an IPv4 header
    have hlen : (init ++ [eof]).length = init.length + 1 := by simp
    rw [hlen] at h hpkt ⊢
    have hscan : getActiveEof m (etherLen + fixedLen flags) = some (2 * (init.length + 1)) := by
      have h14 : etherLen = 14 := rfl
      rw [getActiveEof, if_neg (by omega), if_neg (by omega),
        scanEof_programBytes heof hops (by omega) h]
    rw [if_pos, hscan, Option.map_some]
    by_contra hnot
    rw [not_or, not_not, not_not] at hnot
    have hbyte := head?_of_slice h (by omega)
    rw [hnot.2] at hbyte
    exact hfirst hnot.1 hbyte

/-- In the statuses in which packets are handed up, no assertion can fail. -/
theorem rxControl_handsUp {c : Context} (h : c.status.handsUp = true) (pkt : RxPacket) :
    ∃ c', rxControl c pkt = some c' := by
  unfold rxControl
  cases hst : c.status with
  | transmitting => exact ⟨_, rfl⟩
  | updating => exact ⟨_, rfl⟩
  | _ =>
      rw [hst] at h
      exact absurd h Bool.false_ne_true

/-- The parts of an active frame in a buffer. -/
theorem ActiveHeaders.slices {m : Mbuf} {hdr : List Byte} (h : ActiveHeaders m.frame header hdr inner) :
    m.pktLen = etherLen + hdr.length + inner.length ∧
      m.bytes.slice etherLen hdr.length = hdr ∧
      m.bytes.slice (etherLen + hdr.length) inner.length = inner := by
  obtain ⟨eth, heth, hframe⟩ := h.frame_eq
  have hlen : m.pktLen = (eth ++ (hdr ++ inner)).length := by
    rw [← hframe, Mbuf.frame, Buffer.length_slice]
  obtain ⟨-, hrest⟩ := Buffer.slice_append hframe
  obtain ⟨h1, h2⟩ := Buffer.slice_append hrest
  rw [heth, Nat.zero_add] at h1 h2
  refine ⟨?_, h1, h2⟩
  rw [hlen, List.length_append, List.length_append, heth, Nat.add_assoc]

/-- What the filter reads lies behind the Ethernet header. -/
theorem rxPacketOf_congr {b b' : Buffer} (h : ∀ k, etherLen ≤ k → b k = b' k) :
    rxPacketOf b = rxPacketOf b' := by
  have h16 : ∀ k, b.read16 (etherLen + k) = b'.read16 (etherLen + k) := fun k =>
    Buffer.read16_congr h (Nat.le_add_right _ _)
  have h32 : ∀ k, b.read32 (etherLen + ihLen + k) = b'.read32 (etherLen + ihLen + k) := fun k =>
    Buffer.read32_congr h (by omega)
  have hargs : readArgs b (etherLen + ihLen) = readArgs b' (etherLen + ihLen) := funext fun _ => h32 _
  have hranges : ∀ s : Stage, b.read32 (etherLen + ihLen + 8 * s + 4) =
      b'.read32 (etherLen + ihLen + 8 * s + 4) := by
    intro s
    rw [Nat.add_assoc _ (8 * s.val) 4]
    exact h32 _
  unfold rxPacketOf
  simp only [h16, h32, hargs, hranges]

theorem Context.handled_congr (c : Context) (header : ActiveHeader) (offset : ℕ) {b b' : Buffer}
    (h : ∀ k, etherLen ≤ k → b k = b' k) : c.handled header offset b = c.handled header offset b' := by
  have hargs : readArgs b (etherLen + ihLen) = readArgs b' (etherLen + ihLen) :=
    congrArg RxPacket.args (rxPacketOf_congr h)
  have hinner : (fun k => b (etherLen + offset + k)) = fun k => b' (etherLen + offset + k) :=
    funext fun k => h _ (by omega)
  unfold Context.handled
  rw [hargs, hinner]

/-- **What the filter does with a well-formed active frame**: the headers are removed if the context of
the function hands packets up and the flags are those of a packet for the application. -/
theorem activeDecapFilter_of_headers {m : Mbuf} {hdr : List Byte}
    (htype : m.bytes.read16 12 = etherTypeAp4) (hroom : m.pktLen ≤ m.room)
    (h : ActiveHeaders m.frame header hdr inner) {apps : List Context} {i : ℕ} {c : Context}
    (happs : contextOf apps header.fid = some (i, c)) (hst : c.status.handsUp = true)
    (hfor : isForHandler header.flags = true) :
    ∃ c' out, rxControl c (rxPacketOf m.bytes) = some c' ∧
      activeDecapFilter apps m = some (apps.set i c', out) ∧
      out.frame = m.bytes.slice 0 12 ++ bytes16 etherTypeIpv4 ++
        (c.handled header hdr.length m.bytes).slice 0 inner.length ∧
      out.pktLen = m.pktLen - hdr.length ∧ out.dataLen = m.dataLen - BitVec.ofNat 16 hdr.length := by
  obtain ⟨hpkt, hhdr, hinner⟩ := h.slices
  obtain ⟨fixed, code, hparts, hfixed, hends⟩ := h.hdr_eq
  set b := m.bytes.write 12 (bytes16 etherTypeIpv4) with hb
  set m' : Mbuf := { m with bytes := b } with hm'
  have h14 : etherLen = 14 := rfl
  have hlen : hdr.length = fixedLen header.flags + 2 * code.length := by
    rw [hparts, List.length_append, List.length_append, ActiveHeader.length_bytes,
      length_programBytes, ← hfixed, ← Nat.add_assoc]
    rfl
  -- nothing behind the EtherType changes
  have hsame : ∀ k, etherLen ≤ k → b k = m.bytes k := fun k hk => Buffer.write_of_le hk
  have hkeep : ∀ {s n : ℕ}, etherLen ≤ s → b.slice s n = m.bytes.slice s n := fun hs =>
    Buffer.slice_write_of_le hs
  have hread : rxPacketOf b = rxPacketOf m.bytes := rxPacketOf_congr hsame
  have hhead10 : m.bytes.slice etherLen 10 = header.bytes := (Buffer.slice_append (hhdr.trans hparts)).1
  obtain ⟨hsig, hhead⟩ := header_of_slice ((hkeep le_rfl).trans hhead10)
  have hfilter : activeDecapFilter apps m = decapActive apps m' := by
    rw [activeDecapFilter, if_pos htype]
    rfl
  have hcode : b.slice (etherLen + fixedLen header.flags) (2 * code.length) = programBytes code := by
    rw [hkeep (Nat.le_add_right _ _), ← length_programBytes, ← hfixed, ← Nat.add_assoc]
    exact (Buffer.slice_append (Buffer.slice_append (hhdr.trans hparts)).2).2
  have hinner' : b.slice (etherLen + fixedLen header.flags + 2 * code.length) inner.length = inner := by
    rw [hkeep (by omega), Nat.add_assoc, ← hlen]
    exact hinner
  have hoffset : headersLen m' header.flags = some hdr.length := by
    rw [hlen]
    refine headersLen_eq hends ?_ hroom hcode hinner'
    show m.pktLen = _
    omega
  have hfit : etherLen + hdr.length ≤ m'.pktLen := by
    show _ ≤ m.pktLen
    omega
  obtain ⟨out, hout, hframe', hpkt', hdata⟩ := stripHeaders_eq c header hfit
  obtain ⟨c', hctl⟩ := rxControl_handsUp hst (rxPacketOf b)
  refine ⟨c', out, hread ▸ hctl, ?_, ?_, hpkt', hdata⟩
  · rw [hfilter, decapActive, if_neg (not_not.2 hsig)]
    dsimp only
    rw [hhead, hoffset, Option.bind_some, happs]
    dsimp only
    rw [hctl, Option.bind_some, if_pos ⟨hst, hfor⟩, hout, Option.map_some]
  · have hn : m'.pktLen - etherLen - hdr.length = inner.length := by
      show m.pktLen - etherLen - hdr.length = inner.length
      omega
    have heth : m'.bytes.slice 0 etherLen = m.bytes.slice 0 12 ++ bytes16 etherTypeIpv4 := by
      rw [show etherLen = 12 + 2 from rfl, Buffer.slice_add, Nat.zero_add]
      exact congrArg₂ _ (Buffer.slice_write_of_ge le_rfl) (Buffer.slice_write m.bytes 12 rfl)
    rw [hframe', hn, heth, c.handled_congr header hdr.length hsame]

/-! ### The round trip -/

/-- The application does not touch the packets that it gets to see. -/
def Context.RxKeeps (c : Context) : Prop := ∀ header args inner, c.rxHandler header args inner = inner

theorem Context.RxKeeps.handled_eq {c : Context} (h : c.RxKeeps) (header : ActiveHeader) (offset n : ℕ)
    (b : Buffer) : (c.handled header offset b).slice 0 n = b.slice (etherLen + offset) n := by
  refine Buffer.slice_congr fun i _ => ?_
  rw [Context.handled, h, Nat.zero_add]

/-- The flags of a packet that comes back. -/
def returnedFlags : BitVec 16 := flagOptArgs ||| flagPreload ||| flagEoe

/-- What comes back is in the format of an active frame. -/
theorem activeHeaders_returned (hmac : mac.length = 12) (hflags : header.flags = returnedFlags)
    (hends : EndsHeaders returnedFlags code inner) (args : Args) :
    ActiveHeaders (activeFrame mac header args code inner) header
      (header.bytes ++ (argsBytes args ++ programBytes code)) inner := by
  refine ⟨⟨mac ++ bytes16 etherTypeAp4, ?_, ?_⟩, argsBytes args, code, rfl, ?_, ?_⟩
  · rw [List.length_append, hmac, length_bytes16]
    rfl
  · simp only [activeFrame, List.append_assoc]
  · rw [length_argsBytes, hflags]
    decide
  · rw [hflags]
    exact hends

/-- **Encapsulation round trip.**  A frame with an IPv4 packet is sent with a program; the switch
executes some of its instructions, possibly all, and changes the arguments.  What the client hands up
is the frame. -/
theorem encapsulation_roundtrip {c : Context} (htx : c.TxKeeps) {m : Mbuf}
    (htype : m.bytes.read16 12 = etherTypeIpv4) (hlen : etherLen < m.pktLen)
    (hip : m.bytes etherLen = 0x45) {init : List ActiveInstr} {eof : ActiveInstr}
    (hprogram : (c.programs (c.txMux m.bytes c.currentPid)).mutant = init ++ [eof])
    (heof : eof.opcode = 0) (hops : ∀ instr ∈ init, instr.opcode ≠ 0)
    (hflags : ∀ instr ∈ init ++ [eof], instr.flags ≠ 0x45) {n : ℕ} (hn : n ≤ init.length + 1)
    (args : Args) (rest : Buffer) (tailroom : ℕ) {apps : List Context} {i : ℕ} {c' : Context}
    (happs : contextOf apps (BitVec.ofNat 16 c.fid) = some (i, c'))
    (hst : c'.status = .transmitting) (hrx : c'.RxKeeps) :
    ∃ apps' out, activeDecapFilter apps
        (.ofFrame (executed n args (insertActiveProgramHeaders c m).2.frame) rest tailroom) =
        some (apps', out) ∧
      out.frame = m.frame ∧ out.pktLen = m.pktLen ∧ out.dataLen = BitVec.ofNat 16 m.pktLen := by
  obtain ⟨args₀, hsent⟩ := frame_insertActiveProgramHeaders htx hlen.le
  set inner := m.bytes.slice etherLen (m.pktLen - etherLen) with hinner
  have hmac : (m.bytes.slice 0 12).length = 12 := Buffer.length_slice
  have hip' : inner.head? = some 0x45 := by
    rw [head?_of_slice hinner.symm (by omega), hip]
  -- what is left of the program ends the headers
  have hends : EndsHeaders returnedFlags ((init ++ [eof]).drop n) inner := by
    rcases Nat.lt_or_ge init.length n with hlt | hle
    · refine Or.inl ⟨?_, by decide, hip'⟩
      rw [List.drop_eq_nil_iff, List.length_append, List.length_singleton]
      omega
    · rw [List.drop_append_of_le_length hle]
      refine Or.inr ⟨init.drop n, eof, rfl, heof, fun c hc => hops c (List.mem_of_mem_drop hc), ?_⟩
      intro _
      obtain ⟨instr, rest, hcons⟩ : ∃ instr rest, init.drop n ++ [eof] = instr :: rest :=
        List.exists_cons_of_ne_nil (by simp)
      have hmem : instr ∈ init ++ [eof] := by
        refine List.mem_of_mem_drop (i := n) ?_
        rw [List.drop_append_of_le_length hle, hcons]
        exact List.mem_cons_self ..
      rw [hcons]
      exact fun hfirst => hflags instr hmem (Option.some.inj hfirst)
  set header : ActiveHeader := ⟨returnedFlags, BitVec.ofNat 16 c.fid, 0⟩ with hheader
  have hback : executed n args (insertActiveProgramHeaders c m).2.frame =
      activeFrame (m.bytes.slice 0 12) header args ((init ++ [eof]).drop n) inner := by
    rw [hsent, hprogram, executed_activeFrame hmac (by simpa using hn)]
    rfl
  have hformat : ActiveHeaders (activeFrame (m.bytes.slice 0 12) header args
      ((init ++ [eof]).drop n) inner) header _ inner := activeHeaders_returned hmac rfl hends args
  set m' := Mbuf.ofFrame (executed n args (insertActiveProgramHeaders c m).2.frame) rest tailroom
  have hframe : m'.frame = activeFrame (m.bytes.slice 0 12) header args ((init ++ [eof]).drop n) inner :=
    (Mbuf.frame_ofFrame _ _ _).trans hback
  obtain ⟨hmac', htype', -⟩ := slices_activeFrame hmac hframe
  rw [← hframe] at hformat
  obtain ⟨hpkt', -, hinner'⟩ := hformat.slices
  obtain ⟨c₁, out, -, hout, hframe', hpkt, hdata⟩ := activeDecapFilter_of_headers
    (Buffer.read16_eq htype') (Nat.le_add_right _ _) hformat happs (by rw [hst]; rfl)
    (show isForHandler returnedFlags = true by decide)
  have hinlen : inner.length = m.pktLen - etherLen := Buffer.length_slice
  refine ⟨_, out, hout, ?_, ?_, ?_⟩
  · rw [hframe', hrx.handled_eq, hinner', hmac', ← htype, ← Buffer.slice_read16, Mbuf.frame]
    conv_rhs => rw [show m.pktLen = 12 + 2 + (m.pktLen - etherLen) by
      have : etherLen = 14 := rfl
      omega, Buffer.slice_add, Buffer.slice_add]
    rw [Nat.zero_add]
    rfl
  · omega
  · have hm : m'.dataLen = BitVec.ofNat 16 m'.pktLen := rfl
    rw [hdata, hm, show m'.pktLen = m.pktLen + _ from ?_, BitVec.ofNat_add, BitVec.add_sub_cancel]
    omega

/-- A context in a status, with one program that only ends. -/
def idleContext (fid : ℕ) (status : ClientStatus) : Context where
  fid := fid
  status := status
  programs := fun _ => ⟨[⟨0, 0⟩], [], [⟨0, 2⟩, ⟨0, 0⟩]⟩
  currentPid := 0
  allocation := ⟨false, fun _ => ⟨fun _ => 0, fun _ => false, 0, 0⟩, fun _ => false, fun _ => false, 0, 0⟩
  membuf := ⟨false, fun _ => ⟨fun _ => 0, fun _ => false, 0, 0⟩, fun _ => false, fun _ => false, 0, 0⟩
  txMux := fun _ pid => pid
  txHandler := fun inner args => (args, inner)
  rxHandler := fun _ _ inner => inner

/-- A frame with an empty packet is sent with the program `RETURN; EOF`, of which `RETURN` is
executed. -/
theorem encapsulation_roundtrip_return :
    ∃ apps' out, activeDecapFilter [idleContext 1 .transmitting]
        (.ofFrame (executed 1 (fun _ => 7) (insertActiveProgramHeaders (idleContext 1 .transmitting)
          (.ofFrame (List.replicate 12 0 ++ [0x08, 0x00, 0x45]) (fun _ => 0) 0)).2.frame)
          (fun _ => 0) 0) = some (apps', out) ∧
      out.frame = List.replicate 12 0 ++ [0x08, 0x00, 0x45] ∧ out.pktLen = 15 ∧ out.dataLen = 15 := by
  have h := encapsulation_roundtrip (c := idleContext 1 .transmitting)
    (m := .ofFrame (List.replicate 12 0 ++ [0x08, 0x00, 0x45]) (fun _ => 0) 0)
    (fun _ _ => rfl) (by decide +kernel) (by decide) (by decide +kernel) (n := 1)
    (show _ = [⟨0, 2⟩] ++ [⟨0, 0⟩] from rfl) rfl (by decide) (by decide) (by decide) (fun _ => 7)
    (fun _ => 0) 0 (show contextOf [idleContext 1 .transmitting] _ = some (0, _) from rfl) rfl
    (fun _ _ _ => rfl)
  rw [Mbuf.frame_ofFrame] at h
  exact h

/-! ### Frames that are handed up -/

/-- The packet inside, as the application of the function leaves it. -/
def innerUp (apps : List Context) (header : ActiveHeader) (hdr inner : List Byte) (m : Mbuf) :
    List Byte :=
  match contextOf apps header.fid with
  | some (_, c) => (c.handled header hdr.length m.bytes).slice 0 inner.length
  | none => inner

/-- **The frame that is handed up is well formed**: it is the one that was received, or its EtherType is
that of IPv4 and its active headers are gone. -/
def WellFormedUp (apps : List Context) (m out : Mbuf) : Prop :=
  out.frame = m.frame ∨ ∃ header hdr inner, ActiveHeaders m.frame header hdr inner ∧
    out.frame = m.bytes.slice 0 12 ++ bytes16 etherTypeIpv4 ++ innerUp apps header hdr inner m ∧
    out.pktLen = m.pktLen - hdr.length ∧ out.dataLen = m.dataLen - BitVec.ofNat 16 hdr.length

theorem ActiveHeaders.ihLen_le {frame hdr : List Byte} (h : ActiveHeaders frame header hdr inner) :
    ihLen ≤ hdr.length := by
  obtain ⟨fixed, code, rfl, -, -⟩ := h.hdr_eq
  rw [List.length_append, ActiveHeader.length_bytes]
  exact Nat.le_add_right _ _

/-- A packet that keeps its headers is not handed up well formed: its EtherType is that of IPv4. -/
theorem not_wellFormedUp_retyped {apps : List Context} {m : Mbuf}
    (htype : m.bytes.read16 12 = etherTypeAp4) (hlen : etherLen ≤ m.pktLen) :
    ¬WellFormedUp apps m m.retyped := by
  have h14 : etherLen = 14 := rfl
  rintro (hsame | ⟨header, hdr, inner, hformat, -, hpkt, -⟩)
  · have hbytes : ∀ i < m.pktLen, m.retyped.bytes i = m.bytes i := by
      intro i hi
      have hi' := congrArg (fun l : List Byte => l[i]?) hsame
      simp only [Mbuf.frame, Buffer.getElem?_slice] at hi'
      rw [if_pos hi, if_pos (show i < m.retyped.pktLen from hi), Nat.zero_add] at hi'
      exact Option.some.inj hi'
    have hslice : bytes16 etherTypeIpv4 = bytes16 etherTypeAp4 := by
      rw [← htype, ← Buffer.slice_read16, ← Buffer.slice_write m.bytes 12 (length_bytes16 _)]
      exact Buffer.slice_congr fun i hi => hbytes _ (by omega)
    exact absurd hslice (by decide)
  · have h10 := hformat.ihLen_le
    have hfit := hformat.slices.1
    have hpkt : m.pktLen = m.pktLen - hdr.length := hpkt
    have : ihLen = 10 := rfl
    omega

theorem ihLen_le_of_headersLen {m : Mbuf} {flags : BitVec 16} {offset : ℕ}
    (h : headersLen m flags = some offset) : ihLen ≤ offset := by
  have hfixed : ihLen ≤ fixedLen flags := by
    unfold fixedLen
    omega
  unfold headersLen at h
  dsimp only at h
  split_ifs at h
  · obtain ⟨e, -, rfl⟩ := Option.map_eq_some_iff.1 h
    omega
  · rw [← Option.some.inj h]
    exact hfixed

/-- **What can become of an active packet**: it keeps its headers, or a context hands it up. -/
theorem decapActive_cases {apps apps' : List Context} {m out : Mbuf}
    (h : decapActive apps m = some (apps', out)) :
    out = m ∨ ∃ offset i c, headersLen m (rxPacketOf m.bytes).header.flags = some offset ∧
      contextOf apps (rxPacketOf m.bytes).header.fid = some (i, c) ∧ c.status.handsUp = true ∧
      isForHandler (rxPacketOf m.bytes).header.flags = true ∧
      stripHeaders c (rxPacketOf m.bytes).header offset m = some out := by
  unfold decapActive at h
  split_ifs at h with hsig
  · exact Or.inl (Prod.ext_iff.1 (Option.some.inj h)).2.symm
  · dsimp only at h
    obtain ⟨offset, hoffset, h⟩ := Option.bind_eq_some_iff.1 h
    cases hctx : contextOf apps (rxPacketOf m.bytes).header.fid with
    | none =>
        rw [hctx] at h
        exact Or.inl (Prod.ext_iff.1 (Option.some.inj h)).2.symm
    | some p =>
        rw [hctx] at h
        obtain ⟨c', -, h⟩ := Option.bind_eq_some_iff.1 h
        split_ifs at h with hup
        · obtain ⟨out', hout, heq⟩ := Option.map_eq_some_iff.1 h
          obtain rfl : out' = out := (Prod.ext_iff.1 heq).2
          exact Or.inr ⟨offset, p.1, p.2, hoffset, rfl, hup.1, hup.2, hout⟩
        · exact Or.inl (Prod.ext_iff.1 (Option.some.inj h)).2.symm

/-- **Exactly when a frame is handed up well formed**: it is an active frame with the flags of a packet
for the application, and the context of its function transmits or updates its memory. -/
theorem handed_up_iff {m : Mbuf} (htype : m.bytes.read16 12 = etherTypeAp4)
    (hlen : etherLen ≤ m.pktLen) (hroom : m.pktLen ≤ m.room) (apps : List Context) :
    (∃ apps' out, activeDecapFilter apps m = some (apps', out) ∧ WellFormedUp apps m out) ↔
      ∃ header hdr inner i c, ActiveHeaders m.frame header hdr inner ∧
        contextOf apps header.fid = some (i, c) ∧ c.status.handsUp = true ∧
        isForHandler header.flags = true := by
  constructor
  · rintro ⟨apps', out, hfilter, hup⟩
    rw [activeDecapFilter, if_pos htype] at hfilter
    rcases decapActive_cases hfilter with rfl | ⟨offset, i, c, hoffset, hctx, hst, hfor, hstrip⟩
    · exact absurd hup (not_wellFormedUp_retyped htype hlen)
    · have h10 := ihLen_le_of_headersLen hoffset
      have hread : rxPacketOf m.retyped.bytes = rxPacketOf m.bytes :=
        rxPacketOf_congr fun k hk => Buffer.write_of_le hk
      rcases hup with hsame | ⟨header, hdr, inner, hformat, -⟩
      · -- a frame without its headers is shorter
        have hfit := le_of_stripHeaders hstrip
        obtain ⟨out', hout', -, hpkt, -⟩ := stripHeaders_eq c
          (rxPacketOf m.retyped.bytes).header hfit
        obtain rfl : out' = out := Option.some.inj (hout'.symm.trans hstrip)
        have hout := congrArg List.length hsame
        rw [Mbuf.frame, Mbuf.frame, Buffer.length_slice, Buffer.length_slice] at hout
        have hpkt : out'.pktLen = m.pktLen - offset := hpkt
        have hfit : etherLen + offset ≤ m.pktLen := hfit
        have : ihLen = 10 := rfl
        have : etherLen = 14 := rfl
        omega
      · obtain ⟨fixed, code, hparts, -⟩ := hformat.hdr_eq
        have hhead := (header_of_slice
          (Buffer.slice_append (hformat.slices.2.1.trans hparts)).1).2
        rw [hread, hhead] at hctx hfor
        exact ⟨header, hdr, inner, i, c, hformat, hctx, hst, hfor⟩
  · rintro ⟨header, hdr, inner, i, c, hformat, hctx, hst, hfor⟩
    obtain ⟨c', out, -, hout, hframe, hpkt, hdata⟩ :=
      activeDecapFilter_of_headers htype hroom hformat hctx hst hfor
    refine ⟨_, out, hout, Or.inr ⟨header, hdr, inner, hformat, ?_, hpkt, hdata⟩⟩
    rw [hframe, innerUp, hctx]

/-- A packet without a program and with an empty inner packet, of function 1. -/
def shortFrame : List Byte :=
  activeFrame (List.replicate 12 0) ⟨returnedFlags, 1, 0⟩ (fun _ => 0) [] [0x45]

/-- A frame for a client that transmits is handed up well formed. -/
theorem handed_up_iff_transmitting :
    ∃ apps' out, activeDecapFilter [idleContext 1 .transmitting] (.ofFrame shortFrame (fun _ => 0) 0) =
      some (apps', out) ∧
      WellFormedUp [idleContext 1 .transmitting] (.ofFrame shortFrame (fun _ => 0) 0) out := by
  have hformat : ActiveHeaders shortFrame ⟨returnedFlags, 1, 0⟩
      (ActiveHeader.bytes ⟨returnedFlags, 1, 0⟩ ++ (argsBytes (fun _ => 0) ++ programBytes [])) [0x45] :=
    activeHeaders_returned rfl rfl (Or.inl ⟨rfl, by decide, rfl⟩) _
  rw [← Mbuf.frame_ofFrame shortFrame (fun _ => 0) 0] at hformat
  exact (handed_up_iff (by decide +kernel) (by decide) (by decide) _).2
    ⟨_, _, _, 0, idleContext 1 .transmitting, hformat, rfl, rfl, by decide⟩

/-- A frame for a client that saves its memory: the active headers stay, under the EtherType of IPv4. -/
theorem handed_up_snapshotting :
    ∃ apps' out, activeDecapFilter [idleContext 1 .snapshotting] (.ofFrame shortFrame (fun _ => 0) 0) =
      some (apps', out) ∧
      ¬WellFormedUp [idleContext 1 .snapshotting] (.ofFrame shortFrame (fun _ => 0) 0) out := by
  refine ⟨_, (Mbuf.ofFrame shortFrame (fun _ => 0) 0).retyped, rfl, ?_⟩
  exact not_wellFormedUp_retyped (by decide +kernel) (by decide)

end ActiveRmt
