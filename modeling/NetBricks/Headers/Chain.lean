import NetBricks.Headers.HeaderType

/-!
# Chains of headers

The four stacks of headers a NetBricks packet is built from and parsed into: `Mac`,
`Mac-Ip`, `Mac-Ip-Tcp` and `Mac-Ip-Udp`.

* Pushing a chain and parsing it again (`parse_push_iff`): `parse_header` asks for
  more bytes than the header has, so a packet that is nothing but headers cannot be
  parsed back.
* Where the payload of a parsed packet lies (`payload_inside_iff`): `parse_header`
  compares the bytes that are left with the size of the struct, and the payload starts
  where the fields of the header say. What these fields say in sum about a frame is
  `declared`, read off the bytes of the frame.
-/

namespace NetBricks.Headers

open Lib
open Lib.Outcome
open Interface

/-! ## There and back -/

/-- A chain of headers to push. -/
inductive Chain where
  | mac (mac : MacHeader)
  | macIp (mac : MacHeader) (ip : IpHeader)
  | macIpTcp (mac : MacHeader) (ip : IpHeader) (tcp : TcpHeader)
  | macIpUdp (mac : MacHeader) (ip : IpHeader) (udp : UdpHeader)
  deriving DecidableEq, Repr

def Chain.layers : Chain → List Layer
  | .mac h => [macHeader.layer h]
  | .macIp h ip => [macHeader.layer h, ipHeader.layer ip]
  | .macIpTcp h ip tcp => [macHeader.layer h, ipHeader.layer ip, tcpHeader.layer tcp]
  | .macIpUdp h ip udp => [macHeader.layer h, ipHeader.layer ip, udpHeader.layer udp]

/-- The `offset()` of every header is the size of its struct. -/
def Chain.SelfSized : Chain → Prop
  | .mac h => h.offset = MacHeader.hdrSize
  | .macIp h ip => h.offset = MacHeader.hdrSize ∧ ip.offset = IpHeader.size
  | .macIpTcp h ip tcp =>
    h.offset = MacHeader.hdrSize ∧ ip.offset = IpHeader.size ∧ tcp.offset = TcpHeader.size
  | .macIpUdp h ip udp =>
    h.offset = MacHeader.hdrSize ∧ ip.offset = IpHeader.size ∧ udp.offset = UdpHeader.size

theorem Chain.layers_ne_nil (chain : Chain) : chain.layers ≠ [] := by
  cases chain <;> nofun

theorem Chain.SelfSized.plain {chain : Chain} (h : chain.SelfSized) :
    ∀ l ∈ chain.layers, l.Plain := by
  cases chain with
  | mac eth =>
    have heth : (macHeader.layer eth).Plain := macHeader.plain h
    simpa [layers] using heth
  | macIp eth ip =>
    have heth : (macHeader.layer eth).Plain := macHeader.plain h.1
    have hip : (ipHeader.layer ip).Plain := ipHeader.plain h.2
    simpa [layers] using ⟨heth, hip⟩
  | macIpTcp eth ip tcp =>
    have heth : (macHeader.layer eth).Plain := macHeader.plain h.1
    have hip : (ipHeader.layer ip).Plain := ipHeader.plain h.2.1
    have htcp : (tcpHeader.layer tcp).Plain := tcpHeader.plain h.2.2
    simpa [layers] using ⟨heth, hip, htcp⟩
  | macIpUdp eth ip udp =>
    have heth : (macHeader.layer eth).Plain := macHeader.plain h.1
    have hip : (ipHeader.layer ip).Plain := ipHeader.plain h.2.1
    have hudp : (udpHeader.layer udp).Plain := udpHeader.plain h.2.2
    simpa [layers] using ⟨heth, hip, hudp⟩

/-- A packet from `new_packet` takes every chain whose headers have the size of their
structs, with any payload that fits, and `reset` and parsing give the headers and the
payload back exactly when the payload is not empty. `mbuf_alloc` returns an mbuf with
no data. -/
theorem parse_push_iff {chain : Chain} (hself : chain.SelfSized) (mbuf : Ptr) {m : MBuf}
    (hempty : m.dataLen = 0) {payload : List UInt8}
    (hfits : m.dataOff + ((stackBytes chain.layers).length + payload.length) ≤ m.buf.length) :
    ∃ p pushed m₁ m₂, newPacket (some mbuf) = some p ∧
      pushAll p chain.layers m = .ok (some pushed, m₁) ∧
      (pushed.getLastD p).appendPayload payload m₁ = .ok (.ok (), m₂) ∧
      (RoundTrip pushed chain.layers payload (pushed.getLastD p) m₂ ↔ payload ≠ []) := by
  obtain ⟨pushed, m₁, m₂, hpush, happend, hiff⟩ :=
    roundTrip_iff chain.layers_ne_nil hself.plain mbuf hempty hfits
  exact ⟨Packet.fromMbuf mbuf, pushed, m₁, m₂, rfl, hpush, happend, hiff⟩

/-- The headers that `PacketCreator::new` of the packet generator sets up. -/
def generatorChain : Chain :=
  .macIp
    (MacHeader.setEtype
      { MacHeader.new with
        dst := { addr := #v[0x68, 0x05, 0xca, 0x00, 0x00, 0xac] }
        src := { addr := #v[0x68, 0x05, 0xca, 0x00, 0x00, 0x01] } }
      0x0800)
    ((((((IpHeader.new.setSrc 0x0a000001).setDst 0x0a000005).setTtl 128).setVersion 4).setIhl
      5).setLength 20)

/-- An mbuf as `mbuf_alloc` returns it, with room for 64 bytes. -/
def emptyMbuf : MBuf :=
  { bufAddr := 4096, buf := .replicate 64 0, dataOff := 0, dataLen := 0, slots := .replicate 128 0 }

theorem generatorChain_selfSized : generatorChain.SelfSized := by
  constructor <;> decide

/-- The packet generator's headers with one byte behind them come back. -/
theorem parse_push_generator : ∃ p pushed m₁ m₂, newPacket (some 7) = some p ∧
    pushAll p generatorChain.layers emptyMbuf = .ok (some pushed, m₁) ∧
    (pushed.getLastD p).appendPayload [42] m₁ = .ok (.ok (), m₂) ∧
    RoundTrip pushed generatorChain.layers [42] (pushed.getLastD p) m₂ := by
  obtain ⟨p, pushed, m₁, m₂, hnew, hpush, happend, hiff⟩ :=
    parse_push_iff generatorChain_selfSized 7 (m := emptyMbuf) rfl
      (show emptyMbuf.dataOff + ((stackBytes generatorChain.layers).length + [42].length) ≤
        emptyMbuf.buf.length by decide)
  exact ⟨p, pushed, m₁, m₂, hnew, hpush, happend, hiff.mpr nofun⟩

/-- Without a payload they do not: the last `parse_header` panics. -/
theorem parse_push_headers_only : ∃ pushed m₁,
    pushAll (Packet.fromMbuf 7) generatorChain.layers emptyMbuf = .ok (some pushed, m₁) ∧
    parseAll (pushed.getLastD (Packet.fromMbuf 7)).reset
        (generatorChain.layers.map (·.header)) m₁ =
      .panic (.assertion "self.payload_size() > T2::size()") := by
  refine ⟨stackFrom 7 0 generatorChain.layers, ?_⟩
  obtain ⟨m₁, hpush, hext⟩ := pushAll_spec (p := Packet.fromMbuf 7) (m := emptyMbuf)
    generatorChain_selfSized.plain rfl (by decide)
  have hstack : Stacked m₁ (Packet.fromMbuf 7) [] generatorChain.layers [] :=
    ⟨hext.inside (by decide), generatorChain_selfSized.plain, by
      rw [hext.frame_eq, List.append_nil]
      rfl, rfl⟩
  exact ⟨m₁, hpush, hstack.parses_panics (Chain.layers_ne_nil _)⟩

/-! ## Where the payload lies -/

/-- Where the payload of a packet lies: inside the frame, so that `payload_size` does
not underflow and the slices of `get_payload` and `get_mut_payload` are its rest. -/
structure PayloadInside (p : Packet) (m : MBuf) : Prop where
  le : p.offset + p.payloadOffset m ≤ m.dataLen
  payloadSize_eq : p.payloadSize m = .ok (m.dataLen - (p.offset + p.payloadOffset m))
  getPayload_eq : p.getPayload m = .ok (m.frame.drop (p.offset + p.payloadOffset m))

/-- Nothing but the first part is needed. -/
theorem payloadInside_iff {p : Packet} {m : MBuf} (hm : m.Inside) :
    PayloadInside p m ↔ p.offset + p.payloadOffset m ≤ m.dataLen := by
  constructor
  · exact fun h => h.le
  · intro h
    have hsize : p.payloadSize m = .ok (m.dataLen - (p.offset + p.payloadOffset m)) := by
      rw [Packet.payloadSize, checkedSub_of_le (by omega), bind_ok, checkedSub_of_le (by omega),
        Nat.sub_sub]
    refine ⟨h, hsize, ?_⟩
    rw [Packet.getPayload, hsize, bind_ok, MBuf.read_eq hm (by omega), List.take_of_length_le]
    rw [List.length_drop, MBuf.length_frame hm]

/-- What a header type has to say about the bytes it lies over: the length in its
fields, for which the bytes of the struct are enough. -/
structure Declares (header : EndOffset) (length : List UInt8 → Nat) : Prop where
  offset_eq : ∀ memory rest, header.size ≤ memory.length →
    header.offset (memory ++ rest) = length memory

/-- The length that successive headers declare. -/
def declared : List (List UInt8 → Nat) → List UInt8 → Nat
  | [], _ => 0
  | length :: lengths, memory => length memory + declared lengths (memory.drop (length memory))

theorem parseHeader_eq_ok {p q : Packet} {header : EndOffset} {m : MBuf}
    (h : p.parseHeader header m = .ok q) :
    q = { mbuf := p.mbuf, header := header, offset := p.offset + p.payloadOffset m } ∧
      p.offset + p.payloadOffset m + header.size < m.dataLen := by
  obtain ⟨size, hsize, h⟩ := bind_eq_ok.mp h
  obtain ⟨behind, hbehind, hsize⟩ := bind_eq_ok.mp hsize
  obtain ⟨hle₁, rfl⟩ := checkedSub_eq_ok.mp hbehind
  obtain ⟨hle₂, rfl⟩ := checkedSub_eq_ok.mp hsize
  by_cases hgt : m.dataLen - p.offset - p.payloadOffset m > header.size
  · rw [check_true hgt, bind_ok] at h
    exact ⟨(Outcome.ok.inj h).symm, by omega⟩
  · rw [check_false hgt, bind_panic] at h
    cases h

/-- Where the last of the parsed headers says the payload starts. -/
theorem end_parseAll {m : MBuf} (hm : m.Inside) :
    ∀ {types : List (EndOffset × (List UInt8 → Nat))} {p : Packet} {packets : List Packet},
      (∀ t ∈ types, Declares t.1 t.2) → parseAll p (types.map (·.1)) m = .ok packets →
      (packets.getLastD p).offset + (packets.getLastD p).payloadOffset m =
        p.offset + p.payloadOffset m +
          declared (types.map (·.2)) (m.frame.drop (p.offset + p.payloadOffset m)) := by
  intro types
  induction types with
  | nil =>
    intro p packets _ h
    cases h
    rfl
  | cons t ts ih =>
    intro p packets htypes h
    rw [List.map_cons, parseAll] at h
    obtain ⟨q, hparse, h⟩ := bind_eq_ok.mp h
    obtain ⟨rest, hrest, h⟩ := bind_eq_ok.mp h
    cases h
    obtain ⟨rfl, hlt⟩ := parseHeader_eq_ok hparse
    generalize hstart : p.offset + p.payloadOffset m = start at hlt hrest ⊢
    -- the struct lies inside the frame, and its fields say where the next header starts
    have hoffset : Packet.payloadOffset { mbuf := p.mbuf, header := t.1, offset := start } m =
        t.2 (m.frame.drop start) := by
      show t.1.offset (m.buf.drop (m.dataOff + start)) = _
      rw [MBuf.drop_buf hm (by omega)]
      apply (htypes t List.mem_cons_self).offset_eq
      rw [List.length_drop, MBuf.length_frame hm]
      omega
    have hlast := ih (fun t' ht' => htypes t' (List.mem_cons_of_mem t ht')) hrest
    rw [hoffset, ← List.drop_drop] at hlast
    rw [List.getLastD_cons, hlast, List.map_cons, declared, Nat.add_assoc]

/-! ## What the fields say -/

/-- The length of a MAC header: the type is looked at with its low byte first. -/
def macLength (frame : List UInt8) : Nat :=
  let etype := leNat ((frame.drop 12).take 2)
  if etype = 0x8100 then 18 else if etype = 0x9100 then 22 else 14

/-- The length of an IP header: the low half of its first byte, in words. -/
def ipLength (frame : List UInt8) : Nat := 4 * ((frame.getD 0 0).toNat % 16)

/-- The length of a TCP header: the high half of its byte 12, in words. -/
def tcpLength (frame : List UInt8) : Nat := 4 * ((frame.getD 12 0).toNat / 16)

/-- The length of a UDP header. -/
def udpLength (_frame : List UInt8) : Nat := 8

theorem macHeader_declares : Declares macHeader.endOffset macLength where
  offset_eq := by
    intro memory rest hlen
    have htype : (((memory ++ rest).drop 12).take 2) = (memory.drop 12).take 2 := by
      have hlen' : 14 ≤ memory.length := hlen
      rw [List.drop_append_of_le_length (by omega), List.take_append_of_le_length (by
        rw [List.length_drop]
        omega)]
    show MacHeader.offset (MacHeader.ofBytes (memory ++ rest)) = macLength memory
    simp only [MacHeader.offset, MacHeader.ofBytes, leHalfAt_eq_iff, htype, macLength]
    rfl

theorem ipHeader_declares : Declares ipHeader.endOffset ipLength where
  offset_eq := by
    intro memory rest hlen
    obtain ⟨a, memory, rfl⟩ := List.exists_cons_of_length_pos
      (Nat.lt_of_lt_of_le ipHeader.size_pos hlen)
    have hword : (leWordAt (a :: memory ++ rest) 0).toNat % 2 ^ 4 = a.toNat % 16 := by
      have hcons : leNat (a :: (memory ++ rest).take 3) =
          a.toNat + 256 * leNat ((memory ++ rest).take 3) := by
        simp [leNat, Nat.ofDigits_cons]
      show (UInt32.ofNat (leNat (a :: (memory ++ rest).take 3))).toNat % 2 ^ 4 = _
      rw [hcons, UInt32.toNat_ofNat']
      omega
    have hmask : FieldMask 0 4 0x0f 0 := by decide
    show (readField 0x0f 0 (leWordAt (a :: memory ++ rest) 0)).toUInt8.toNat * 4 =
      4 * (a.toNat % 16)
    rw [toNat_readField_toUInt8 hmask (by decide), bits, Nat.pow_zero, Nat.div_one, hword,
      Nat.mul_comm]

theorem tcpHeader_declares : Declares tcpHeader.endOffset tcpLength where
  offset_eq := by
    intro memory rest hlen
    have hlen' : 20 ≤ memory.length := hlen
    have hbyte : (memory ++ rest).getD 12 0 = memory.getD 12 0 :=
      List.getD_append _ _ _ _ (by omega)
    show ((((memory ++ rest).getD 12 0 &&& 0xf0) >>> 4) * 4).toNat = tcpLength memory
    have hmask (x : Nat) : x &&& 0xf0 = x / 16 % 16 * 16 := and_mask 4 4 x
    have hlt := (memory.getD 12 0).toNat_lt
    rw [hbyte, tcpLength, UInt8.toNat_mul, UInt8.toNat_shiftRight, UInt8.toNat_and]
    simp only [UInt8.toNat_ofNat, Nat.reducePow, Nat.reduceMod, Nat.shiftRight_eq_div_pow, hmask]
    omega

theorem udpHeader_declares : Declares udpHeader.endOffset udpLength where
  offset_eq := fun _ _ _ => rfl

/-- The sequences of `parse_header` calls. -/
inductive Shape where
  | mac
  | macIp
  | macIpTcp
  | macIpUdp
  deriving DecidableEq, Repr

namespace Shape

/-- The header types to parse, each with the length its fields declare. -/
def types : Shape → List (EndOffset × (List UInt8 → Nat))
  | .mac => [(macHeader.endOffset, macLength)]
  | .macIp => [(macHeader.endOffset, macLength), (ipHeader.endOffset, ipLength)]
  | .macIpTcp =>
    [(macHeader.endOffset, macLength), (ipHeader.endOffset, ipLength),
      (tcpHeader.endOffset, tcpLength)]
  | .macIpUdp =>
    [(macHeader.endOffset, macLength), (ipHeader.endOffset, ipLength),
      (udpHeader.endOffset, udpLength)]

def headers (shape : Shape) : List EndOffset := shape.types.map (·.1)

/-- The length that the headers in a frame declare. -/
def declaredLength (shape : Shape) (frame : List UInt8) : Nat :=
  declared (shape.types.map (·.2)) frame

theorem types_declare (shape : Shape) : ∀ t ∈ shape.types, Declares t.1 t.2 := by
  have hmac := macHeader_declares
  have hip := ipHeader_declares
  have htcp := tcpHeader_declares
  have hudp := udpHeader_declares
  cases shape with
  | mac => simpa [types] using hmac
  | macIp => simpa [types] using ⟨hmac, hip⟩
  | macIpTcp => simpa [types] using ⟨hmac, hip, htcp⟩
  | macIpUdp => simpa [types] using ⟨hmac, hip, hudp⟩

end Shape

/-- After any `parse_header` calls that succeed, the payload lies inside the packet
exactly when the lengths that the headers declare add up to no more than the frame. -/
theorem payload_inside_iff {shape : Shape} {mbuf : Ptr} {m : MBuf} (hm : m.Inside)
    {packets : List Packet}
    (hparse : parseAll (Packet.fromMbuf mbuf) shape.headers m = .ok packets) :
    PayloadInside (packets.getLastD (Packet.fromMbuf mbuf)) m ↔
      shape.declaredLength m.frame ≤ m.dataLen := by
  have hend := end_parseAll hm shape.types_declare hparse
  have hstart : (Packet.fromMbuf mbuf).offset + (Packet.fromMbuf mbuf).payloadOffset m = 0 := rfl
  rw [hstart, Nat.zero_add, List.drop_zero] at hend
  rw [payloadInside_iff hm, hend, Shape.declaredLength]

/-- An mbuf that holds a MAC header and 21 bytes of an IP header of `ihl` words. -/
def ipMbuf (ihl : UInt8) : MBuf :=
  { bufAddr := 4096
    buf := List.replicate 14 0 ++ (64 + ihl) :: List.replicate 20 0
    dataOff := 0
    dataLen := 35
    slots := .replicate 128 0 }

/-- The packets of `ipMbuf`. -/
def ipPackets : List Packet :=
  [{ mbuf := 7, header := macHeader.endOffset, offset := 0 },
    { mbuf := 7, header := ipHeader.endOffset, offset := 14 }]

theorem parseAll_ipMbuf (ihl : UInt8) :
    parseAll (Packet.fromMbuf 7) Shape.macIp.headers (ipMbuf ihl) = .ok ipPackets := rfl

/-- A header of five words is followed by the last byte. -/
theorem payload_inside_five :
    PayloadInside (ipPackets.getLastD (Packet.fromMbuf 7)) (ipMbuf 5) :=
  (payload_inside_iff (show (ipMbuf 5).Inside from Nat.le_refl 35) (parseAll_ipMbuf 5)).mpr
    (by decide)

/-- The header of 21 bytes that says it has fifteen words is accepted, and the payload
would start behind the end of the packet. -/
theorem payload_outside_fifteen :
    parseAll (Packet.fromMbuf 7) Shape.macIp.headers (ipMbuf 15) = .ok ipPackets ∧
      ¬ PayloadInside (ipPackets.getLastD (Packet.fromMbuf 7)) (ipMbuf 15) := by
  refine ⟨parseAll_ipMbuf 15, fun h => ?_⟩
  have hle := h.le
  revert hle
  decide

end NetBricks.Headers
