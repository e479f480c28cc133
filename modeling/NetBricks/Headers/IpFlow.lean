import NetBricks.Headers.IpLayout
import NetBricks.Utils.FlowBytes

/-!
# The two ways to get the flow of a packet

`IpHeader::flow` of `src/framework/src/headers/ip.rs` reads the addresses and the
protocol from the header and the ports from behind it; `ipv4_extract_flow` of
`src/framework/src/utils/flow.rs` reads all of it off the bytes. Both are used for
the same packets, so they should return the same `Flow`. They do but for the ports:
`flow` takes the first port behind the header for the destination.

`flow` looks at the ports when the total length leaves room for them. It computes the room
with an unsigned subtraction, which overflows for a total length below the length of the
header (`flow_rejects_iff`).

Mirroring notes:

* `flow` is a method on the header in memory and follows its own address to the
  ports. The model is given what lies from that address on. A read behind the end of
  it has no meaning in the source; the model stops there.
* With the feature `performance` the header's `offset` is 20 whatever the header says.
  `flowFrom` is given the offset; `flow` is the default build's, and `flowPerformance` that
  of a build with the feature.
-/

namespace NetBricks.Headers

open Lib
open Lib.Outcome
open Utils

open BigEndian

namespace IpHeader

section Flow

variable [BigEndian]

/-- `IpHeader::flow`, with what lies in memory from the header on, for a header whose `offset`
is the given one. -/
def flowFrom (h : IpHeader) (offset : Nat) (memory : List UInt8) : Outcome (Option Flow) := do
  let protocol := h.protocol
  let srcIp := h.src
  let dstIp := h.dst
  if protocol = 6 ∨ protocol = 17 then
    let size ← h.payloadSize offset 0
    if size ≥ 4 then
      let portSlice ← sliceRange memory offset (offset + 4)
      let dstPort ← readU16 (← sliceTo portSlice 2)
      let srcPort ← readU16 (← sliceFrom portSlice 2)
      .ok (some { srcIp := srcIp, dstIp := dstIp, srcPort := srcPort, dstPort := dstPort,
                  proto := protocol })
    else .ok none
  else .ok none

/-- `IpHeader::flow`. -/
def flow (h : IpHeader) (memory : List UInt8) : Outcome (Option Flow) :=
  h.flowFrom h.offset memory

/-- `IpHeader::flow` of a build with `performance`. -/
def flowPerformance (h : IpHeader) (memory : List UInt8) : Outcome (Option Flow) :=
  h.flowFrom 20 memory

end Flow

/-- The fields of the wire do not depend on what is behind the header. -/
theorem wire_take (f : IpField) (memory : List UInt8) :
    f.wire (memory.take 20) = f.wire memory := by
  have hrow : 4 * f.row + 4 ≤ 20 := by cases f <;> decide
  rw [IpField.wire, IpField.wire, List.drop_take, List.take_take, Nat.min_eq_left (by omega)]

/-- A getter of the header that lies over memory returns the field in memory. -/
theorem get_ofBytes {memory : List UInt8} (hlen : 20 ≤ memory.length) {f : IpField}
    (hf : f ≠ .fragmentOffset) (hc : f ≠ .csum) : (ofBytes memory).get f = f.wire memory := by
  rw [get_eq_wire _ hf hc, bytes_ofBytes hlen, wire_take]

/-- Four bytes of memory, one by one. -/
theorem exists_four {memory : List UInt8} {i : Nat} (h : i + 4 ≤ memory.length) :
    ∃ a b c d, (memory.drop i).take 4 = [a, b, c, d] ∧ memory[i]? = some a ∧
      memory[i + 1]? = some b := by
  obtain ⟨a, b, c, d, htake⟩ := List.length_eq_four.mp (length_take_drop h)
  refine ⟨a, b, c, d, htake, ?_, ?_⟩
  · have := congrArg (·[0]?) htake
    simpa using this
  · have := congrArg (·[1]?) htake
    simpa using this

theorem wire_protocol {memory : List UInt8} (hlen : 20 ≤ memory.length) :
    ∃ proto, memory[9]? = some proto ∧ IpField.protocol.wire memory = proto.toNat := by
  obtain ⟨a, b, c, d, htake, -, hb⟩ := exists_four (i := 8) (show 8 + 4 ≤ memory.length by omega)
  refine ⟨b, hb, ?_⟩
  show bits 16 8 (beNat ((memory.drop 8).take 4)) = _
  rw [htake, beNat_four, (bits_word d c b a).2.2.1]

/-- The header length is the low half of byte 0. -/
theorem wire_ihl {memory : List UInt8} (hlen : 20 ≤ memory.length) :
    ∃ first, memory[0]? = some first ∧ IpField.ihl.wire memory = first.toNat % 16 := by
  obtain ⟨a, b, c, d, htake, ha, -⟩ := exists_four (i := 0) (show 0 + 4 ≤ memory.length by omega)
  refine ⟨a, ha, ?_⟩
  show bits (24 + 0) 4 (beNat ((memory.drop 0).take 4)) = _
  rw [htake, beNat_four, ← bits_bits (show 0 + 4 ≤ 8 by decide), (bits_word d c b a).2.2.2, bits,
    Nat.pow_zero, Nat.div_one]
  rfl

theorem portStart_eq_wire {memory : List UInt8} (hlen : 20 ≤ memory.length) :
    portStart memory = IpField.ihl.wire memory * 4 := by
  obtain ⟨first, hfirst, hwire⟩ := wire_ihl hlen
  rw [portStart, Utils.ihl, List.getD_eq_getElem?_getD, hfirst, hwire]
  rfl

theorem src_ofBytes {memory : List UInt8} (hlen : 20 ≤ memory.length) :
    (ofBytes memory).src = .ofNat (beNat ((memory.drop 12).take 4)) := by
  have hget : (ofBytes memory).src.toNat = bits 0 32 (beNat ((memory.drop 12).take 4)) :=
    get_ofBytes hlen (show IpField.src ≠ _ from nofun) nofun
  apply UInt32.toNat_inj.mp
  rw [hget, UInt32.toNat_ofNat', bits, Nat.pow_zero, Nat.div_one]

theorem dst_ofBytes {memory : List UInt8} (hlen : 20 ≤ memory.length) :
    (ofBytes memory).dst = .ofNat (beNat ((memory.drop 16).take 4)) := by
  have hget : (ofBytes memory).dst.toNat = bits 0 32 (beNat ((memory.drop 16).take 4)) :=
    get_ofBytes hlen (show IpField.dst ≠ _ from nofun) nofun
  apply UInt32.toNat_inj.mp
  rw [hget, UInt32.toNat_ofNat', bits, Nat.pow_zero, Nat.div_one]

/-- What `flow` returns for a packet whose ports are there. -/
theorem flow_ofBytes [BigEndian] {memory : List UInt8} {start : Nat} {proto : UInt8}
    (hstart : IpField.ihl.wire memory * 4 = start) (hmin : 20 ≤ start)
    (hproto : memory[9]? = some proto) (hknown : proto = 6 ∨ proto = 17)
    (htotal : start + 4 ≤ IpField.length.wire memory) (hlen : start + 4 ≤ memory.length) :
    (ofBytes memory).flow memory = .ok (some
      { srcIp := .ofNat (beNat ((memory.drop 12).take 4))
        dstIp := .ofNat (beNat ((memory.drop 16).take 4))
        srcPort := .ofNat (beNat ((memory.drop (start + 2)).take 2))
        dstPort := .ofNat (beNat ((memory.drop start).take 2))
        proto := proto }) := by
  have h20 : 20 ≤ memory.length := by omega
  have hprotocol : (ofBytes memory).protocol = proto := by
    obtain ⟨p, hp, hwire⟩ := wire_protocol h20
    rw [hproto] at hp
    cases hp
    apply UInt8.toNat_inj.mp
    rw [← hwire]
    exact get_ofBytes h20 (show IpField.protocol ≠ _ from nofun) nofun
  have hoffset : (ofBytes memory).offset = start := by
    rw [← hstart, ← get_ofBytes h20 (show IpField.ihl ≠ _ from nofun) nofun]
    rfl
  have hlength : (ofBytes memory).length.toNat = IpField.length.wire memory :=
    get_ofBytes h20 (show IpField.length ≠ _ from nofun) nofun
  have hslice := length_take_drop hlen
  have hfront : ((memory.drop start).take 4).take 2 = (memory.drop start).take 2 :=
    List.take_take
  have hback : ((memory.drop start).take 4).drop 2 = (memory.drop (start + 2)).take 2 := by
    rw [List.drop_take, List.drop_drop]
  unfold flow flowFrom
  rw [hprotocol, if_pos hknown, payloadSize, hoffset, hlength, checkedSub_of_le (by omega), bind_ok,
    if_pos (by omega), sliceRange_of_le (by omega) hlen, bind_ok, Nat.add_sub_cancel_left,
    sliceTo_of_le (by omega), bind_ok, hfront, readU16_of_length (length_take_drop (by omega)),
    bind_ok, sliceFrom_of_le (by omega), bind_ok, hback,
    readU16_of_length (length_take_drop (by omega)), bind_ok, src_ofBytes h20, dst_ofBytes h20]

end IpHeader

/-- Two half-words read from memory are equal as numbers when they are as `u16`s. -/
theorem ofNat_beNat_inj {memory : List UInt8} {i j : Nat}
    (h : UInt16.ofNat (beNat ((memory.drop i).take 2)) =
      UInt16.ofNat (beNat ((memory.drop j).take 2))) :
    beNat ((memory.drop i).take 2) = beNat ((memory.drop j).take 2) := by
  have hlt : ∀ k, beNat ((memory.drop k).take 2) < 2 ^ 16 := by
    intro k
    refine Nat.lt_of_lt_of_le (beNat_lt _) ?_
    exact Nat.pow_le_pow_right (n := 256) (by decide) (List.length_take_le 2 _)
  have hnat := congrArg UInt16.toNat h
  rwa [UInt16.toNat_ofNat', UInt16.toNat_ofNat', Nat.mod_eq_of_lt (hlt i),
    Nat.mod_eq_of_lt (hlt j)] at hnat

/-- **The two extractors.** For a packet that has at least the words its header
claims, a transport with ports and the ports themselves: both return a flow, and it
is the same one exactly when the two ports are equal. -/
theorem flow_eq_extract_iff [BigEndian] {bytes : List UInt8} (hihl : 5 ≤ IpField.ihl.wire bytes)
    (hproto : IpField.protocol.wire bytes = 6 ∨ IpField.protocol.wire bytes = 17)
    (htotal : IpField.ihl.wire bytes * 4 + 4 ≤ IpField.length.wire bytes)
    (hlen : IpField.ihl.wire bytes * 4 + 4 ≤ bytes.length) :
    ∃ f g, (IpHeader.ofBytes bytes).flow bytes = .ok (some f) ∧
      ipv4ExtractFlow bytes = .ok (some g) ∧
      (f = g ↔ beNat ((bytes.drop (IpField.ihl.wire bytes * 4)).take 2) =
        beNat ((bytes.drop (IpField.ihl.wire bytes * 4 + 2)).take 2)) := by
  have h20 : 20 ≤ bytes.length := by omega
  obtain ⟨proto, hp, hpwire⟩ := IpHeader.wire_protocol h20
  have hstart := IpHeader.portStart_eq_wire h20
  have hknown : proto = 6 ∨ proto = 17 := by
    rw [hpwire] at hproto
    exact hproto.imp (fun h => UInt8.toNat_inj.mp h) (fun h => UInt8.toNat_inj.mp h)
  refine ⟨_, _, IpHeader.flow_ofBytes rfl (by omega) hp hknown htotal hlen,
    ipv4ExtractFlow_eq hp ⟨h20, by omega⟩, ?_⟩
  rw [hstart]
  constructor
  · intro h
    injection h with _ _ _ hport _
    exact ofNat_beNat_inj hport
  · intro h
    rw [h]

/-- A UDP packet from port 7 to port 9, with a header of twenty bytes. -/
def udpPacket : List UInt8 :=
  [0x45, 0, 0, 24, 0, 0, 0, 0, 64, 17, 0, 0, 10, 0, 0, 1, 10, 0, 0, 2, 0, 7, 0, 9]

/-- A UDP packet from port 7 to port 7. -/
def samePortPacket : List UInt8 :=
  [0x45, 0, 0, 24, 0, 0, 0, 0, 64, 17, 0, 0, 10, 0, 0, 1, 10, 0, 0, 2, 0, 7, 0, 7]

/-- With equal ports the two agree. -/
theorem flow_eq_extract_same_port : letI := networkOrder
    IpField.ihl.wire samePortPacket = 5 ∧ IpField.protocol.wire samePortPacket = 17 ∧
      IpField.length.wire samePortPacket = 24 ∧
      (IpHeader.ofBytes samePortPacket).flow samePortPacket = ipv4ExtractFlow samePortPacket := by
  let _ := networkOrder
  have hihl : 5 ≤ IpField.ihl.wire samePortPacket := by decide
  obtain ⟨f, g, hf, hg, hiff⟩ :=
    flow_eq_extract_iff hihl (Or.inr (by decide)) (by decide) (by decide)
  refine ⟨by decide, by decide, by decide, ?_⟩
  rw [hf, hg, hiff.mpr (by decide)]

/-- With different ports `flow` has them the other way around. -/
theorem flow_swaps_ports : letI := networkOrder
    (IpHeader.ofBytes udpPacket).flow udpPacket = .ok (some
      { srcIp := 0x0a000001, dstIp := 0x0a000002, srcPort := 9, dstPort := 7, proto := 17 }) ∧
    ipv4ExtractFlow udpPacket = .ok (some
      { srcIp := 0x0a000001, dstIp := 0x0a000002, srcPort := 7, dstPort := 9, proto := 17 }) := by
  decide

/-! ## Short packets -/

namespace IpHeader

/-- The transport has ports: TCP or UDP. -/
def HasPorts (h : IpHeader) : Prop := h.protocol = 6 ∨ h.protocol = 17

instance (h : IpHeader) : Decidable h.HasPorts := inferInstanceAs (Decidable (_ ∨ _))

section Flow

variable [BigEndian]

theorem flow_of_not_hasPorts {h : IpHeader} (hports : ¬ h.HasPorts) (memory : List UInt8) :
    h.flow memory = .ok none := by
  unfold flow flowFrom
  exact if_neg hports

/-- A total length below the length of the header. -/
theorem flow_of_lt {h : IpHeader} (hports : h.HasPorts) (hlt : h.length.toNat < h.offset)
    (memory : List UInt8) : h.flow memory = .panic .overflow := by
  have hsub : h.payloadSize h.offset 0 = .panic .overflow := if_neg (by omega)
  unfold flow flowFrom
  dsimp only
  rw [if_pos (show h.protocol = 6 ∨ h.protocol = 17 from hports), hsub, bind_panic]

/-- A total length that has the header but not the ports. -/
theorem flow_of_no_room {h : IpHeader} (hle : h.offset ≤ h.length.toNat)
    (hlt : h.length.toNat < h.offset + 4) (memory : List UInt8) : h.flow memory = .ok none := by
  by_cases hports : h.HasPorts
  · unfold flow flowFrom
    dsimp only
    rw [if_pos (show h.protocol = 6 ∨ h.protocol = 17 from hports), payloadSize,
      checkedSub_of_le hle, bind_ok, if_neg (by omega)]
  · exact flow_of_not_hasPorts hports memory

/-- **Short packets.** A flow is returned only for TCP and UDP and a total length that has
the ports in it. For a smaller total length `None` is returned, except for TCP and UDP
packets whose total length is below the length of their header. -/
theorem flow_rejects_iff (h : IpHeader) (memory : List UInt8) :
    (∀ f, h.flow memory = .ok (some f) →
      (h.protocol = 6 ∨ h.protocol = 17) ∧ h.ihl.toNat * 4 + 4 ≤ h.length.toNat) ∧
    (h.length.toNat < h.ihl.toNat * 4 + 4 →
      (h.flow memory = .ok none ↔
        ¬ ((h.protocol = 6 ∨ h.protocol = 17) ∧ h.length.toNat < h.ihl.toNat * 4))) := by
  constructor
  · intro f hf
    by_cases hports : h.HasPorts
    · refine ⟨hports, ?_⟩
      by_contra hshort
      rcases Nat.lt_or_ge h.length.toNat h.offset with hlt | hge
      · rw [flow_of_lt hports hlt] at hf
        cases hf
      · rw [flow_of_no_room hge (Nat.lt_of_not_le hshort)] at hf
        cases hf
    · rw [flow_of_not_hasPorts hports] at hf
      cases hf
  · intro hshort
    constructor
    · intro hnone hbad
      rw [flow_of_lt hbad.1 hbad.2] at hnone
      cases hnone
    · intro hgood
      by_cases hports : h.HasPorts
      · exact flow_of_no_room (Nat.le_of_not_lt fun hlt => hgood ⟨hports, hlt⟩) hshort memory
      · exact flow_of_not_hasPorts hports memory

end Flow

/-- A UDP header of twenty bytes that claims a total length. -/
def claiming (len : UInt16) : IpHeader := ((IpHeader.new.setIhl 5).setProtocol 17).setLength len

/-- With a total length of 22 there is no room for the ports, and no flow. -/
theorem flow_rejects_twentytwo : letI := networkOrder
    (claiming 22).length = 22 ∧ (claiming 22).ihl = 5 ∧ (claiming 22).flow [] = .ok none := by
  let _ := networkOrder
  refine ⟨by decide, by decide, ?_⟩
  exact ((flow_rejects_iff (claiming 22) []).2 (by decide)).mpr (by decide)

/-- With a total length of 10 the subtraction overflows. Where overflow is not checked the
difference is large enough to go on and read the ports. -/
theorem flow_overflows : letI := networkOrder
    (claiming 10).flow ((claiming 10).bytes ++ [0, 7, 0, 9]) = .panic .overflow ∧
      4 ≤ wrappingSub 64 (claiming 10).length.toNat (claiming 10).offset := by
  let _ := networkOrder
  exact ⟨flow_of_lt (Or.inr (by decide)) (by decide) _, by decide⟩

end IpHeader

end NetBricks.Headers
