import NetBricks.Headers.HeaderType
import NetBricks.Interface.Payload

/-!
# VLAN tags and where the next header starts

An Ethernet frame with a VLAN tag has four more bytes in front of the next header, and one
with two tags has eight. `MacHeader::offset` of `src/framework/src/headers/mac.rs` looks at
the ethertype for that, `vlanSize` says what it should come to.

The ethertype is in the order of the wire in memory. `etype` and `set_etype` swap it, but
`offset` compares it as it is with constants in the order of the machine. So a tag is not
recognised on a little-endian machine, and two other ethertypes are taken for tags:
`next_header_iff` lists the four.
-/

namespace NetBricks.Headers

open Lib
open Lib.Outcome
open Interface

/-- How many bytes there are in front of the next header, by the ethertype. -/
def vlanSize (etype : UInt16) : Nat :=
  if etype = 0x8100 then 18 else if etype = 0x9100 then 22 else 14

/-- The ethertype of a frame on the wire. -/
def wireEtype (frame : List UInt8) : UInt16 := .ofNat (beNat ((frame.drop 12).take 2))

/-- The ethertypes of the tags, and those that have the bytes of a tag the other way
around. -/
def TagOrSwappedTag (etype : UInt16) : Prop :=
  etype = 0x8100 ∨ etype = 0x9100 ∨ etype = 0x0081 ∨ etype = 0x0091

instance (etype : UInt16) : Decidable (TagOrSwappedTag etype) :=
  inferInstanceAs (Decidable (_ ∨ _))

theorem vlanSize_le (etype : UInt16) : vlanSize etype ≤ 22 := by
  unfold vlanSize
  split
  · decide
  · split <;> decide

/-- `offset` goes by the ethertype as it lies in memory. -/
theorem MacHeader.offset_eq (h : MacHeader) : h.offset = vlanSize h.etype := rfl

theorem swap16_eq_iff (x y : UInt16) : swap16 x = y ↔ x = swap16 y := by
  constructor
  · intro h
    rw [← h, swap16_swap16]
  · intro h
    rw [h, swap16_swap16]

/-- An ethertype that leads to the same place read the other way around. -/
theorem vlanSize_swap16_iff (etype : UInt16) :
    vlanSize (swap16 etype) = vlanSize etype ↔ ¬ TagOrSwappedTag etype := by
  have hq : swap16 etype = 0x8100 ↔ etype = 0x0081 := swap16_eq_iff etype 0x8100
  have had : swap16 etype = 0x9100 ↔ etype = 0x0091 := swap16_eq_iff etype 0x9100
  unfold vlanSize TagOrSwappedTag
  simp only [hq, had]
  by_cases h₁ : etype = 0x8100
  · simp [h₁]
  by_cases h₂ : etype = 0x9100
  · simp [h₂]
  by_cases h₃ : etype = 0x0081
  · simp [h₃]
  by_cases h₄ : etype = 0x0091
  · simp [h₄]
  · simp [h₁, h₂, h₃, h₄]

/-- The ethertype in memory is the one on the wire, with its bytes swapped. -/
theorem swap16_wireEtype {m : MBuf} (hlen : 14 ≤ m.dataLen) (hm : m.Inside) :
    leHalfAt (m.buf.drop m.dataOff) 12 = swap16 (wireEtype m.frame) := by
  have htake : leHalfAt m.frame 12 = leHalfAt (m.buf.drop m.dataOff) 12 := leHalfAt_take hlen
  have hin : 12 + 2 ≤ m.frame.length := by
    rw [MBuf.length_frame hm]
    exact hlen
  rw [wireEtype, ← leBytes16_leHalfAt hin, beNat_leBytes16, UInt16.ofNat_toNat,
    swap16_swap16, htake]

/-- Parsing the MAC header of a frame. -/
theorem parse_mac {m : MBuf} (hm : m.Inside) (hlen : 14 < m.dataLen) (mbuf : Ptr) :
    (Packet.fromMbuf mbuf).parseHeader macHeader.endOffset m =
        .ok { mbuf := mbuf, header := macHeader.endOffset, offset := 0 } ∧
      ({ mbuf := mbuf, header := macHeader.endOffset, offset := 0 } : Packet).payloadOffset m =
        vlanSize (swap16 (wireEtype m.frame)) := by
  constructor
  · have hsize : (Packet.fromMbuf mbuf).payloadSize m = .ok m.dataLen :=
      Packet.payloadSize_eq_ok.mpr ⟨Nat.zero_le _, rfl⟩
    have hcheck : m.dataLen > macHeader.endOffset.size := hlen
    rw [Packet.parseHeader, hsize, bind_ok, check_true hcheck, bind_ok]
    rfl
  · rw [← swap16_wireEtype (Nat.le_of_lt hlen) hm]
    rfl

/-- **Where the next header starts.** For every frame with room for two tags and the next
header: that header is parsed behind the tags that the ethertype of the frame stands for,
exactly when the ethertype is neither a tag nor a tag with its bytes swapped. The same goes
for `offset` and `etype` after `set_etype`. -/
theorem next_header_iff {m : MBuf} (hm : m.Inside) {next : EndOffset}
    (hlen : 22 + next.size < m.dataLen) (mbuf : Ptr) (h : MacHeader) (etype : UInt16) :
    (∃ p q, (Packet.fromMbuf mbuf).parseHeader macHeader.endOffset m = .ok p ∧
      p.parseHeader next m = .ok q ∧
      (q.offset = vlanSize (wireEtype m.frame) ↔ ¬ TagOrSwappedTag (wireEtype m.frame))) ∧
    (h.setEtype etype).getEtype = etype ∧
    ((h.setEtype etype).offset = vlanSize (h.setEtype etype).getEtype ↔
      ¬ TagOrSwappedTag etype) := by
  have hget : (h.setEtype etype).getEtype = etype := swap16_swap16 etype
  refine ⟨?_, hget, ?_⟩
  · obtain ⟨hparse, hoffset⟩ := parse_mac hm (show 14 < m.dataLen by omega) mbuf
    have hle := vlanSize_le (swap16 (wireEtype m.frame))
    have hsize :
        ({ mbuf := mbuf, header := macHeader.endOffset, offset := 0 } : Packet).payloadSize m =
        .ok (m.dataLen - vlanSize (swap16 (wireEtype m.frame))) := by
      rw [Packet.payloadSize_eq_ok, Packet.payloadStart, hoffset]
      dsimp only
      omega
    refine ⟨_, { mbuf := mbuf, header := next, offset := vlanSize (swap16 (wireEtype m.frame)) },
      hparse, ?_, vlanSize_swap16_iff _⟩
    rw [Packet.parseHeader, hsize, bind_ok, check_true (by omega), bind_ok, hoffset, Nat.zero_add]
  · rw [hget, MacHeader.offset_eq]
    exact vlanSize_swap16_iff etype

/-- A frame of 64 bytes with this ethertype. -/
def etherFrame (hi lo : UInt8) : MBuf :=
  { bufAddr := 4096, buf := .replicate 12 0 ++ ([hi, lo] ++ .replicate 50 0), dataOff := 0
    dataLen := 64, slots := .replicate 128 0 }

/-- An IPv4 frame without a tag: the IP header is at byte 14. -/
theorem next_header_untagged : ∃ p q,
    (Packet.fromMbuf 7).parseHeader macHeader.endOffset (etherFrame 0x08 0x00) = .ok p ∧
      p.parseHeader ipHeader.endOffset (etherFrame 0x08 0x00) = .ok q ∧ q.offset = 14 := by
  have hwire : wireEtype (etherFrame 0x08 0x00).frame = 0x0800 := by decide
  obtain ⟨⟨p, q, hp, hq, hiff⟩, -⟩ := next_header_iff
    (show (etherFrame 0x08 0x00).Inside from Nat.le_of_ble_eq_true rfl)
    (show 22 + ipHeader.endOffset.size < (etherFrame 0x08 0x00).dataLen by decide) 7 MacHeader.new 0
  rw [hwire] at hiff
  exact ⟨p, q, hp, hq, hiff.mpr (by decide)⟩

/-- A frame with the tag 81 00: the next header is looked for at byte 14, in the tag. -/
theorem next_header_in_tag : ∃ p q, wireEtype (etherFrame 0x81 0x00).frame = 0x8100 ∧
    (Packet.fromMbuf 7).parseHeader macHeader.endOffset (etherFrame 0x81 0x00) = .ok p ∧
      p.parseHeader ipHeader.endOffset (etherFrame 0x81 0x00) = .ok q ∧ q.offset = 14 := by
  exact ⟨_, _, by decide, rfl, rfl, rfl⟩

end NetBricks.Headers
