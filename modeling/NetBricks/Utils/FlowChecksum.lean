import NetBricks.Lib.OnesComplement
import NetBricks.Utils.FlowStamp

/-!
# The checksum of a stamped packet

`ipv4_stamp_flow` of `src/framework/src/utils/flow.rs` computes the header checksum with
`ipv4_cksum` of `src/native/utils.c`, which is DPDK's `rte_ipv4_cksum`. That sums the words
of the header as the machine loads them and returns a value to be stored the way it was
loaded, low byte first. `ipv4_stamp_flow` stores it with `BigEndian::write_u16`, high byte
first. So the two bytes of the checksum are exchanged, and the packet is valid only where
they are equal. They are exactly when the other words of the header add up to a multiple of
257 (`stamp_checksum_iff`).

Mirroring notes:

* `rte_ipv4_cksum` is not in the repository. It is a parameter, and `NativeChecksum` is what
  is assumed of it.
-/

namespace NetBricks.Utils

open Lib
open Lib.Outcome

/-- What is assumed of `rte_ipv4_cksum` on a little-endian machine: the complement of the sum of
the ten words of the header, each as the machine loads it, with the carry folded in. -/
def NativeChecksum (ipcsum : List UInt8 → UInt16) : Prop :=
  ∀ payload, 20 ≤ payload.length →
    ipcsum payload = ~~~(UInt16.ofNat (foldCarry (leWords (payload.take 20)).sum))

/-- The checksum and the folded sum of the words are complements. -/
theorem NativeChecksum.toNat_add {ipcsum : List UInt8 → UInt16} (h : NativeChecksum ipcsum)
    {payload : List UInt8} (h20 : 20 ≤ payload.length) :
    (ipcsum payload).toNat + foldCarry (leWords (payload.take 20)).sum = 65535 := by
  have hbound := sum_leWords_le (payload.take 20)
  have hlen := List.length_take_le 20 payload
  have hle := (foldCarry_spec (show (leWords (payload.take 20)).sum < 2 ^ 32 by omega)).1
  rw [h payload h20, UInt16.toNat_not, UInt16.toNat_ofNat',
    Nat.mod_eq_of_lt (show foldCarry (leWords (payload.take 20)).sum < 2 ^ 16 by omega)]
  have hsize : UInt16.size = 65536 := rfl
  omega

/-- An address on the wire is as good as the address itself, modulo 257. -/
theorem sum_beWords_beBytes (x : UInt32) : (beWords (beBytes x)).sum % 257 = x.toNat % 257 := by
  obtain ⟨a, b, c, d, hbytes⟩ := List.length_eq_four.mp (length_beBytes x)
  have hnat := congrArg UInt32.toNat (ofNat_beNat_beBytes x)
  rw [UInt32.toNat_ofNat', hbytes, beNat_four, Nat.mod_eq_of_lt (word_lt d c b a)] at hnat
  rw [hbytes, sum_beWords_four, beNat_four, hnat]

/-- A half-word on the wire, by its two bytes. -/
theorem beBytes16_eq (x : UInt16) :
    ∃ hi lo, beBytes16 x = [hi, lo] ∧ 256 * hi.toNat + lo.toNat = x.toNat := by
  have hx := x.toNat_lt
  refine ⟨(x >>> 8).toUInt8, x.toUInt8, rfl, ?_⟩
  simp only [UInt16.toNat_toUInt8, UInt16.toNat_shiftRight, UInt16.toNat_ofNat,
    Nat.shiftRight_eq_div_pow, Nat.reducePow, Nat.reduceMod]
  omega

/-- The header of a packet with a checksum written into it. -/
theorem take_overwrite_checksum {bytes : List UInt8} (h : 20 ≤ bytes.length) (hi lo : UInt8) :
    (overwrite bytes 10 [hi, lo]).take 20 =
      bytes.take 10 ++ ([hi, lo] ++ (bytes.drop 12).take 8) := by
  have hlen : (bytes.take 10).length = 10 := by
    rw [List.length_take]
    omega
  rw [overwrite, List.take_append, hlen, List.take_take, List.take_append]
  rfl

/-- What the header of a packet is after the addresses of a flow have been written. -/
theorem written_header {bytes : List UInt8} (h : HoldsPorts bytes) (hmin : 20 ≤ portStart bytes)
    (f : Flow) :
    (scatter bytes (f.flowWrites (portStart bytes))).take 10 = bytes.take 10 ∧
      ((scatter bytes (f.flowWrites (portStart bytes))).drop 12).take 8 =
        beBytes f.srcIp ++ beBytes f.dstIp := by
  have hin := flowWrites_inBuffer (f := f) h.1 h.2
  have hat := flowWrites_noOverlap (f := f) hmin
  constructor
  · apply List.ext_getElem?
    intro i
    rw [List.getElem?_take, List.getElem?_take]
    by_cases hi : i < 10
    · rw [if_pos hi, if_pos hi]
      apply getElem?_scatter hin
      simp only [forall_mem_flowWrites, length_beBytes, length_beBytes16]
      omega
    · rw [if_neg hi, if_neg hi]
  · have hsrc := take_drop_scatter hin hat (w := (12, beBytes f.srcIp)) (by simp [Flow.flowWrites])
    have hdst := take_drop_scatter hin hat (w := (16, beBytes f.dstIp)) (by simp [Flow.flowWrites])
    simp only [length_beBytes] at hsrc hdst
    rw [← hsrc, ← hdst, show (8 : Nat) = 4 + 4 from rfl, List.take_add, List.drop_drop]

/-- **The checksum of a stamped packet.** For a packet with a header of twenty bytes and its
ports, and every flow: the one's-complement sum of the ten words of the stamped header is
`0xffff` exactly when the first five words of the packet and the two addresses of the flow add
up to a multiple of 257. -/
theorem stamp_checksum_iff [BigEndian] {ipcsum : List UInt8 → UInt16}
    (hcsum : NativeChecksum ipcsum) {bytes : List UInt8} (hihl : ihl bytes = 5)
    (hlen : 24 ≤ bytes.length) (f : Flow) :
    ∃ stamped, f.ipv4StampFlow ipcsum bytes = .ok stamped ∧
      (onesSum (beWords (stamped.take 20)) = 0xffff ↔
        257 ∣ (beWords (bytes.take 10)).sum + (f.srcIp.toNat + f.dstIp.toNat)) := by
  have hstart : portStart bytes = 20 := by rw [portStart, hihl]
  have h : HoldsPorts bytes := ⟨by omega, by rw [hstart]; exact hlen⟩
  refine ⟨_, stamp_eq h, ?_⟩
  -- the packet with its flow written, before anything is done about the checksum
  have hwritten := length_scatter (flowWrites_inBuffer (f := f) h.1 h.2)
  obtain ⟨hfront, hback⟩ := written_header h hstart.ge f
  rw [Flow.unsummed]
  generalize scatter bytes (f.flowWrites (portStart bytes)) = written at hwritten hfront hback ⊢
  have hin : 10 + [(0 : UInt8), 0].length ≤ written.length := by
    show 10 + 2 ≤ written.length
    omega
  obtain ⟨hi, lo, hpair, hnat⟩ := beBytes16_eq (ipcsum (overwrite written 10 [0, 0]))
  have hzero : beBytes16 0 = [0, 0] := by decide
  have h20 : 20 ≤ (overwrite written 10 [0, 0]).length := by
    rw [length_overwrite hin]
    omega
  have hsum := hcsum.toNat_add h20
  rw [← hnat, take_overwrite_checksum (by omega), hfront, hback] at hsum
  rw [hzero, hpair, overwrite_overwrite hin (show [hi, lo].length = 2 from rfl),
    take_overwrite_checksum (by omega), hfront, hback]
  have heven : (bytes.take 10).length % 2 = 0 := by
    rw [List.length_take]
    omega
  have hsmall : (bytes.take 10 ++ ([0, 0] ++ (beBytes f.srcIp ++ beBytes f.dstIp))).length <
      65536 := by
    simp only [List.length_append, List.length_take, length_beBytes, List.length_cons,
      List.length_nil]
    omega
  rw [onesSum_swapped_iff heven hsmall hsum, sum_beWords_append (by rw [length_beBytes])]
  have hsrc := sum_beWords_beBytes f.srcIp
  have hdst := sum_beWords_beBytes f.dstIp
  omega

/-- A packet whose checksum comes out as `0x6666`. -/
def evenPacket : List UInt8 :=
  [0x45, 0, 0, 24, 0, 0x6d, 0, 0, 64, 17, 0, 0, 10, 0, 0, 1, 10, 0, 0, 2, 0, 7, 0, 9]

/-- The flow of the two packets. -/
def wireFlow : Flow :=
  { srcIp := 0x0a000001, dstIp := 0x0a000002, srcPort := 7, dstPort := 9, proto := 17 }

/-- Its first five words and the two addresses add up to `257 * 1305753`. -/
theorem stamp_checksum_even : letI := networkOrder
    NativeChecksum complementSum ∧
      ∃ stamped, wireFlow.ipv4StampFlow complementSum evenPacket = .ok stamped ∧
        onesSum (beWords (stamped.take 20)) = 0xffff := by
  let _ := networkOrder
  have hcsum : NativeChecksum complementSum := fun _ _ => rfl
  obtain ⟨stamped, hstamp, hiff⟩ :=
    stamp_checksum_iff hcsum (show ihl evenPacket = 5 by decide) (by decide) wireFlow
  exact ⟨hcsum, stamped, hstamp, hiff.mpr (by decide)⟩

/-- The checksum of this packet is `0x66d3`, and `0xd366` is stored. -/
theorem stamp_checksum_swapped : letI := networkOrder
    NativeChecksum complementSum ∧
    wireFlow.ipv4StampFlow complementSum natPacket = .ok
      [0x45, 0, 0, 24, 0, 0, 0, 0, 64, 17, 0xd3, 0x66, 10, 0, 0, 1, 10, 0, 0, 2, 0, 7, 0, 9] ∧
    onesSum (beWords
      [0x45, 0, 0, 24, 0, 0, 0, 0, 64, 17, 0xd3, 0x66, 10, 0, 0, 1, 10, 0, 0, 2]) = 0x6c93 ∧
    onesSum (beWords
      [0x45, 0, 0, 24, 0, 0, 0, 0, 64, 17, 0x66, 0xd3, 10, 0, 0, 1, 10, 0, 0, 2]) = 0xffff := by
  refine ⟨fun _ _ => rfl, ?_⟩
  decide

end NetBricks.Utils
