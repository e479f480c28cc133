import NetBricks.Lib.OnesComplement
import NetBricks.Lib.Scatter
import NetBricks.Utils.FlowBytes

/-!
# Writing a flow into a packet

`Flow::ipv4_stamp_flow` of `src/framework/src/utils/flow.rs`, the inverse of
`ipv4_extract_flow`: a NAT rewrites addresses and ports with it. Both find the ports by the
header length in the packet, which stamping leaves alone.

The writes of a stamp are apart from each other as long as the header has its twenty bytes
(`flowWrites_noOverlap`), so that each of them is there in the end. From that:

* extracting gives the stamped flow back, with the protocol of the packet
  (`extract_stamp`);
* nothing but the checksum, the addresses and the ports changes (`getElem?_stamp`);
* stamping the packet's own flow writes what is there already (`stamp_own`).

The checksum is computed by DPDK. What is said here holds for any function in its place.

Mirroring notes:

* `BigEndian::write_u16` writes into a slice of the packet; `writeU16At` is given the packet
  and the bounds of the slice and returns the packet.
* `ipcsum` is given the address of the packet and reads the header behind it.
-/

namespace NetBricks.Utils

open Lib
open Lib.Outcome
open BigEndian

/-! ## The writes of a stamp -/

/-- Addresses and ports, with the ports from `start` on. -/
def Flow.flowWrites (f : Flow) (start : Nat) : List (Nat × List UInt8) :=
  [(12, beBytes f.srcIp), (16, beBytes f.dstIp), (start, beBytes16 f.srcPort),
    (start + 2, beBytes16 f.dstPort)]

/-- The packet over which the checksum is computed: its own checksum is 0. -/
def Flow.unsummed (f : Flow) (bytes : List UInt8) : List UInt8 :=
  overwrite (scatter bytes (f.flowWrites (portStart bytes))) 10 (beBytes16 0)

theorem length_slice {bytes : List UInt8} {i j n : Nat} (hj : j = i + n) (h : j ≤ bytes.length) :
    ((bytes.drop i).take (j - i)).length = n := by
  rw [hj, Nat.add_sub_cancel_left]
  exact length_take_drop (by omega)

section Writes

variable {bytes : List UInt8} {f : Flow}

theorem forall_mem_flowWrites {start : Nat} {P : Nat × List UInt8 → Prop} :
    (∀ w ∈ f.flowWrites start, P w) ↔
      P (12, beBytes f.srcIp) ∧ P (16, beBytes f.dstIp) ∧ P (start, beBytes16 f.srcPort) ∧
        P (start + 2, beBytes16 f.dstPort) := by
  simp [Flow.flowWrites]

theorem flowWrites_inBuffer {start : Nat} (h20 : 20 ≤ bytes.length)
    (hstart : start + 4 ≤ bytes.length) : ∀ w ∈ f.flowWrites start, InBuffer bytes w := by
  simp only [forall_mem_flowWrites, InBuffer, length_beBytes, length_beBytes16]
  omega

theorem flowWrites_noOverlap {start : Nat} (hstart : 20 ≤ start) :
    (f.flowWrites start).Pairwise NoOverlap := by
  simp only [Flow.flowWrites, List.pairwise_cons, List.forall_mem_cons, List.not_mem_nil,
    false_imp_iff, implies_true, and_true, List.Pairwise.nil, NoOverlap,
    length_beBytes, length_beBytes16]
  omega

theorem length_unsummed (h : HoldsPorts bytes) : (f.unsummed bytes).length = bytes.length := by
  have hlen := length_scatter (flowWrites_inBuffer (f := f) h.1 h.2)
  have h20 := h.1
  rw [Flow.unsummed, length_overwrite, hlen]
  rw [hlen, length_beBytes16]
  omega

end Writes

/-! ## The stamp -/

section Stamp

variable [BigEndian]

/-- `BigEndian::write_u16(&mut bytes[i..j], n)`. -/
def writeU16At (bytes : List UInt8) (i j : Nat) (n : UInt16) : Outcome (List UInt8) := do
  let buf ← sliceRange bytes i j
  let buf ← writeU16 buf n
  .ok (overwrite bytes i buf)

/-- `BigEndian::write_u32(&mut bytes[i..j], n)`. -/
def writeU32At (bytes : List UInt8) (i j : Nat) (n : UInt32) : Outcome (List UInt8) := do
  let buf ← sliceRange bytes i j
  let buf ← writeU32 buf n
  .ok (overwrite bytes i buf)

variable (ipcsum : List UInt8 → UInt16)

/-- `ipv4_stamp_flow`. -/
def Flow.ipv4StampFlow (f : Flow) (bytes : List UInt8) : Outcome (List UInt8) := do
  let first ← index bytes 0
  let portStart := (first &&& 0xf).toNat * ihlToByteFactor
  let bytes ← writeU32At bytes 12 16 f.srcIp
  let bytes ← writeU32At bytes 16 20 f.dstIp
  let bytes ← writeU16At bytes portStart (portStart + 2) f.srcPort
  let bytes ← writeU16At bytes (portStart + 2) (portStart + 4) f.dstPort
  let bytes ← writeU16At bytes 10 12 0
  let csum := ipcsum bytes
  writeU16At bytes 10 12 csum

theorem writeU16At_of_le {bytes : List UInt8} {i j : Nat} (hj : j = i + 2) (h : j ≤ bytes.length)
    (n : UInt16) : writeU16At bytes i j n = .ok (overwrite bytes i (beBytes16 n)) ∧
      (overwrite bytes i (beBytes16 n)).length = bytes.length := by
  refine ⟨?_, length_overwrite (by rw [length_beBytes16]; omega)⟩
  rw [writeU16At, sliceRange_of_le (by omega) h, bind_ok, writeU16_of_length (length_slice hj h),
    bind_ok]

theorem writeU32At_of_le {bytes : List UInt8} {i j : Nat} (hj : j = i + 4) (h : j ≤ bytes.length)
    (n : UInt32) : writeU32At bytes i j n = .ok (overwrite bytes i (beBytes n)) ∧
      (overwrite bytes i (beBytes n)).length = bytes.length := by
  refine ⟨?_, length_overwrite (by rw [length_beBytes]; omega)⟩
  rw [writeU32At, sliceRange_of_le (by omega) h, bind_ok, writeU32_of_length (length_slice hj h),
    bind_ok]

variable {ipcsum} {bytes : List UInt8} {f : Flow}

theorem stamp_eq (h : HoldsPorts bytes) :
    f.ipv4StampFlow ipcsum bytes =
      .ok (overwrite (f.unsummed bytes) 10 (beBytes16 (ipcsum (f.unsummed bytes)))) := by
  obtain ⟨h20, hports⟩ := h
  have hfirst : bytes[0]? = some bytes[0] := List.getElem?_eq_getElem (by omega)
  obtain ⟨hsrc, hlen₁⟩ := writeU32At_of_le (i := 12) rfl (show 16 ≤ bytes.length by omega) f.srcIp
  obtain ⟨hdst, hlen₂⟩ := writeU32At_of_le (i := 16) rfl (show 20 ≤ _ by rw [hlen₁]; omega) f.dstIp
  obtain ⟨hsport, hlen₃⟩ := writeU16At_of_le rfl
    (show portStart bytes + 2 ≤ _ by rw [hlen₂, hlen₁]; omega) f.srcPort
  obtain ⟨hdport, hlen₄⟩ := writeU16At_of_le (i := portStart bytes + 2) rfl
    (show portStart bytes + 4 ≤ _ by rw [hlen₃, hlen₂, hlen₁]; omega) f.dstPort
  obtain ⟨hzero, hlen₅⟩ := writeU16At_of_le (i := 10) rfl
    (show 12 ≤ _ by rw [hlen₄, hlen₃, hlen₂, hlen₁]; omega) 0
  obtain ⟨hsum, -⟩ := writeU16At_of_le (i := 10) rfl
    (show 12 ≤ _ by rw [hlen₅, hlen₄, hlen₃, hlen₂, hlen₁]; omega) (ipcsum (f.unsummed bytes))
  unfold Flow.ipv4StampFlow
  rw [index_of_some hfirst, bind_ok, portStart_eq hfirst, hsrc, bind_ok, hdst, bind_ok, hsport,
    bind_ok, hdport, bind_ok, hzero, bind_ok]
  exact hsum

/-! ## What a reader of the stamped packet sees -/

section Reader

variable {stamped : List UInt8} (h : HoldsPorts bytes)
  (hstamp : f.ipv4StampFlow ipcsum bytes = .ok stamped)

include h hstamp

theorem length_stamp : stamped.length = bytes.length := by
  have h20 := h.1
  have hlen := length_unsummed (f := f) h
  rw [stamp_eq h] at hstamp
  rw [← Outcome.ok.inj hstamp, length_overwrite, hlen]
  rw [hlen, length_beBytes16]
  omega

/-- A range that does not meet the checksum is read as the writes of the flow left it. -/
theorem take_drop_stamp {o n : Nat} (ho : o + n ≤ 10 ∨ 12 ≤ o) :
    (stamped.drop o).take n = ((scatter bytes (f.flowWrites (portStart bytes))).drop o).take n := by
  have h20 := h.1
  have hlen := length_unsummed (f := f) h
  have hlen' := length_scatter (flowWrites_inBuffer (f := f) h.1 h.2)
  rw [stamp_eq h] at hstamp
  rw [← Outcome.ok.inj hstamp, take_drop_overwrite_of_disjoint _ ho, Flow.unsummed,
    take_drop_overwrite_of_disjoint _ ho]
  · rw [hlen', length_beBytes16]
    omega
  · rw [hlen, length_beBytes16]
    omega

/-- Bytes outside of the checksum are as the writes of the flow left them. -/
theorem getElem?_stamp_eq {i : Nat} (hi : i < 10 ∨ 12 ≤ i) :
    stamped[i]? = (scatter bytes (f.flowWrites (portStart bytes)))[i]? := by
  have hrange := take_drop_stamp h hstamp (o := i) (n := 1) (by omega)
  have hat := congrArg (·[0]?) hrange
  simpa using hat

/-- Bytes outside of checksum, addresses and ports stay. -/
theorem getElem?_stamp {i : Nat} (hi : i < 10 ∨ 20 ≤ i)
    (hport : i < portStart bytes ∨ portStart bytes + 4 ≤ i) : stamped[i]? = bytes[i]? := by
  rw [getElem?_stamp_eq h hstamp (by omega)]
  apply getElem?_scatter (flowWrites_inBuffer h.1 h.2)
  simp only [forall_mem_flowWrites, length_beBytes, length_beBytes16]
  omega

/-- The ports are found where they were. -/
theorem portStart_stamp (hmin : 20 ≤ portStart bytes) : portStart stamped = portStart bytes := by
  have hzero := getElem?_stamp h hstamp (i := 0) (by omega) (by omega)
  rw [portStart, portStart, ihl, ihl, List.getD_eq_getElem?_getD, List.getD_eq_getElem?_getD, hzero]

/-- Extracting gives the stamped flow back, with the protocol of the packet. -/
theorem extract_stamp (hmin : 20 ≤ portStart bytes) {proto : UInt8}
    (hproto : bytes[9]? = some proto) :
    ipv4ExtractFlow stamped = .ok (some { f with proto := proto }) := by
  have hstart := portStart_stamp h hstamp hmin
  have hin := flowWrites_inBuffer (f := f) h.1 h.2
  have hbehind : ∀ w ∈ f.flowWrites (portStart bytes), 12 ≤ w.1 := by
    rw [forall_mem_flowWrites]
    dsimp only
    omega
  have hread : ∀ w ∈ f.flowWrites (portStart bytes),
      (stamped.drop w.1).take w.2.length = w.2 := fun w hw => by
    rw [take_drop_stamp h hstamp (Or.inr (hbehind w hw))]
    exact take_drop_scatter hin (flowWrites_noOverlap hmin) hw
  simp only [forall_mem_flowWrites, length_beBytes, length_beBytes16] at hread
  obtain ⟨hsrc, hdst, hsport, hdport⟩ := hread
  have hholds : HoldsPorts stamped := by
    rw [HoldsPorts, hstart, length_stamp h hstamp]
    exact h
  have hproto' : stamped[9]? = some proto := by
    rw [getElem?_stamp h hstamp (by omega) (by omega), hproto]
  rw [ipv4ExtractFlow_eq hproto' hholds, hstart, hsrc, hdst, hsport, hdport, ofNat_beNat_beBytes,
    ofNat_beNat_beBytes, ofNat_beNat_beBytes16, ofNat_beNat_beBytes16]

end Reader

/-- Stamping the packet's own flow writes what is there already. -/
theorem stamp_own {own : List UInt8} (h : HoldsPorts bytes)
    (hextract : ipv4ExtractFlow bytes = .ok (some f))
    (hstamp : f.ipv4StampFlow ipcsum bytes = .ok own) {i : Nat} (hi : i < 10 ∨ 12 ≤ i) :
    own[i]? = bytes[i]? := by
  have h20 := h.1
  have hports := h.2
  rw [ipv4ExtractFlow_eq (List.getElem?_eq_getElem (show 9 < bytes.length by omega)) h] at hextract
  have hsame : scatter bytes (f.flowWrites (portStart bytes)) = bytes := by
    apply scatter_self (flowWrites_inBuffer h.1 h.2)
    rw [← Option.some.inj (Outcome.ok.inj hextract)]
    simp only [forall_mem_flowWrites, length_beBytes, length_beBytes16]
    exact ⟨beBytes_ofNat_beNat (length_take_drop (by omega)),
      beBytes_ofNat_beNat (length_take_drop (by omega)),
      beBytes16_ofNat_beNat (length_take_drop (by omega)),
      beBytes16_ofNat_beNat (length_take_drop (by omega))⟩
  rw [getElem?_stamp_eq h hstamp hi, hsame]

/-- **Stamping and extracting.** For a packet whose header has its twenty bytes or more and
whose ports are there, and for every flow: extracting from the stamped packet gives the flow
with the protocol of the packet, only the checksum, the addresses and the ports change, and
when the flow is the packet's own only the checksum does. -/
theorem stamp_extract (ipcsum : List UInt8 → UInt16) {bytes : List UInt8} (hihl : 5 ≤ ihl bytes)
    (hlen : ihl bytes * 4 + 4 ≤ bytes.length) (f : Flow) :
    (∃ stamped proto, f.ipv4StampFlow ipcsum bytes = .ok stamped ∧ bytes[9]? = some proto ∧
      ipv4ExtractFlow stamped = .ok (some { f with proto := proto }) ∧
      stamped.length = bytes.length ∧
      ∀ i, (i < 10 ∨ 20 ≤ i) → (i < ihl bytes * 4 ∨ ihl bytes * 4 + 4 ≤ i) →
        stamped[i]? = bytes[i]?) ∧
    ∃ flow own, ipv4ExtractFlow bytes = .ok (some flow) ∧
      flow.ipv4StampFlow ipcsum bytes = .ok own ∧ own.length = bytes.length ∧
      ∀ i, (i < 10 ∨ 12 ≤ i) → own[i]? = bytes[i]? := by
  have h : HoldsPorts bytes := ⟨by omega, hlen⟩
  have hmin : 20 ≤ portStart bytes := Nat.mul_le_mul_right 4 hihl
  have hstamp (g : Flow) := @stamp_eq _ ipcsum bytes g h
  obtain ⟨flow, hflow⟩ := extract_of_holdsPorts h
  have hproto := List.getElem?_eq_getElem (show 9 < bytes.length by omega)
  refine ⟨⟨_, _, hstamp f, hproto, extract_stamp h (hstamp f) hmin hproto,
    length_stamp h (hstamp f), fun i hi hport => getElem?_stamp h (hstamp f) hi hport⟩, ?_⟩
  exact ⟨flow, _, hflow, hstamp flow, length_stamp h (hstamp flow),
    fun i hi => stamp_own h hflow (hstamp flow) hi⟩

end Stamp

/-- A UDP packet from 10.0.0.1, port 7, to 10.0.0.2, port 9, with its checksum missing. -/
def natPacket : List UInt8 :=
  [0x45, 0, 0, 24, 0, 0, 0, 0, 64, 17, 0, 0, 10, 0, 0, 1, 10, 0, 0, 2, 0, 7, 0, 9]

/-- The flow that a NAT gives it. -/
def natFlow : Flow :=
  { srcIp := 0x01020304, dstIp := 0x0a000002, srcPort := 1024, dstPort := 9, proto := 0 }

/-- The complement of the sum of the header's words with the carry folded in, for runs on given
packets. -/
def complementSum (payload : List UInt8) : UInt16 :=
  ~~~(UInt16.ofNat (foldCarry (leWords (payload.take 20)).sum))

/-- The packet gets the new flow and a checksum, and keeps its protocol and its length. -/
theorem stamp_extract_nat : letI := networkOrder
    ∃ stamped, natFlow.ipv4StampFlow complementSum natPacket = .ok stamped ∧
      ipv4ExtractFlow stamped = .ok (some { natFlow with proto := 17 }) ∧
      stamped[3]? = some 24 := by
  let _ := networkOrder
  obtain ⟨⟨stamped, proto, hstamp, hproto, hextract, -, helse⟩, -⟩ :=
    stamp_extract complementSum (show 5 ≤ ihl natPacket by decide)
      (show ihl natPacket * 4 + 4 ≤ natPacket.length by decide) natFlow
  have h17 : proto = 17 := (Option.some.inj hproto).symm
  rw [h17] at hextract
  exact ⟨stamped, hstamp, hextract, helse 3 (Or.inl (by decide)) (Or.inl (by decide))⟩

end NetBricks.Utils
