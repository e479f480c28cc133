import NetBricks.Lib.Fields
import NetBricks.Lib.Outcome
import NetBricks.Utils.Flow

/-!
# The flow of a packet, from its bytes

`ipv4_extract_flow` and `ipv4_flow_hash` of `src/framework/src/utils/flow.rs`. The first
is given the payload of the MAC header and reads the five-tuple off it with `BigEndian`,
behind as many words as the header says it has. It returns an `Option`, but never `None`:
what is not there is read all the same. So a payload either holds the header and the ports
(`HoldsPorts`), and both functions return, or they panic (`extract_total_iff`).

Mirroring notes:

* `BigEndian` is of the `byteorder` crate. Its functions are a parameter here, with what is
  used of them as fields: they are only ever given slices of two or four bytes.
* `FnvHasher` is of the `fnv` crate. It is a parameter too, of which nothing is assumed; it
  is given the bytes of the packed `Flow` as they lie in memory.
-/

namespace NetBricks.Utils

open Lib
open Lib.Outcome

/-! ## Where the ports are -/

/-- `IHL_TO_BYTE_FACTOR`. -/
def ihlToByteFactor : Nat := 4

/-- The length of the header in words, as its first byte says. -/
def ihl (bytes : List UInt8) : Nat := (bytes.getD 0 0).toNat % 16

/-- Where the header says that the ports are. -/
def portStart (bytes : List UInt8) : Nat := ihl bytes * 4

/-- The payload has a header of twenty bytes, and the ports where that says they are. -/
def HoldsPorts (bytes : List UInt8) : Prop :=
  20 ≤ bytes.length ∧ portStart bytes + 4 ≤ bytes.length

instance (bytes : List UInt8) : Decidable (HoldsPorts bytes) :=
  inferInstanceAs (Decidable (_ ∧ _))

/-- The start of the ports, as the code computes it. -/
theorem portStart_eq {bytes : List UInt8} {first : UInt8} (hfirst : bytes[0]? = some first) :
    (first &&& 0xf).toNat * ihlToByteFactor = portStart bytes := by
  rw [portStart, ihl, List.getD_eq_getElem?_getD, hfirst, UInt8.toNat_and,
    show (0xf : UInt8).toNat = 2 ^ 4 - 1 from rfl, Nat.and_two_pow_sub_one_eq_mod]
  rfl

theorem length_take_drop {bytes : List UInt8} {i n : Nat} (h : i + n ≤ bytes.length) :
    ((bytes.drop i).take n).length = n := by
  rw [List.length_take, List.length_drop]
  omega

/-! ## The functions -/

/-- `byteorder::BigEndian`: two readers, and two writers that return the new bytes of the slice
they are given. The fields about them say that they read and write a slice of just the right
length with the highest byte first. What they do with other slices is left open. -/
class BigEndian where
  readU16 : List UInt8 → Outcome UInt16
  readU32 : List UInt8 → Outcome UInt32
  writeU16 : List UInt8 → UInt16 → Outcome (List UInt8)
  writeU32 : List UInt8 → UInt32 → Outcome (List UInt8)
  readU16_of_length : ∀ {buf}, buf.length = 2 → readU16 buf = .ok (.ofNat (beNat buf))
  readU32_of_length : ∀ {buf}, buf.length = 4 → readU32 buf = .ok (.ofNat (beNat buf))
  writeU16_of_length : ∀ {buf}, buf.length = 2 → ∀ n, writeU16 buf n = .ok (beBytes16 n)
  writeU32_of_length : ∀ {buf}, buf.length = 4 → ∀ n, writeU32 buf n = .ok (beBytes n)

open BigEndian

/-- Functions that do so, for runs on given packets. They refuse a slice that is too short and
leave what is behind the number. -/
@[reducible] def networkOrder : BigEndian where
  readU16 buf := sliceTo buf 2 >>= fun buf => .ok (.ofNat (beNat buf))
  readU32 buf := sliceTo buf 4 >>= fun buf => .ok (.ofNat (beNat buf))
  writeU16 buf n := sliceTo buf 2 >>= fun _ => .ok (beBytes16 n ++ buf.drop 2)
  writeU32 buf n := sliceTo buf 4 >>= fun _ => .ok (beBytes n ++ buf.drop 4)
  readU16_of_length h := by
    rw [sliceTo_of_le h.ge, bind_ok, List.take_of_length_le h.le]
  readU32_of_length h := by
    rw [sliceTo_of_le h.ge, bind_ok, List.take_of_length_le h.le]
  writeU16_of_length h n := by
    rw [sliceTo_of_le h.ge, bind_ok, List.drop_of_length_le h.le, List.append_nil]
  writeU32_of_length h n := by
    rw [sliceTo_of_le h.ge, bind_ok, List.drop_of_length_le h.le, List.append_nil]

section Extract

variable [BigEndian]

/-- `ipv4_extract_flow`. -/
def ipv4ExtractFlow (bytes : List UInt8) : Outcome (Option Flow) := do
  let first ← index bytes 0
  let portStart := (first &&& 0xf).toNat * ihlToByteFactor
  let proto ← index bytes 9
  let srcIp ← readU32 (← sliceRange bytes 12 16)
  let dstIp ← readU32 (← sliceRange bytes 16 20)
  let srcPort ← readU16 (← sliceRange bytes portStart (portStart + 2))
  let dstPort ← readU16 (← sliceRange bytes (portStart + 2) (portStart + 4))
  .ok (some { proto := proto, srcIp := srcIp, dstIp := dstIp, srcPort := srcPort,
              dstPort := dstPort })

/-- `flow_as_u8`. -/
def flowAsU8 (flow : Flow) : List UInt8 :=
  leBytes flow.srcIp ++ (leBytes flow.dstIp ++ (leBytes16 flow.srcPort ++
    (leBytes16 flow.dstPort ++ [flow.proto])))

/-- `flow_hash`, with what a new `FnvHasher` makes of the bytes written to it. -/
def flowHash (fnv : List UInt8 → UInt64) (flow : Flow) : Nat := (fnv (flowAsU8 flow)).toNat

/-- `ipv4_flow_hash`. -/
def ipv4FlowHash (fnv : List UInt8 → UInt64) (bytes : List UInt8) (_iv : UInt32) :
    Outcome Nat := do
  match ← ipv4ExtractFlow bytes with
  | some flow => .ok (flowHash fnv flow)
  | none => .ok 0

/-! ## Packets that hold a flow -/

/-- The flow of a packet whose ports are there. -/
theorem ipv4ExtractFlow_eq {bytes : List UInt8} {proto : UInt8} (hproto : bytes[9]? = some proto)
    (h : HoldsPorts bytes) :
    ipv4ExtractFlow bytes = .ok (some
      { proto := proto
        srcIp := .ofNat (beNat ((bytes.drop 12).take 4))
        dstIp := .ofNat (beNat ((bytes.drop 16).take 4))
        srcPort := .ofNat (beNat ((bytes.drop (portStart bytes)).take 2))
        dstPort := .ofNat (beNat ((bytes.drop (portStart bytes + 2)).take 2)) }) := by
  obtain ⟨hmin, hlen⟩ := h
  have hfirst : bytes[0]? = some bytes[0] := List.getElem?_eq_getElem (by omega)
  unfold ipv4ExtractFlow
  rw [index_of_some hfirst, bind_ok, portStart_eq hfirst, index_of_some hproto, bind_ok,
    sliceRange_of_le (by omega) (by omega), bind_ok,
    readU32_of_length (length_take_drop (by omega)), bind_ok,
    sliceRange_of_le (by omega) (by omega), bind_ok,
    readU32_of_length (length_take_drop (by omega)), bind_ok,
    sliceRange_of_le (by omega) (by omega), bind_ok, Nat.add_sub_cancel_left,
    readU16_of_length (length_take_drop (by omega)), bind_ok,
    sliceRange_of_le (by omega) (by omega), bind_ok,
    show portStart bytes + 4 - (portStart bytes + 2) = 2 by omega,
    readU16_of_length (length_take_drop (by omega)), bind_ok]

/-- The function returns for no other packet. -/
theorem holdsPorts_of_extract {bytes : List UInt8} {r : Option Flow}
    (h : ipv4ExtractFlow bytes = .ok r) : HoldsPorts bytes := by
  unfold ipv4ExtractFlow at h
  obtain ⟨first, hindex, h⟩ := bind_eq_ok.mp h
  have hfirst := index_eq_ok.mp hindex
  rw [portStart_eq hfirst] at h
  obtain ⟨proto, -, h⟩ := bind_eq_ok.mp h
  obtain ⟨src, -, h⟩ := bind_eq_ok.mp h
  obtain ⟨srcIp, -, h⟩ := bind_eq_ok.mp h
  obtain ⟨dst, hdst, h⟩ := bind_eq_ok.mp h
  obtain ⟨dstIp, -, h⟩ := bind_eq_ok.mp h
  obtain ⟨port, -, h⟩ := bind_eq_ok.mp h
  obtain ⟨srcPort, -, h⟩ := bind_eq_ok.mp h
  obtain ⟨port', hport, -⟩ := bind_eq_ok.mp h
  exact ⟨(sliceRange_eq_ok hdst).2, (sliceRange_eq_ok hport).2⟩

theorem extract_of_holdsPorts {bytes : List UInt8} (h : HoldsPorts bytes) :
    ∃ flow, ipv4ExtractFlow bytes = .ok (some flow) := by
  have hlen := h.1
  exact ⟨_, ipv4ExtractFlow_eq (List.getElem?_eq_getElem (show 9 < bytes.length by omega)) h⟩

/-- What a total parser does: `Some` for a payload that holds the ports, `None` for any
other. -/
def ParsesTotally (bytes : List UInt8) : Prop :=
  if HoldsPorts bytes then ∃ flow, ipv4ExtractFlow bytes = .ok (some flow)
  else ipv4ExtractFlow bytes = .ok none

/-- **Not a total parser.** `ipv4_extract_flow` does what a total parser does exactly on the
payloads that hold the ports, and on no other does `ipv4_flow_hash` return. -/
theorem extract_total_iff (fnv : List UInt8 → UInt64) (bytes : List UInt8) (iv : UInt32) :
    (ParsesTotally bytes ↔ HoldsPorts bytes) ∧
      ((∃ hash, ipv4FlowHash fnv bytes iv = .ok hash) ↔ HoldsPorts bytes) := by
  constructor
  · by_cases h : HoldsPorts bytes
    · rw [ParsesTotally, if_pos h]
      exact ⟨fun _ => h, fun _ => extract_of_holdsPorts h⟩
    · rw [ParsesTotally, if_neg h]
      exact ⟨holdsPorts_of_extract, fun h' => absurd h' h⟩
  · constructor
    · intro hhash
      obtain ⟨hash, hhash⟩ := hhash
      obtain ⟨r, hr, -⟩ := bind_eq_ok.mp hhash
      exact holdsPorts_of_extract hr
    · intro h
      obtain ⟨flow, hflow⟩ := extract_of_holdsPorts h
      exact ⟨flowHash fnv flow, by rw [ipv4FlowHash, hflow, bind_ok]⟩

end Extract

/-- The header of a packet of twenty bytes: the ports are not there. -/
def truncatedPacket : List UInt8 :=
  [0x45, 0, 0, 20, 0, 0, 0, 0, 64, 17, 0, 0, 10, 0, 0, 1, 10, 0, 0, 2]

/-- A packet cut off behind its header, and an empty payload: both functions panic. -/
theorem extract_panics :
    letI := networkOrder
    ipv4ExtractFlow truncatedPacket = .panic .slice ∧
      ipv4FlowHash (fun _ => 0) truncatedPacket 0 = .panic .slice ∧
      ipv4ExtractFlow [] = .panic .index := by
  decide

end NetBricks.Utils
