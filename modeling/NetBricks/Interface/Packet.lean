import Mathlib.Logic.Function.Basic
import NetBricks.Common
import NetBricks.Lib.Circular

/-!
# Packets

`src/framework/src/interface/packet.rs` and the part of `native/zcsi/mbuf.rs` it
reads. A `Packet` is a view of an mbuf: where the current header starts, and its
type. The mbuf itself stays in memory and is passed along.

Mirroring notes:

* The header pointer of a `Packet` is always the data address of its offset, so
  it is not a field.
* A header type is what `EndOffset` says about it: its size, and how far behind
  the start of the header the next one starts, read from the bytes there.
* `payload_size` subtracts `usize`s; a result below zero is an overflow.
* Metadata values are the bytes they are stored as.
-/

namespace NetBricks.Interface

open Lib
open Lib.Outcome

/-- The address of an mbuf. -/
abbrev Ptr := Nat

/-- The fields of an mbuf that the modelled code reads, and the metadata slots
behind it. -/
structure MBuf where
  bufAddr : Nat
  buf : List UInt8
  dataOff : Nat
  dataLen : Nat
  pktLen : Nat := dataLen
  slots : List UInt8
  deriving DecidableEq, Repr

/-- What is in memory, mbuf by mbuf. -/
abbrev Mem := Ptr → MBuf

/-- A header type: the trait `EndOffset`. -/
structure EndOffset where
  size : Nat
  offset : List UInt8 → Nat

/-- `offset` reads the bytes of the header itself and no other. -/
def EndOffset.Local (header : EndOffset) : Prop :=
  ∀ memory, header.offset (memory.take header.size) = header.offset memory

/-- `NullHeader`. -/
def nullHeader : EndOffset := { size := 0, offset := fun _ => 0 }

structure Packet where
  mbuf : Ptr
  header : EndOffset
  offset : Nat

/-- `METADATA_SLOTS`, of eight bytes each. -/
def metadataSlots : Nat := 16

/-- `FREEFORM_METADATA_SLOT`: behind the header, offset and stack depth slots. -/
def freeformMetadataSlot : Nat := 3

/-- `FREEFORM_METADATA_SIZE`. -/
def freeformMetadataSize : Nat := (metadataSlots - freeformMetadataSlot) * 8

/-- `MBuf::data_address`. -/
def MBuf.dataAddress (m : MBuf) (offset : Nat) : Nat := m.bufAddr + m.dataOff + offset

namespace Packet

/-- `packet_from_mbuf_no_free`, with no header parsed. -/
def fromMbuf (mbuf : Ptr) : Packet := { mbuf := mbuf, header := nullHeader, offset := 0 }

/-- The offset of the payload relative to the header. -/
def payloadOffset (p : Packet) (m : MBuf) : Nat :=
  p.header.offset (m.buf.drop (m.dataOff + p.offset))

/-- `payload_size`. -/
def payloadSize (p : Packet) (m : MBuf) : Outcome Nat := do
  let rest ← checkedSub m.dataLen p.offset
  checkedSub rest (p.payloadOffset m)

/-- `parse_header`. -/
def parseHeader (p : Packet) (header : EndOffset) (m : MBuf) : Outcome Packet := do
  let size ← p.payloadSize m
  check (size > header.size) "self.payload_size() > T2::size()"
  .ok { mbuf := p.mbuf, header := header, offset := p.offset + p.payloadOffset m }

/-- `reset`. -/
def reset (p : Packet) : Packet := fromMbuf p.mbuf

end Packet

/-- `write_metadata`: the value goes over the first bytes of the free-form slots. -/
def writeMetadata (m : MBuf) {size : Nat} (metadata : Vector UInt8 size) : Except ErrorKind MBuf :=
  if size ≥ freeformMetadataSize then .error .metadataTooLarge
  else .ok { m with slots := overwrite m.slots (freeformMetadataSlot * 8) metadata.toList }

/-- A `usize` as it lies in memory. -/
def usizeBytes (n : Nat) : List UInt8 := (List.range 8).map (fun i => UInt8.ofNat (n >>> (8 * i)))

/-- `write_metadata_slot`. -/
def writeMetadataSlot (m : MBuf) (slot value : Nat) : MBuf :=
  { m with slots := overwrite m.slots (slot * 8) (usizeBytes value) }

/-- `save_header_and_offset`: into the header slot and the offset slot. -/
def Packet.saveHeaderAndOffset (p : Packet) (m : MBuf) : MBuf :=
  writeMetadataSlot (writeMetadataSlot m 0 (m.dataAddress p.offset)) 1 p.offset

end NetBricks.Interface
