import NetBricks.Interface.Packet
import NetBricks.Lib.Fields

/-!
# The metadata slots

The private area behind an mbuf, of `METADATA_SLOTS` slots of eight bytes
(`src/framework/src/interface/packet.rs`, `native/zcsi/mbuf.rs`). Slot 0 is for the
address of a header and slot 1 for its offset; the free-form metadata of a packet
starts in slot 3. A read of one of these three sees the last write to it and no other
(`readMetadataSlot_self`, `readMetadataSlot_of_ne`, `readMetadata_writeMetadataSlot`,
`readMetadataSlot_writeMetadata`), so what `save_header_and_offset` saves is what
`restore_saved_header` finds.

Mirroring notes:

* A `RawPacket` is a `Packet` with its header pointer as a field: it can come from
  anywhere when it is restored.
* The private area is `METADATA_SLOTS * METADATA_SLOT_SIZE` bytes, as `mempool.c`
  allocates it; this is a hypothesis on the mbuf, as is that the address of a header is
  a `usize` and not null.
-/

namespace NetBricks.Interface

open Lib
open Lib.Outcome

/-- The fields of a `Packet`. -/
structure RawPacket where
  mbuf : Ptr
  header : Nat
  offset : Nat
  deriving DecidableEq, Repr

/-- The fields of a packet in an mbuf. -/
def Packet.raw (p : Packet) (m : MBuf) : RawPacket :=
  { mbuf := p.mbuf, header := m.dataAddress p.offset, offset := p.offset }

/-- `read_metadata_slot`. -/
def readMetadataSlot (m : MBuf) (slot : Nat) : Nat := leNat ((m.slots.drop (slot * 8)).take 8)

/-- `read_metadata`, of a type of `size` bytes. -/
def readMetadata (m : MBuf) (size : Nat) : Outcome (List UInt8) := do
  check (size < freeformMetadataSize) "size_of::<M>() < FREEFORM_METADATA_SIZE"
  .ok ((m.slots.drop (freeformMetadataSlot * 8)).take size)

/-- `restore_saved_header`, for a packet in the mbuf `mbuf`. -/
def restoreSavedHeader (mbuf : Ptr) (m : MBuf) : Option RawPacket :=
  let hdr := readMetadataSlot m 0
  if hdr = 0 then none else some { mbuf := mbuf, header := hdr, offset := readMetadataSlot m 1 }

/-- The private area of an mbuf is there. -/
def MBuf.Slotted (m : MBuf) : Prop := m.slots.length = metadataSlots * 8

/-! ## Slots -/

theorem length_usizeBytes (n : Nat) : (usizeBytes n).length = 8 := by
  rw [usizeBytes, List.length_map, List.length_range]

theorem leNat_lowBytes (n : Nat) : ∀ k : Nat,
    leNat ((List.range k).map fun i => UInt8.ofNat (n >>> (8 * i))) = n % 256 ^ k := by
  intro k
  induction k with
  | zero => rw [Nat.pow_zero, Nat.mod_one]; rfl
  | succ k ih =>
    have hbyte : (UInt8.ofNat (n >>> (8 * k))).toNat = n / 256 ^ k % 256 := by
      rw [UInt8.toNat_ofNat', Nat.shiftRight_eq_div_pow, Nat.pow_mul]
    rw [leNat] at ih ⊢
    rw [List.range_succ, List.map_append, List.map_append, Nat.ofDigits_append, ih,
      List.length_map, List.length_map, List.length_range, List.map_singleton, List.map_singleton,
      Nat.ofDigits_singleton, hbyte, Nat.mod_pow_succ]

theorem leNat_usizeBytes (n : Nat) : leNat (usizeBytes n) = n % 2 ^ 64 := leNat_lowBytes n 8

section Slots

variable {m : MBuf} (hm : m.Slotted)
include hm

theorem slot_fits {slot : Nat} (hslot : slot < metadataSlots) (value : Nat) :
    slot * 8 + (usizeBytes value).length ≤ m.slots.length := by
  rw [length_usizeBytes, hm]
  omega

theorem slotted_writeMetadataSlot {slot : Nat} (hslot : slot < metadataSlots) (value : Nat) :
    (writeMetadataSlot m slot value).Slotted := by
  show (overwrite _ _ _).length = _
  rw [length_overwrite (slot_fits hm hslot value)]
  exact hm

/-- A slot has what was written to it, a `usize`. -/
theorem readMetadataSlot_self {slot : Nat} (hslot : slot < metadataSlots) (value : Nat) :
    readMetadataSlot (writeMetadataSlot m slot value) slot = value % 2 ^ 64 := by
  have hread := take_drop_overwrite (slot_fits hm hslot value)
  rw [length_usizeBytes] at hread
  show leNat (((overwrite m.slots (slot * 8) (usizeBytes value)).drop (slot * 8)).take 8) = _
  rw [hread, leNat_usizeBytes]

theorem readMetadataSlot_of_ne {slot slot' : Nat} (hslot : slot < metadataSlots)
    (hne : slot' ≠ slot) (value : Nat) :
    readMetadataSlot (writeMetadataSlot m slot value) slot' = readMetadataSlot m slot' := by
  show leNat (((overwrite _ _ _).drop _).take _) = leNat _
  rw [take_drop_overwrite_of_disjoint (slot_fits hm hslot value)]
  rw [length_usizeBytes]
  omega

/-- The slots below the free-form ones are not part of the metadata. -/
theorem readMetadata_writeMetadataSlot {slot : Nat} (hslot : slot < freeformMetadataSlot)
    (value size : Nat) :
    readMetadata (writeMetadataSlot m slot value) size = readMetadata m size := by
  have hslot' : slot < metadataSlots := Nat.lt_trans hslot (by decide)
  unfold readMetadata
  congr 1
  funext _
  show Outcome.ok (((overwrite _ _ _).drop _).take _) = _
  rw [take_drop_overwrite_of_disjoint (slot_fits hm hslot' value)]
  rw [length_usizeBytes]
  omega

/-- Metadata leaves the slots below it alone. -/
theorem readMetadataSlot_writeMetadata {size : Nat} {metadata : Vector UInt8 size} {m' : MBuf}
    (h : writeMetadata m metadata = .ok m') {slot : Nat} (hslot : slot < freeformMetadataSlot) :
    readMetadataSlot m' slot = readMetadataSlot m slot := by
  unfold writeMetadata at h
  split at h
  · cases h
  next hsize =>
    cases h
    have hlt : size < 104 := Nat.lt_of_not_le hsize
    have hslot' : slot < 3 := hslot
    have hlen : m.slots.length = 128 := hm
    have hfree : freeformMetadataSlot = 3 := rfl
    show leNat (((overwrite _ _ _).drop _).take _) = leNat _
    rw [take_drop_overwrite_of_disjoint (by rw [Vector.length_toList, hlen, hfree]; omega)]
    omega

/-! ## Saving and restoring -/

/-- Saving the header and the offset does not change the metadata. -/
theorem readMetadata_saveHeaderAndOffset (p : Packet) (size : Nat) :
    readMetadata (p.saveHeaderAndOffset m) size = readMetadata m size := by
  rw [Packet.saveHeaderAndOffset,
    readMetadata_writeMetadataSlot (slotted_writeMetadataSlot hm (by decide) _) (by decide),
    readMetadata_writeMetadataSlot hm (by decide)]

theorem restoreSavedHeader_saveHeaderAndOffset {p : Packet} (hpos : 0 < m.dataAddress p.offset)
    (hlt : m.dataAddress p.offset < 2 ^ 64) :
    restoreSavedHeader p.mbuf (p.saveHeaderAndOffset m) = some (p.raw m) := by
  have hoffset : p.offset < 2 ^ 64 := by
    unfold MBuf.dataAddress at hlt
    omega
  have hm₁ := slotted_writeMetadataSlot hm (show 0 < metadataSlots by decide)
    (m.dataAddress p.offset)
  have hheader : readMetadataSlot (p.saveHeaderAndOffset m) 0 = m.dataAddress p.offset := by
    rw [Packet.saveHeaderAndOffset, readMetadataSlot_of_ne hm₁ (by decide) (by decide),
      readMetadataSlot_self hm (by decide), Nat.mod_eq_of_lt hlt]
  have hsaved : readMetadataSlot (p.saveHeaderAndOffset m) 1 = p.offset := by
    rw [Packet.saveHeaderAndOffset, readMetadataSlot_self hm₁ (by decide),
      Nat.mod_eq_of_lt hoffset]
  rw [restoreSavedHeader, hheader, hsaved, if_neg (by omega)]
  rfl

end Slots

end NetBricks.Interface
