import NetBricks.Headers.Ip

/-!
# The accessors of the IPv4 header against its layout on the wire

`IpField.layout` is the figure of RFC 791, section 3.1: for each field its row of 32
bits, its first bit and its width. `IpField.wire` reads a field off the bytes with
it, the high byte of a row first. The code instead works on little-endian words:
`IpField.slot` says which bits of the row's word an accessor touches, and `decode`
and `encode` what it makes of them. From `get_eq` (a getter decodes its slot) and
`rowNat_set` (a setter replaces its slot and nothing else) every pair of accessors is
settled by whether their slots are apart.

Three fields come out wrong, and `accessors_accurate_iff` says for which headers and
values that shows:

* `csum` does not swap the bytes that `set_csum` swaps;
* `fragment_offset` reads the half of the word where the id is, so that it returns
  nothing of what `set_fragment_offset` writes and changes with `set_id`;
* `set_fragment_offset` takes sixteen bits, and those above the thirteenth are set in
  the flags.
-/

namespace NetBricks.Headers

open Lib

/-- The fields of the header. -/
inductive IpField where
  | version
  | ihl
  | dscp
  | ecn
  | length
  | id
  | flags
  | fragmentOffset
  | ttl
  | protocol
  | csum
  | src
  | dst
  deriving DecidableEq, Repr

namespace IpField

/-- RFC 791, section 3.1: in which 32-bit row of the header the field is, at which
bit of the row it starts, counted from the left, and how many bits it has. -/
def layout : IpField → Nat × Nat × Nat
  | .version => (0, 0, 4)
  | .ihl => (0, 4, 4)
  | .dscp => (0, 8, 6)
  | .ecn => (0, 14, 2)
  | .length => (0, 16, 16)
  | .id => (1, 0, 16)
  | .flags => (1, 16, 3)
  | .fragmentOffset => (1, 19, 13)
  | .ttl => (2, 0, 8)
  | .protocol => (2, 8, 8)
  | .csum => (2, 16, 16)
  | .src => (3, 0, 32)
  | .dst => (4, 0, 32)

def row (f : IpField) : Nat := f.layout.1

def start (f : IpField) : Nat := f.layout.2.1

def width (f : IpField) : Nat := f.layout.2.2

/-- The field of a header on the wire, as a number. -/
def wire (f : IpField) (bytes : List UInt8) : Nat :=
  bits (32 - f.start - f.width) f.width (beNat ((bytes.drop (4 * f.row)).take 4))

end IpField

namespace IpHeader

/-- What the getter of the field returns. -/
def get (h : IpHeader) : IpField → Nat
  | .version => h.version.toNat
  | .ihl => h.ihl.toNat
  | .dscp => h.dscp.toNat
  | .ecn => h.ecn.toNat
  | .length => h.length.toNat
  | .id => h.id.toNat
  | .flags => h.flags.toNat
  | .fragmentOffset => h.fragmentOffset.toNat
  | .ttl => h.ttl.toNat
  | .protocol => h.protocol.toNat
  | .csum => h.csum.toNat
  | .src => h.src.toNat
  | .dst => h.dst.toNat

/-- What the setter of the field makes of the header. -/
def set (h : IpHeader) (v : Nat) : IpField → IpHeader
  | .version => h.setVersion (.ofNat v)
  | .ihl => h.setIhl (.ofNat v)
  | .dscp => h.setDscp (.ofNat v)
  | .ecn => h.setEcn (.ofNat v)
  | .length => h.setLength (.ofNat v)
  | .id => h.setId (.ofNat v)
  | .flags => h.setFlags (.ofNat v)
  | .fragmentOffset => h.setFragmentOffset (.ofNat v)
  | .ttl => h.setTtl (.ofNat v)
  | .protocol => h.setProtocol (.ofNat v)
  | .csum => h.setCsum (.ofNat v)
  | .src => h.setSrc (.ofNat v)
  | .dst => h.setDst (.ofNat v)

/-! ## Where the code keeps the fields -/

/-- The row of the header, as the number the code has in its word. -/
def rowNat (h : IpHeader) (r : Nat) : Nat := (h.words.getD r 0).toNat

end IpHeader

namespace IpField

/-- The bits of the row's word that the getter looks at: the first one and their
number. The getter of the fragment offset looks at the id. -/
def slot : IpField → Nat × Nat
  | .version => (4, 4)
  | .ihl => (0, 4)
  | .dscp => (10, 6)
  | .ecn => (8, 2)
  | .length => (16, 16)
  | .id => (0, 16)
  | .flags => (21, 3)
  | .fragmentOffset => (4, 12)
  | .ttl => (0, 8)
  | .protocol => (8, 8)
  | .csum => (16, 16)
  | .src => (0, 32)
  | .dst => (0, 32)

/-- The getter's view of these bits. -/
def decode (x : Nat) : IpField → Nat
  | .length => (swap16 (.ofNat x)).toNat
  | .id => (swap16 (.ofNat x)).toNat
  | .fragmentOffset => (swap16 (.ofNat (2 * x))).toNat
  | .src => (swap32 (.ofNat x)).toNat
  | .dst => (swap32 (.ofNat x)).toNat
  | _ => x

/-- What the setter puts there. -/
def encode (v : Nat) : IpField → Nat
  | .length => (swap16 (.ofNat v)).toNat
  | .id => (swap16 (.ofNat v)).toNat
  | .csum => (swap16 (.ofNat v)).toNat
  | .src => (swap32 (.ofNat v)).toNat
  | .dst => (swap32 (.ofNat v)).toNat
  | _ => v

end IpField

namespace IpHeader

theorem toNat_version (h : IpHeader) : h.version.toNat = bits 4 4 h.versionToLen.toNat := by
  simp only [version, UInt8.toNat_shiftRight, UInt32.toNat_toUInt8, UInt32.toNat_and]
  rw [show (0xf0 : UInt32).toNat = (2 ^ 4 - 1) * 2 ^ 4 from rfl, and_mask, bits]
  simp [Nat.shiftRight_eq_div_pow]
  omega

theorem toNat_flags (h : IpHeader) : h.flags.toNat = bits 21 3 h.idToFoffset.toNat := by
  simp only [flags, UInt16.toNat_toUInt8, UInt16.toNat_and, UInt32.toNat_toUInt16,
    UInt32.toNat_shiftRight]
  rw [show (7 : UInt16).toNat = 2 ^ 3 - 1 from rfl, Nat.and_two_pow_sub_one_eq_mod, bits]
  simp [Nat.shiftRight_eq_div_pow]
  omega

/-- What `fragment_offset` computes, before the swap. -/
theorem fragmentOffset_eq (h : IpHeader) :
    h.fragmentOffset = swap16 (.ofNat (2 * bits 4 12 h.idToFoffset.toNat)) := by
  have hlow : (h.idToFoffset &&& 0xffff).toUInt16.toNat = bits 0 16 h.idToFoffset.toNat :=
    toNat_readField_toUInt16 (show FieldMask 0 16 0xffff 0 by decide) (by decide) h.idToFoffset
  have hmask : (~~~(0xe : UInt16)).toNat = 0xfff1 := by decide
  -- the mask clears the bit that the shift would leave lowest
  have hcut := bits_and 3 13 (bits 0 16 h.idToFoffset.toNat) 0xfff1
  rw [show bits 3 13 0xfff1 = (2 ^ 12 - 1) * 2 ^ 1 from rfl, and_mask] at hcut
  have hlt := Nat.and_lt_two_pow (n := 16) (bits 0 16 h.idToFoffset.toNat)
    (show 0xfff1 < 2 ^ 16 by decide)
  refine congrArg swap16 (UInt16.toNat_inj.mp ?_)
  rw [UInt16.toNat_shiftRight, UInt16.toNat_and, hlow, hmask]
  simp only [bits, UInt16.toNat_ofNat', UInt16.toNat_ofNat, Nat.shiftRight_eq_div_pow,
    Nat.reducePow, Nat.reduceMod] at hcut hlt ⊢
  omega

theorem toNat_swap32_bits (x : UInt32) :
    (swap32 (.ofNat (bits 0 32 x.toNat))).toNat = (swap32 x).toNat := by
  rw [bits_all, UInt32.ofNat_toNat]

/-- Every getter decodes the bits of its slot. -/
theorem get_eq (h : IpHeader) (f : IpField) :
    h.get f = f.decode (bits f.slot.1 f.slot.2 (h.rowNat f.row)) := by
  cases f with
  | version => exact h.toNat_version
  | ihl => exact toNat_readField_toUInt8 (show FieldMask 0 4 0x0f 0 by decide) (by decide) _
  | dscp => exact toNat_readField_toUInt8 (show FieldMask 10 6 0xfc00 10 by decide) (by decide) _
  | ecn => exact toNat_readField_toUInt8 (show FieldMask 8 2 0x0300 8 by decide) (by decide) _
  | length =>
    exact congrArg (fun x => (swap16 x).toNat)
      (readField_toUInt16 (show FieldMask 16 16 0xffff0000 16 by decide) (by decide) _)
  | id =>
    exact congrArg (fun x => (swap16 x).toNat)
      (readField_toUInt16 (show FieldMask 0 16 0xffff 0 by decide) (by decide) _)
  | flags => exact h.toNat_flags
  | fragmentOffset => exact congrArg UInt16.toNat h.fragmentOffset_eq
  | ttl => exact toNat_readField_toUInt8 (show FieldMask 0 8 0x000000ff 0 by decide) (by decide) _
  | protocol => exact toNat_readField_toUInt8 (show FieldMask 8 8 0xff00 8 by decide) (by decide) _
  | csum =>
    exact toNat_readField_toUInt16 (show FieldMask 16 16 0xffff0000 16 by decide) (by decide) _
  | src => exact (toNat_swap32_bits h.srcIp).symm
  | dst => exact (toNat_swap32_bits h.dstIp).symm

theorem words_idToFoffset (h : IpHeader) (w : UInt32) :
    { h with idToFoffset := w }.words = h.words.set 1 w := rfl

theorem words_srcIp (h : IpHeader) (w : UInt32) :
    { h with srcIp := w }.words = h.words.set 3 w := rfl

theorem words_dstIp (h : IpHeader) (w : UInt32) :
    { h with dstIp := w }.words = h.words.set 4 w := rfl

/-- Every setter but one replaces the bits of its slot, and nothing else. -/
theorem words_set (h : IpHeader) (v : Nat) {f : IpField} (hf : f ≠ .fragmentOffset) :
    ∃ w, (h.set v f).words = h.words.set f.row w ∧
      w.toNat = setBits f.slot.1 f.slot.2 (f.encode v) (h.rowNat f.row) := by
  have hlow : ∀ (m : UInt8) (n : Nat), m.toNat = 2 ^ n - 1 → n ≤ 8 →
      (UInt8.ofNat v &&& m).toUInt32.toNat = v % 2 ^ n := by
    intro m n hm hn
    rw [UInt8.toNat_toUInt32, UInt8.toNat_and, hm, Nat.and_two_pow_sub_one_eq_mod]
    exact Nat.mod_mod_of_dvd v (Nat.pow_dvd_pow 2 hn)
  have hbyte : (UInt8.ofNat v).toUInt32.toNat = v % 2 ^ 8 := by
    rw [UInt8.toNat_toUInt32, UInt8.toNat_ofNat']
  have hswap : (swap16 (.ofNat v)).toUInt32.toNat = (swap16 (.ofNat v)).toNat % 2 ^ 16 := by
    rw [UInt16.toNat_toUInt32, Nat.mod_eq_of_lt (swap16 (.ofNat v)).toNat_lt]
  cases f with
  | version =>
    exact ⟨_, rfl, toNat_writeField (show FieldMask 4 4 0xf0 4 by decide)
      (hlow 0xf 4 rfl (by decide)) _⟩
  | ihl =>
    exact ⟨_, rfl, toNat_writeField (show FieldMask 0 4 0x0f 0 by decide)
      (hlow 0x0f 4 rfl (by decide)) _⟩
  | dscp =>
    exact ⟨_, rfl, toNat_writeField (show FieldMask 10 6 0xfc00 10 by decide)
      (hlow 0x3f 6 rfl (by decide)) _⟩
  | ecn =>
    exact ⟨_, rfl, toNat_writeField (show FieldMask 8 2 0x0300 8 by decide)
      (hlow 0x03 2 rfl (by decide)) _⟩
  | length =>
    exact ⟨_, rfl, toNat_writeField (show FieldMask 16 16 0xffff0000 16 by decide) hswap _⟩
  | id => exact ⟨_, rfl, toNat_writeField (show FieldMask 0 16 0xffff 0 by decide) hswap _⟩
  | flags =>
    exact ⟨_, rfl, toNat_writeField (show FieldMask 21 3 0x00e00000 21 by decide)
      (hlow 0x7 3 rfl (by decide)) _⟩
  | fragmentOffset => exact absurd rfl hf
  | ttl => exact ⟨_, rfl, toNat_writeField (show FieldMask 0 8 0x000000ff 0 by decide) hbyte _⟩
  | protocol => exact ⟨_, rfl, toNat_writeField (show FieldMask 8 8 0xff00 8 by decide) hbyte _⟩
  | csum =>
    exact ⟨_, rfl, toNat_writeField (show FieldMask 16 16 0xffff0000 16 by decide) hswap _⟩
  | src => exact ⟨_, h.words_srcIp _, (setBits_all (swap32 (.ofNat v)) h.srcIp).symm⟩
  | dst => exact ⟨_, h.words_dstIp _, (setBits_all (swap32 (.ofNat v)) h.dstIp).symm⟩

theorem rowNat_of_words {h h' : IpHeader} {r i : Nat} {w : UInt32} (hw : h'.words = h.words.set i w)
    (hr : r ≠ i) : h'.rowNat r = h.rowNat r := by
  rw [rowNat, rowNat, hw, List.getD_eq_getElem?_getD, List.getElem?_set_ne (Ne.symm hr),
    ← List.getD_eq_getElem?_getD]

theorem rowNat_set (h : IpHeader) (v : Nat) {f : IpField} (hf : f ≠ .fragmentOffset) (r : Nat) :
    (h.set v f).rowNat r =
      if r = f.row then setBits f.slot.1 f.slot.2 (f.encode v) (h.rowNat r) else h.rowNat r := by
  obtain ⟨w, hwords, hw⟩ := h.words_set v hf
  have hrow : f.row < 5 := by cases f <;> decide
  by_cases hr : r = f.row
  · subst hr
    rw [if_pos rfl, ← hw, rowNat, hwords, List.getD_eq_getElem?_getD, List.getElem?_set_self hrow]
    rfl
  · rw [if_neg hr, rowNat_of_words hwords hr]

/-- Slots in one row are apart, but for the one of the fragment offset, which is in
the id. -/
theorem slots_apart {f g : IpField} (hne : g ≠ f) (hrow : g.row = f.row)
    (hf : f ≠ .fragmentOffset) (hid : f = .id → g ≠ .fragmentOffset) :
    g.slot.1 + g.slot.2 ≤ f.slot.1 ∨ f.slot.1 + f.slot.2 ≤ g.slot.1 := by
  cases f <;> cases g <;> simp_all [IpField.row, IpField.layout, IpField.slot]

theorem get_set_of_ne (h : IpHeader) (v : Nat) {f g : IpField} (hne : g ≠ f)
    (hf : f ≠ .fragmentOffset) (hid : f = .id → g ≠ .fragmentOffset) :
    (h.set v f).get g = h.get g := by
  rw [get_eq, get_eq, rowNat_set h v hf]
  by_cases hrow : g.row = f.row
  · rw [if_pos hrow, bits_setBits_of_disjoint (slots_apart hne hrow hf hid)]
  · rw [if_neg hrow]

theorem get_set_self (h : IpHeader) (v : Nat) {f : IpField} (hf : f ≠ .fragmentOffset) :
    (h.set v f).get f = f.decode (f.encode v % 2 ^ f.slot.2) := by
  rw [get_eq, rowNat_set h v hf, if_pos rfl, bits_setBits]

/-- A swapped half-word, swapped back. -/
theorem swap16_encoded (v : Nat) :
    (swap16 (.ofNat ((swap16 (.ofNat v)).toNat % 2 ^ 16))).toNat = v % 2 ^ 16 := by
  rw [Nat.mod_eq_of_lt (swap16 (.ofNat v)).toNat_lt, UInt16.ofNat_toNat, swap16_swap16,
    UInt16.toNat_ofNat']

theorem swap32_encoded (v : Nat) :
    (swap32 (.ofNat ((swap32 (.ofNat v)).toNat % 2 ^ 32))).toNat = v % 2 ^ 32 := by
  rw [Nat.mod_eq_of_lt (swap32 (.ofNat v)).toNat_lt, UInt32.ofNat_toNat, swap32_swap32,
    UInt32.toNat_ofNat']

/-- What a setter encodes its getter decodes. -/
theorem decode_encode {f : IpField} (v : Nat) (hf : f ≠ .fragmentOffset) (hc : f ≠ .csum) :
    f.decode (f.encode v % 2 ^ f.slot.2) = v % 2 ^ f.width := by
  cases f with
  | fragmentOffset => exact absurd rfl hf
  | csum => exact absurd rfl hc
  | length => exact swap16_encoded v
  | id => exact swap16_encoded v
  | src => exact swap32_encoded v
  | dst => exact swap32_encoded v
  | version => rfl
  | ihl => rfl
  | dscp => rfl
  | ecn => rfl
  | flags => rfl
  | ttl => rfl
  | protocol => rfl

/-! ## On the wire -/

/-- A field on the wire is in the swapped word of its row. -/
theorem wire_eq (h : IpHeader) (f : IpField) :
    f.wire h.bytes =
      bits (32 - f.start - f.width) f.width (swap32 (h.words.getD f.row 0)).toNat := by
  have hrow : beNat ((h.bytes.drop (4 * f.row)).take 4) =
      (swap32 (h.words.getD f.row 0)).toNat := by
    rw [← beNat_leBytes]
    cases f <;> rfl
  rw [IpField.wire, hrow]

/-- The getters but two return the field of the wire. -/
theorem get_eq_wire (h : IpHeader) {f : IpField} (hf : f ≠ .fragmentOffset) (hcsum : f ≠ .csum) :
    h.get f = f.wire h.bytes := by
  rw [get_eq, wire_eq]
  cases f with
  | version => exact (bits_swap32 0 4 4 (by decide) (by decide) h.versionToLen).symm
  | ihl => exact (bits_swap32 0 0 4 (by decide) (by decide) h.versionToLen).symm
  | dscp => exact (bits_swap32 1 2 6 (by decide) (by decide) h.versionToLen).symm
  | ecn => exact (bits_swap32 1 0 2 (by decide) (by decide) h.versionToLen).symm
  | length => exact (bits_swap32_low h.versionToLen).symm
  | id => exact (bits_swap32_high h.idToFoffset).symm
  | flags => exact (bits_swap32 2 5 3 (by decide) (by decide) h.idToFoffset).symm
  | fragmentOffset => exact absurd rfl hf
  | ttl => exact (bits_swap32 0 0 8 (by decide) (by decide) h.ttlToCsum).symm
  | protocol => exact (bits_swap32 1 0 8 (by decide) (by decide) h.ttlToCsum).symm
  | csum => exact absurd rfl hcsum
  | src => exact (toNat_swap32_bits h.srcIp).trans (bits_all _).symm
  | dst => exact (toNat_swap32_bits h.dstIp).trans (bits_all _).symm

theorem get_id (h : IpHeader) : h.get .id = IpField.id.wire h.bytes := h.get_eq_wire nofun nofun

theorem get_flags (h : IpHeader) : h.get .flags = IpField.flags.wire h.bytes :=
  h.get_eq_wire nofun nofun

/-- `csum` returns the two bytes of the wire the other way around. -/
theorem get_csum (h : IpHeader) :
    h.get .csum = IpField.csum.wire h.bytes % 256 * 256 + IpField.csum.wire h.bytes / 256 := by
  have hwire : IpField.csum.wire h.bytes =
      (swap16 (.ofNat (bits 16 16 h.ttlToCsum.toNat))).toNat := by
    rw [wire_eq]
    exact bits_swap32_low h.ttlToCsum
  have hswap := toNat_swap16 (swap16 (.ofNat (bits 16 16 h.ttlToCsum.toNat)))
  rw [swap16_swap16, UInt16.toNat_ofNat', Nat.mod_eq_of_lt (bits_lt 16 16 _), ← hwire] at hswap
  rw [← hswap, get_eq]
  rfl

/-- What `fragment_offset` makes of the id. -/
def misread (id : Nat) : Nat :=
  (id / 4096 * 2 + id % 256 * 32) % 256 * 256 + (id / 4096 * 2 + id % 256 * 32) / 256

theorem get_fragmentOffset (h : IpHeader) :
    h.get .fragmentOffset = misread (IpField.id.wire h.bytes) := by
  have hlt := bits_lt 0 16 h.idToFoffset.toNat
  have hwire : IpField.id.wire h.bytes =
      bits 0 16 h.idToFoffset.toNat % 256 * 256 + bits 0 16 h.idToFoffset.toNat / 256 := by
    rw [wire_eq]
    refine (bits_swap32_high h.idToFoffset).trans ?_
    rw [toNat_swap16, UInt16.toNat_ofNat', Nat.mod_eq_of_lt hlt]
  have hslot : bits 4 12 h.idToFoffset.toNat = bits 0 16 h.idToFoffset.toNat / 16 := by
    have hcut := bits_bits (show 4 + 12 ≤ 16 by decide) 0 h.idToFoffset.toNat
    rw [Nat.zero_add] at hcut
    rw [← hcut]
    unfold bits
    omega
  rw [get_eq]
  show (swap16 (.ofNat (2 * bits 4 12 h.idToFoffset.toNat))).toNat = _
  rw [toNat_swap16, UInt16.toNat_ofNat', hslot]
  -- by the two bytes of the low half, the id on the wire is the other way around
  generalize bits 0 16 h.idToFoffset.toNat = x at hlt hwire
  have hhigh : IpField.id.wire h.bytes / 4096 = x % 256 / 16 := by omega
  have hlow : IpField.id.wire h.bytes % 256 = x / 256 := by omega
  have hsplit : x / 16 = x % 256 / 16 + x / 256 * 16 := by omega
  have hsum : 2 * (x / 16) % 2 ^ 16 = x % 256 / 16 * 2 + x / 256 * 32 := by
    rw [hsplit, Nat.mod_eq_of_lt (by omega)]
    omega
  rw [misread, hhigh, hlow, hsum]

/-- Two ids are misread alike when they differ in bits 8 to 11 only. -/
theorem misread_eq_iff {i j : Nat} (hi : i < 65536) (hj : j < 65536) :
    misread i = misread j ↔ i / 4096 = j / 4096 ∧ i % 256 = j % 256 := by
  unfold misread
  constructor
  · intro h
    have hsum : i / 4096 * 2 + i % 256 * 32 = j / 4096 * 2 + j % 256 * 32 := by
      have hi' : i / 4096 * 2 + i % 256 * 32 < 65536 := by omega
      have hj' : j / 4096 * 2 + j % 256 * 32 < 65536 := by omega
      generalize i / 4096 * 2 + i % 256 * 32 = y at h hi'
      generalize j / 4096 * 2 + j % 256 * 32 = z at h hj'
      omega
    omega
  · rintro ⟨h₁, h₂⟩
    rw [h₁, h₂]

/-! ## The fragment offset is set in the order of the wire -/

/-- The word as `set_fragment_offset` leaves it, in the order of the wire. -/
theorem bits_blank_or (x : UInt32) (offset : UInt16) :
    bits 16 16 (x &&& ~~~0x1fff ||| offset.toUInt32).toNat = bits 16 16 x.toNat ∧
      bits 13 3 (x &&& ~~~0x1fff ||| offset.toUInt32).toNat =
        bits 13 3 x.toNat ||| offset.toNat / 8192 := by
  have hoff := offset.toNat_lt
  have hmask : (~~~(0x1fff : UInt32)).toNat = 0xffffe000 := by decide
  rw [UInt32.toNat_or, UInt32.toNat_and, hmask, UInt16.toNat_toUInt32, bits_or, bits_or, bits_and,
    bits_and]
  constructor
  · rw [show bits 16 16 0xffffe000 = 2 ^ 16 - 1 from rfl, Nat.and_two_pow_sub_one_eq_mod,
      Nat.mod_eq_of_lt (bits_lt 16 16 _), show bits 16 16 offset.toNat = 0 by unfold bits; omega,
      Nat.or_zero]
  · rw [show bits 13 3 0xffffe000 = 2 ^ 3 - 1 from rfl, Nat.and_two_pow_sub_one_eq_mod,
      Nat.mod_eq_of_lt (bits_lt 13 3 _),
      show bits 13 3 offset.toNat = offset.toNat / 8192 by unfold bits; omega]

/-- `set_fragment_offset` leaves the other fields, but bits of the offset that are
too high get into the flags. -/
theorem get_setFragmentOffset (h : IpHeader) (v : Nat) {g : IpField} (hg : g ≠ .fragmentOffset) :
    (h.set v .fragmentOffset).get g =
      if g = .flags then h.get .flags ||| v % 65536 / 8192 else h.get g := by
  obtain ⟨hid, hflags⟩ := bits_blank_or (swap32 h.idToFoffset) (.ofNat v)
  have hwords : (h.set v .fragmentOffset).words = h.words.set 1
      (swap32 (swap32 h.idToFoffset &&& ~~~0x1fff ||| (UInt16.ofNat v).toUInt32)) :=
    h.words_idToFoffset _
  by_cases hrow : g.row = 1
  · cases g with
    | fragmentOffset => exact absurd rfl hg
    | id =>
      rw [if_neg nofun, get_id, get_id, wire_eq, wire_eq, hwords]
      show bits 16 16 (swap32 (swap32 _)).toNat = _
      rw [swap32_swap32, hid]
      rfl
    | flags =>
      rw [if_pos rfl, get_flags, get_flags, wire_eq, wire_eq, hwords]
      show bits 13 3 (swap32 (swap32 _)).toNat = _
      rw [swap32_swap32, hflags, UInt16.toNat_ofNat']
      rfl
    | _ => exact absurd hrow (by decide)
  · have hne : g ≠ .flags := by
      rintro rfl
      exact hrow rfl
    rw [if_neg hne, get_eq, get_eq, rowNat_of_words hwords hrow]

/-! ## The accessors against the layout -/

/-- For this header, field and value: the getter returns the field of the wire, the
setter makes it return the value reduced to the field's width, and no other getter
notices. -/
structure Accurate (h : IpHeader) (v : Nat) (f : IpField) : Prop where
  reads : h.get f = f.wire h.bytes
  readsBack : (h.set v f).get f = v % 2 ^ f.width
  others : ∀ g, g ≠ f → (h.set v f).get g = h.get g

/-- Both bytes of a half-word are the same. -/
def SameBytes (x : Nat) : Prop := x / 256 = x % 256

/-- When that is so. Three fields are not kept as the layout has them: the checksum
is read in the wrong byte order, the fragment offset is read from the id, and bits
of an offset that are too high are set in the flags. -/
def Kept (h : IpHeader) (v : Nat) : IpField → Prop
  | .id => IpField.id.wire h.bytes / 4096 = v % 65536 / 4096 ∧
      IpField.id.wire h.bytes % 256 = v % 256
  | .csum => SameBytes (IpField.csum.wire h.bytes) ∧ SameBytes (v % 65536)
  | .fragmentOffset =>
      IpField.fragmentOffset.wire h.bytes = misread (IpField.id.wire h.bytes) ∧
      v % 8192 = misread (IpField.id.wire h.bytes) ∧
      IpField.flags.wire h.bytes ||| v % 65536 / 8192 = IpField.flags.wire h.bytes
  | _ => True

/-- A setter that is written like its getter. -/
theorem accurate_of_plain (h : IpHeader) (v : Nat) {f : IpField} (hid : f ≠ .id)
    (hc : f ≠ .csum) (hf : f ≠ .fragmentOffset) : Accurate h v f where
  reads := h.get_eq_wire hf hc
  readsBack := (h.get_set_self v hf).trans (decode_encode v hf hc)
  others := fun _ hne => h.get_set_of_ne v hne hf (fun h => absurd h hid)

theorem accurate_id_iff (h : IpHeader) (v : Nat) : Accurate h v .id ↔ Kept h v .id := by
  have hback : (h.set v .id).get .id = v % 65536 := by
    rw [get_set_self h v (show IpField.id ≠ .fragmentOffset from nofun)]
    exact swap16_encoded v
  have hlt : IpField.id.wire h.bytes < 65536 := bits_lt _ 16 _
  have hmis : (h.set v .id).get .fragmentOffset = h.get .fragmentOffset ↔
      IpField.id.wire h.bytes / 4096 = v % 65536 / 4096 ∧
        IpField.id.wire h.bytes % 256 = v % 65536 % 256 := by
    rw [get_fragmentOffset, get_fragmentOffset, ← get_id (h.set v .id), hback, eq_comm]
    exact misread_eq_iff hlt (Nat.mod_lt _ (by decide))
  have hmod : v % 65536 % 256 = v % 256 := by omega
  rw [hmod] at hmis
  constructor
  · intro hacc
    exact hmis.mp (hacc.others .fragmentOffset nofun)
  · intro hkept
    refine ⟨h.get_eq_wire nofun nofun, hback, fun g hne => ?_⟩
    by_cases hg : g = .fragmentOffset
    · subst hg
      exact hmis.mpr hkept
    · exact h.get_set_of_ne v hne nofun (fun _ => hg)

theorem accurate_csum_iff (h : IpHeader) (v : Nat) : Accurate h v .csum ↔ Kept h v .csum := by
  have hlt : IpField.csum.wire h.bytes < 65536 := bits_lt _ 16 _
  have hvlt : v % 65536 < 65536 := Nat.mod_lt _ (by decide)
  have hread := h.get_csum
  have hback : (h.set v .csum).get .csum = v % 65536 % 256 * 256 + v % 65536 / 256 := by
    rw [get_set_self h v (show IpField.csum ≠ .fragmentOffset from nofun)]
    show (swap16 (.ofNat v)).toNat % 2 ^ 16 = _
    rw [Nat.mod_eq_of_lt (swap16 (.ofNat v)).toNat_lt, toNat_swap16, UInt16.toNat_ofNat']
  constructor
  · rintro ⟨hr, hb, -⟩
    have hb : (h.set v .csum).get .csum = v % 65536 := hb
    constructor
    · unfold SameBytes
      omega
    · unfold SameBytes
      omega
  · rintro ⟨hr, hb⟩
    unfold SameBytes at hr hb
    refine ⟨by omega, ?_, fun g hne => h.get_set_of_ne v hne nofun nofun⟩
    show (h.set v .csum).get .csum = v % 65536
    omega

theorem accurate_fragmentOffset_iff (h : IpHeader) (v : Nat) :
    Accurate h v .fragmentOffset ↔ Kept h v .fragmentOffset := by
  have hid : IpField.id.wire (h.set v .fragmentOffset).bytes = IpField.id.wire h.bytes := by
    rw [← get_id, ← get_id, get_setFragmentOffset h v (show IpField.id ≠ _ from nofun),
      if_neg nofun]
  have hread := h.get_fragmentOffset
  have hback : (h.set v .fragmentOffset).get .fragmentOffset =
      misread (IpField.id.wire h.bytes) := by
    rw [get_fragmentOffset, hid]
  have hflags : (h.set v .fragmentOffset).get .flags =
      IpField.flags.wire h.bytes ||| v % 65536 / 8192 := by
    rw [get_setFragmentOffset h v (show IpField.flags ≠ _ from nofun), if_pos rfl, get_flags]
  constructor
  · rintro ⟨hr, hb, ho⟩
    refine ⟨hr.symm.trans hread, hb.symm.trans hback, ?_⟩
    rw [← hflags, ho .flags nofun, get_flags]
  · rintro ⟨hr, hb, hf⟩
    refine ⟨hread.trans hr.symm, hback.trans hb.symm, fun g hne => ?_⟩
    by_cases hg : g = .flags
    · subst hg
      rw [hflags, hf, get_flags]
    · rw [get_setFragmentOffset h v hne, if_neg hg]

/-- **Accessors and layout.** For every header, field and value, the accessors of the
field implement RFC 791 exactly when `Kept` says so: always for ten of the fields,
and for the id, the checksum and the fragment offset only where the defects do not
show. -/
theorem accessors_accurate_iff (h : IpHeader) (v : Nat) (f : IpField) :
    Accurate h v f ↔ Kept h v f := by
  cases f with
  | id => exact accurate_id_iff h v
  | csum => exact accurate_csum_iff h v
  | fragmentOffset => exact accurate_fragmentOffset_iff h v
  | _ => exact iff_of_true (accurate_of_plain h v nofun nofun nofun) trivial

/-- The three defects on an empty header: the checksum 1 is read back as 256, the
fragment offset 1 as 0, a new id changes the fragment offset, and an offset of
`0x2000` sets a flag. -/
theorem accessors_miss_layout :
    ¬ Accurate new 1 .csum ∧ (new.setCsum 1).csum = 256 ∧
      ¬ Accurate new 1 .fragmentOffset ∧ (new.setFragmentOffset 1).fragmentOffset = 0 ∧
      ¬ Accurate new 1 .id ∧ new.fragmentOffset = 0 ∧ (new.setId 1).fragmentOffset = 8192 ∧
      (new.setFragmentOffset 0x2000).flags = 1 := by
  have hcsum : (new.set 1 .csum).get .csum = 256 := by decide
  have hfo : (new.set 1 .fragmentOffset).get .fragmentOffset = 0 := by decide
  have hid : (new.set 1 .id).get .fragmentOffset = 8192 := by decide
  refine ⟨fun h => ?_, by decide, fun h => ?_, by decide, fun h => ?_, by decide, by decide,
    by decide⟩
  · exact absurd (hcsum.symm.trans h.readsBack) (by decide)
  · exact absurd (hfo.symm.trans h.readsBack) (by decide)
  · exact absurd (hid.symm.trans (h.others .fragmentOffset nofun)) (by decide)

end IpHeader

end NetBricks.Headers
