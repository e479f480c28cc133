import NetBricks.Headers.HeaderType
import NetBricks.Lib.WireFields

/-!
# The accessors of the TCP header against its layout on the wire

The getters and setters of `src/framework/src/headers/tcp.rs`. Ports, numbers, window,
checksum and urgent pointer are members of their own and are swapped to the order of
the wire; the data offset shares a byte with NS, and the other eight flags share one
among them.

`TcpField.layout` is the figure of RFC 793, section 3.1, with the bits that RFC 3168 and
RFC 3540 (named in the source) have taken from the reserved ones: for each field its
first bit, counted from the left of the header, and its width. The header on the wire is
one number of 160 bits, and there are two things to show for each field: its getter
returns its bits (`get_eq_wire`), and its setters replace them and nothing else
(`put_replaces`). That no two of them interfere is then a fact about the layout
(`layout_apart`).

Mirroring notes:

* Where a getter has the name of the member it reads, it is called `get…` here.
* A flag has one function to set it and one to unset it. `put` with an odd number is
  the first, with an even number the second.
-/

namespace NetBricks.Headers

open Lib

namespace TcpHeader

/-! ## The accessors -/

/-- `src_port`. -/
def getSrcPort (h : TcpHeader) : UInt16 := swap16 h.srcPort

def setSrcPort (h : TcpHeader) (port : UInt16) : TcpHeader := { h with srcPort := swap16 port }

/-- `dst_port`. -/
def getDstPort (h : TcpHeader) : UInt16 := swap16 h.dstPort

def setDstPort (h : TcpHeader) (port : UInt16) : TcpHeader := { h with dstPort := swap16 port }

def seqNum (h : TcpHeader) : UInt32 := swap32 h.seq

def setSeqNum (h : TcpHeader) (seq : UInt32) : TcpHeader := { h with seq := swap32 seq }

def ackNum (h : TcpHeader) : UInt32 := swap32 h.ack

def setAckNum (h : TcpHeader) (ack : UInt32) : TcpHeader := { h with ack := swap32 ack }

/-- `set_data_offset`. The shift drops the high bits of `offset`. -/
def setDataOffset (h : TcpHeader) (offset : UInt8) : TcpHeader :=
  { h with offsetToNs := (h.offsetToNs &&& (0x0f : UInt8)) ||| (offset <<< (4 : UInt8)) }

def nsFlag (h : TcpHeader) : Bool := (h.offsetToNs &&& (0x01 : UInt8)) == 1

def setNs (h : TcpHeader) : TcpHeader := { h with offsetToNs := h.offsetToNs ||| 1 }

def unsetNs (h : TcpHeader) : TcpHeader := { h with offsetToNs := h.offsetToNs &&& ~~~0x1 }

/-- `(self.flags & FLAG) != 0`. -/
def flag (mask : UInt8) (h : TcpHeader) : Bool := (h.flags &&& mask) != 0

/-- `self.flags |= FLAG`. -/
def setFlag (mask : UInt8) (h : TcpHeader) : TcpHeader := { h with flags := h.flags ||| mask }

/-- `self.flags &= !FLAG`. -/
def unsetFlag (mask : UInt8) (h : TcpHeader) : TcpHeader := { h with flags := h.flags &&& ~~~mask }

/-- `CWR`. -/
def cwr : UInt8 := 0x80

/-- `ECE`. -/
def ece : UInt8 := 0x40

/-- `URG`. -/
def urg : UInt8 := 0x20

/-- `ACK`; `ack` is the member with the number. -/
def ackBit : UInt8 := 0x10

/-- `PSH`. -/
def psh : UInt8 := 0x08

/-- `RST`. -/
def rst : UInt8 := 0x04

/-- `SYN`. -/
def syn : UInt8 := 0x02

/-- `FIN`. -/
def fin : UInt8 := 0x01

def cwrFlag : TcpHeader → Bool := flag cwr
def setCwrFlag : TcpHeader → TcpHeader := setFlag cwr
def unsetCwrFlag : TcpHeader → TcpHeader := unsetFlag cwr

def eceFlag : TcpHeader → Bool := flag ece
def setEceFlag : TcpHeader → TcpHeader := setFlag ece
def unsetEceFlag : TcpHeader → TcpHeader := unsetFlag ece

def urgFlag : TcpHeader → Bool := flag urg
def setUrgFlag : TcpHeader → TcpHeader := setFlag urg
def unsetUrgFlag : TcpHeader → TcpHeader := unsetFlag urg

def ackFlag : TcpHeader → Bool := flag ackBit
def setAckFlag : TcpHeader → TcpHeader := setFlag ackBit
def unsetAckFlag : TcpHeader → TcpHeader := unsetFlag ackBit

def pshFlag : TcpHeader → Bool := flag psh
def setPshFlag : TcpHeader → TcpHeader := setFlag psh
def unsetPshFlag : TcpHeader → TcpHeader := unsetFlag psh

def rstFlag : TcpHeader → Bool := flag rst
def setRstFlag : TcpHeader → TcpHeader := setFlag rst
def unsetRstFlag : TcpHeader → TcpHeader := unsetFlag rst

def synFlag : TcpHeader → Bool := flag syn
def setSynFlag : TcpHeader → TcpHeader := setFlag syn
def unsetSynFlag : TcpHeader → TcpHeader := unsetFlag syn

def finFlag : TcpHeader → Bool := flag fin
def setFinFlag : TcpHeader → TcpHeader := setFlag fin
def unsetFinFlag : TcpHeader → TcpHeader := unsetFlag fin

def windowSize (h : TcpHeader) : UInt16 := swap16 h.window

def setWindowSize (h : TcpHeader) (wnd : UInt16) : TcpHeader := { h with window := swap16 wnd }

def checksum (h : TcpHeader) : UInt16 := swap16 h.csum

def setChecksum (h : TcpHeader) (csum : UInt16) : TcpHeader := { h with csum := swap16 csum }

/-- `urgent`. -/
def getUrgent (h : TcpHeader) : UInt16 := swap16 h.urgent

def setUrgent (h : TcpHeader) (urgent : UInt16) : TcpHeader := { h with urgent := swap16 urgent }

end TcpHeader

/-! ## The layout -/

/-- The fields and flags of the header. -/
inductive TcpField where
  | srcPort
  | dstPort
  | seqNum
  | ackNum
  | dataOffset
  | ns
  | cwr
  | ece
  | urg
  | ack
  | psh
  | rst
  | syn
  | fin
  | windowSize
  | checksum
  | urgent
  deriving DecidableEq, Repr

namespace TcpField

/-- At which bit of the header the field starts, counted from the left, and how many
bits it has. -/
def layout : TcpField → Nat × Nat
  | .srcPort => (0, 16)
  | .dstPort => (16, 16)
  | .seqNum => (32, 32)
  | .ackNum => (64, 32)
  | .dataOffset => (96, 4)
  | .ns => (103, 1)
  | .cwr => (104, 1)
  | .ece => (105, 1)
  | .urg => (106, 1)
  | .ack => (107, 1)
  | .psh => (108, 1)
  | .rst => (109, 1)
  | .syn => (110, 1)
  | .fin => (111, 1)
  | .windowSize => (112, 16)
  | .checksum => (128, 16)
  | .urgent => (144, 16)

def start (f : TcpField) : Nat := f.layout.1

def width (f : TcpField) : Nat := f.layout.2

/-- The field of a header on the wire, as a number. -/
def wire (f : TcpField) (bytes : List UInt8) : Nat := wireBits f.start f.width bytes

/-- The reserved bits between the data offset and NS. -/
def reserved (bytes : List UInt8) : Nat := wireBits 100 3 bytes

/-- The fields are apart from each other and from the reserved bits. -/
theorem layout_apart (f : TcpField) : f.start + f.width ≤ 160 ∧
    (100 + 3 ≤ f.start ∨ f.start + f.width ≤ 100) ∧
    ∀ g, g ≠ f → g.start + g.width ≤ f.start ∨ f.start + f.width ≤ g.start := by
  refine ⟨by cases f <;> decide, by cases f <;> decide, fun g hne => ?_⟩
  cases f <;> cases g <;> simp_all [start, width, layout]

end TcpField

namespace TcpHeader

/-- What the getter of the field returns. -/
def get (h : TcpHeader) : TcpField → Nat
  | .srcPort => h.getSrcPort.toNat
  | .dstPort => h.getDstPort.toNat
  | .seqNum => h.seqNum.toNat
  | .ackNum => h.ackNum.toNat
  | .dataOffset => h.dataOffset.toNat
  | .ns => h.nsFlag.toNat
  | .cwr => h.cwrFlag.toNat
  | .ece => h.eceFlag.toNat
  | .urg => h.urgFlag.toNat
  | .ack => h.ackFlag.toNat
  | .psh => h.pshFlag.toNat
  | .rst => h.rstFlag.toNat
  | .syn => h.synFlag.toNat
  | .fin => h.finFlag.toNat
  | .windowSize => h.windowSize.toNat
  | .checksum => h.checksum.toNat
  | .urgent => h.getUrgent.toNat

/-- What the setters of the field make of the header. -/
def put (h : TcpHeader) (v : Nat) : TcpField → TcpHeader
  | .srcPort => h.setSrcPort (.ofNat v)
  | .dstPort => h.setDstPort (.ofNat v)
  | .seqNum => h.setSeqNum (.ofNat v)
  | .ackNum => h.setAckNum (.ofNat v)
  | .dataOffset => h.setDataOffset (.ofNat v)
  | .ns => if v % 2 = 1 then h.setNs else h.unsetNs
  | .cwr => if v % 2 = 1 then h.setCwrFlag else h.unsetCwrFlag
  | .ece => if v % 2 = 1 then h.setEceFlag else h.unsetEceFlag
  | .urg => if v % 2 = 1 then h.setUrgFlag else h.unsetUrgFlag
  | .ack => if v % 2 = 1 then h.setAckFlag else h.unsetAckFlag
  | .psh => if v % 2 = 1 then h.setPshFlag else h.unsetPshFlag
  | .rst => if v % 2 = 1 then h.setRstFlag else h.unsetRstFlag
  | .syn => if v % 2 = 1 then h.setSynFlag else h.unsetSynFlag
  | .fin => if v % 2 = 1 then h.setFinFlag else h.unsetFinFlag
  | .windowSize => h.setWindowSize (.ofNat v)
  | .checksum => h.setChecksum (.ofNat v)
  | .urgent => h.setUrgent (.ofNat v)

/-! ## Getters -/

theorem toNat_dataOffset (h : TcpHeader) : h.dataOffset.toNat = bits 4 4 h.offsetToNs.toNat := by
  have hlt := h.offsetToNs.toNat_lt
  rw [dataOffset, UInt8.toNat_shiftRight, UInt8.toNat_and,
    show (0xf0 : UInt8).toNat = (2 ^ 4 - 1) * 2 ^ 4 from rfl, and_mask]
  simp only [bits, UInt8.toNat_ofNat, Nat.shiftRight_eq_div_pow, Nat.reducePow, Nat.reduceMod]
  omega

theorem bits_one_cases (k x : Nat) : bits k 1 x = 0 ∨ bits k 1 x = 1 := by
  have h := bits_lt k 1 x
  omega

theorem toNat_flag (h : TcpHeader) {mask : UInt8} {k : Nat} (hmask : mask.toNat = 2 ^ k) :
    (h.flag mask).toNat = bits k 1 h.flags.toNat := by
  have hand := toNat_and_bit (b := h.flags) hmask
  have hpos := Nat.two_pow_pos k
  rcases bits_one_cases k h.flags.toNat with h0 | h1
  · have hzero : h.flags &&& mask = 0 := UInt8.toNat_inj.mp (by rw [hand, h0, Nat.zero_mul]; rfl)
    simp [flag, hzero, h0]
  · have hne : h.flags &&& mask ≠ 0 := by
      intro hzero
      rw [hzero, h1, Nat.one_mul] at hand
      exact Nat.ne_of_lt hpos hand
    simp [flag, hne, h1]

theorem toNat_nsFlag (h : TcpHeader) : h.nsFlag.toNat = bits 0 1 h.offsetToNs.toNat := by
  have hand := @toNat_and_bit h.offsetToNs 0x01 0 rfl
  rw [Nat.pow_zero, Nat.mul_one] at hand
  rcases bits_one_cases 0 h.offsetToNs.toNat with h0 | h1
  · have hzero : h.offsetToNs &&& 0x01 = 0 := UInt8.toNat_inj.mp (by rw [hand, h0]; rfl)
    rw [nsFlag, hzero, h0]
    rfl
  · have hone : h.offsetToNs &&& 0x01 = 1 := UInt8.toNat_inj.mp (by rw [hand, h1]; rfl)
    rw [nsFlag, hone, h1]
    rfl

/-- A bit of the byte with the flags. -/
theorem wire_flag (h : TcpHeader) {mask : UInt8} {k : Nat} (hmask : mask.toNat = 2 ^ k)
    (hk : k < 8) : (h.flag mask).toNat = wireBits (8 * 13 + (7 - k)) 1 h.bytes := by
  rw [wireBits_bit (b := h.flags) rfl (show 13 + 1 ≤ 20 by decide) hk, h.toNat_flag hmask]

/-- Every getter returns the field of the wire. -/
theorem get_eq_wire (h : TcpHeader) (f : TcpField) : h.get f = f.wire h.bytes := by
  have hhalf (i : Nat) (x : UInt16) (hpiece : (h.bytes.drop i).take 2 = leBytes16 x)
      (hi : i + 2 ≤ 20) : wireBits (8 * i) 16 h.bytes = (swap16 x).toNat := wireBits_half hpiece hi
  have hword (i : Nat) (x : UInt32) (hpiece : (h.bytes.drop i).take 4 = leBytes x)
      (hi : i + 4 ≤ 20) : wireBits (8 * i) 32 h.bytes = (swap32 x).toNat := wireBits_word hpiece hi
  have hoffset : (h.bytes.drop 12).take 1 = [h.offsetToNs] := rfl
  have hin : 12 + 1 ≤ h.bytes.length := show 12 + 1 ≤ 20 by decide
  cases f with
  | srcPort => exact (hhalf 0 h.srcPort rfl (by decide)).symm
  | dstPort => exact (hhalf 2 h.dstPort rfl (by decide)).symm
  | seqNum => exact (hword 4 h.seq rfl (by decide)).symm
  | ackNum => exact (hword 8 h.ack rfl (by decide)).symm
  | dataOffset => exact h.toNat_dataOffset.trans (wireBits_high hoffset hin).symm
  | ns => exact h.toNat_nsFlag.trans (wireBits_bit hoffset hin (show 0 < 8 by decide)).symm
  | cwr => exact h.wire_flag (k := 7) rfl (by decide)
  | ece => exact h.wire_flag (k := 6) rfl (by decide)
  | urg => exact h.wire_flag (k := 5) rfl (by decide)
  | ack => exact h.wire_flag (k := 4) rfl (by decide)
  | psh => exact h.wire_flag (k := 3) rfl (by decide)
  | rst => exact h.wire_flag (k := 2) rfl (by decide)
  | syn => exact h.wire_flag (k := 1) rfl (by decide)
  | fin => exact h.wire_flag (k := 0) rfl (by decide)
  | windowSize => exact (hhalf 14 h.window rfl (by decide)).symm
  | checksum => exact (hhalf 16 h.csum rfl (by decide)).symm
  | urgent => exact (hhalf 18 h.urgent rfl (by decide)).symm

/-! ## Setters -/

theorem toNat_setDataOffset (b : UInt8) (v : Nat) :
    ((b &&& (0x0f : UInt8)) ||| (UInt8.ofNat v <<< (4 : UInt8))).toNat = setBits 4 4 v b.toNat := by
  have hshift : (UInt8.ofNat v <<< (4 : UInt8)).toNat = v % 2 ^ 4 * 2 ^ 4 := by
    simp only [UInt8.toNat_shiftLeft, UInt8.toNat_ofNat', UInt8.toNat_ofNat, Nat.shiftLeft_eq,
      Nat.reducePow, Nat.reduceMod]
    omega
  rw [UInt8.toNat_or, UInt8.toNat_and, hshift, ← setBits_mod]
  exact @and_not_mask_or 8 4 4 (v % 2 ^ 4) b.toNat (by decide) b.toNat_lt (Nat.mod_lt _ (by decide))

/-- Setting or unsetting the bit of a flag. -/
theorem toNat_put_bit (b : UInt8) {mask : UInt8} {k : Nat} (hk : k < 8) (hmask : mask.toNat = 2 ^ k)
    (v : Nat) :
    (if v % 2 = 1 then b ||| mask else b &&& ~~~mask).toNat = setBits k 1 v b.toNat := by
  rw [← setBits_mod, show v % 2 ^ 1 = v % 2 from rfl]
  by_cases hv : v % 2 = 1
  · rw [if_pos hv, hv, toNat_or_bit hmask]
  · rw [if_neg hv, show v % 2 = 0 by omega, toNat_and_not_bit hk hmask]

/-- A header with one member replaced, as bytes. -/
theorem bytes_srcPort (h : TcpHeader) (x : UInt16) :
    { h with srcPort := x }.bytes = overwrite h.bytes 0 (leBytes16 x) := rfl

theorem bytes_dstPort (h : TcpHeader) (x : UInt16) :
    { h with dstPort := x }.bytes = overwrite h.bytes 2 (leBytes16 x) := rfl

theorem bytes_seq (h : TcpHeader) (x : UInt32) :
    { h with seq := x }.bytes = overwrite h.bytes 4 (leBytes x) := rfl

theorem bytes_ack (h : TcpHeader) (x : UInt32) :
    { h with ack := x }.bytes = overwrite h.bytes 8 (leBytes x) := rfl

theorem bytes_offsetToNs (h : TcpHeader) (x : UInt8) :
    { h with offsetToNs := x }.bytes = overwrite h.bytes 12 [x] := rfl

theorem bytes_flags (h : TcpHeader) (x : UInt8) :
    { h with flags := x }.bytes = overwrite h.bytes 13 [x] := rfl

theorem bytes_window (h : TcpHeader) (x : UInt16) :
    { h with window := x }.bytes = overwrite h.bytes 14 (leBytes16 x) := rfl

theorem bytes_csum (h : TcpHeader) (x : UInt16) :
    { h with csum := x }.bytes = overwrite h.bytes 16 (leBytes16 x) := rfl

theorem bytes_urgent (h : TcpHeader) (x : UInt16) :
    { h with urgent := x }.bytes = overwrite h.bytes 18 (leBytes16 x) := rfl

theorem put_flag_replaces (h : TcpHeader) (v : Nat) {mask : UInt8} {k : Nat} (hk : k < 8)
    (hmask : mask.toNat = 2 ^ k) :
    Replaces (8 * 13 + (7 - k)) 1 v h.bytes
      (if v % 2 = 1 then h.setFlag mask else h.unsetFlag mask).bytes := by
  have hbytes : (if v % 2 = 1 then h.setFlag mask else h.unsetFlag mask).bytes =
      overwrite h.bytes 13 [if v % 2 = 1 then h.flags ||| mask else h.flags &&& ~~~mask] := by
    rw [← bytes_flags]
    split <;> rfl
  rw [hbytes]
  exact replaces_bit (b := h.flags) rfl (show 13 + 1 ≤ 20 by decide) hk (toNat_put_bit _ hk hmask v)

theorem put_ns_replaces (h : TcpHeader) (v : Nat) :
    Replaces 103 1 v h.bytes (if v % 2 = 1 then h.setNs else h.unsetNs).bytes := by
  have hin : 12 + 1 ≤ h.bytes.length := show 12 + 1 ≤ 20 by decide
  have hbytes : (if v % 2 = 1 then h.setNs else h.unsetNs).bytes = overwrite h.bytes 12
      [if v % 2 = 1 then h.offsetToNs ||| 1 else h.offsetToNs &&& ~~~0x1] := by
    rw [← bytes_offsetToNs]
    split <;> rfl
  rw [hbytes]
  exact replaces_bit (i := 12) (b := h.offsetToNs) rfl hin (show 0 < 8 by decide)
    (toNat_put_bit _ (by decide) rfl v)

theorem put_dataOffset_replaces (h : TcpHeader) (v : Nat) :
    Replaces 96 4 v h.bytes (h.setDataOffset (.ofNat v)).bytes := by
  have hin : 12 + 1 ≤ h.bytes.length := show 12 + 1 ≤ 20 by decide
  rw [setDataOffset, bytes_offsetToNs]
  exact replaces_high (i := 12) (b := h.offsetToNs) rfl hin (toNat_setDataOffset _ v)

/-- Every setter replaces its field on the wire, and nothing else. -/
theorem put_replaces (h : TcpHeader) (v : Nat) (f : TcpField) :
    Replaces f.start f.width v h.bytes (h.put v f).bytes := by
  have hhalf (i : Nat) {x : UInt16} {h' : TcpHeader}
      (hbytes : h'.bytes = overwrite h.bytes i (leBytes16 (swap16 (.ofNat v))))
      (hpiece : (h.bytes.drop i).take 2 = leBytes16 x) (hi : i + 2 ≤ 20) :
      Replaces (8 * i) 16 v h.bytes h'.bytes := by
    rw [hbytes]
    exact replaces_half v hpiece hi
  have hword (i : Nat) {x : UInt32} {h' : TcpHeader}
      (hbytes : h'.bytes = overwrite h.bytes i (leBytes (swap32 (.ofNat v))))
      (hpiece : (h.bytes.drop i).take 4 = leBytes x) (hi : i + 4 ≤ 20) :
      Replaces (8 * i) 32 v h.bytes h'.bytes := by
    rw [hbytes]
    exact replaces_word v hpiece hi
  cases f with
  | srcPort => exact hhalf 0 (h.bytes_srcPort _) rfl (by decide)
  | dstPort => exact hhalf 2 (h.bytes_dstPort _) rfl (by decide)
  | seqNum => exact hword 4 (h.bytes_seq _) rfl (by decide)
  | ackNum => exact hword 8 (h.bytes_ack _) rfl (by decide)
  | dataOffset => exact h.put_dataOffset_replaces v
  | ns => exact h.put_ns_replaces v
  | cwr => exact h.put_flag_replaces v (k := 7) (by decide) rfl
  | ece => exact h.put_flag_replaces v (k := 6) (by decide) rfl
  | urg => exact h.put_flag_replaces v (k := 5) (by decide) rfl
  | ack => exact h.put_flag_replaces v (k := 4) (by decide) rfl
  | psh => exact h.put_flag_replaces v (k := 3) (by decide) rfl
  | rst => exact h.put_flag_replaces v (k := 2) (by decide) rfl
  | syn => exact h.put_flag_replaces v (k := 1) (by decide) rfl
  | fin => exact h.put_flag_replaces v (k := 0) (by decide) rfl
  | windowSize => exact hhalf 14 (h.bytes_window _) rfl (by decide)
  | checksum => exact hhalf 16 (h.bytes_csum _) rfl (by decide)
  | urgent => exact hhalf 18 (h.bytes_urgent _) rfl (by decide)

/-- The bytes of the header that lies over memory are those it lies over. -/
theorem bytes_ofBytes {memory : List UInt8} (h : 20 ≤ memory.length) :
    (ofBytes memory).bytes = memory.take 20 := by
  have hpair : [memory.getD 12 0, memory.getD 13 0] = (memory.drop 12).take 2 := by
    rw [List.drop_eq_getElem_cons (by omega), List.take_succ_cons,
      List.drop_eq_getElem_cons (by omega), List.take_succ_cons, List.take_zero]
    simp [List.getD_eq_getElem?_getD, show 12 < memory.length by omega,
      show 13 < memory.length by omega]
  have hmembers : memory.take 20 = memory.take 2 ++ ((memory.drop 2).take 2 ++
      ((memory.drop 4).take 4 ++ ((memory.drop 8).take 4 ++ ((memory.drop 12).take 2 ++
      ((memory.drop 14).take 2 ++ ((memory.drop 16).take 2 ++ (memory.drop 18).take 2)))))) := by
    rw [show 20 = 2 + (2 + (4 + (4 + (2 + (2 + (2 + 2)))))) from rfl]
    simp only [List.take_add, List.drop_drop]
  rw [bytes, ofBytes, hpair, leBytes16_leHalfAt (by omega), leBytes16_leHalfAt (by omega),
    leBytes_leWordAt (by omega), leBytes_leWordAt (by omega), leBytes16_leHalfAt (by omega),
    leBytes16_leHalfAt (by omega), leBytes16_leHalfAt (by omega), List.drop_zero, hmembers]

/-- **The accessors do not interfere.** For every header of twenty bytes and every field:
the getters return what RFC 793 has at their places, a setter makes its getter return the
value, cut to the width of the field, and it leaves every other getter and the reserved
bits alone. -/
theorem accessors_independent {bytes : List UInt8} (hlen : bytes.length = 20) (v : Nat)
    (f : TcpField) :
    (∀ g : TcpField, (ofBytes bytes).get g = g.wire bytes) ∧
      ((ofBytes bytes).put v f).get f = v % 2 ^ f.width ∧
      (∀ g, g ≠ f → ((ofBytes bytes).put v f).get g = (ofBytes bytes).get g) ∧
      TcpField.reserved ((ofBytes bytes).put v f).bytes = TcpField.reserved bytes := by
  have hbytes : (ofBytes bytes).bytes = bytes := by
    rw [bytes_ofBytes (Nat.le_of_eq hlen.symm), List.take_of_length_le (Nat.le_of_eq hlen)]
  obtain ⟨hin, hreserved, hapart⟩ := f.layout_apart
  have hput := (ofBytes bytes).put_replaces v f
  refine ⟨fun g => ?_, ?_, fun g hne => ?_, ?_⟩
  · rw [get_eq_wire, hbytes]
  · rw [get_eq_wire]
    exact hput.wireBits_self
  · rw [get_eq_wire, get_eq_wire]
    exact hput.wireBits_of_disjoint (hapart g hne) hin g.layout_apart.1
  · have h := hput.wireBits_of_disjoint hreserved hin (show 100 + 3 ≤ 8 * 20 by decide)
    rwa [hbytes] at h

/-- A SYN from port 1024 to port 80, with the reserved bits set. -/
def synHeader : List UInt8 :=
  [4, 0, 0, 80, 0, 0, 0, 7, 0, 0, 0, 0, 0x5e, 0x02, 1, 0, 0xab, 0xcd, 0, 0]

/-- Setting its data offset to 22 makes it 6, and the rest of the byte stays. -/
theorem accessors_independent_syn :
    (ofBytes synHeader).get .syn = 1 ∧ (ofBytes synHeader).get .checksum = 0xabcd ∧
      ((ofBytes synHeader).put 22 .dataOffset).get .dataOffset = 6 ∧
      ((ofBytes synHeader).put 22 .dataOffset).get .ns = 0 ∧
      TcpField.reserved ((ofBytes synHeader).put 22 .dataOffset).bytes = 7 := by
  obtain ⟨hget, hself, hother, hreserved⟩ :=
    accessors_independent (show synHeader.length = 20 by decide) 22 .dataOffset
  refine ⟨?_, ?_, ?_, ?_, ?_⟩
  · rw [hget]
    decide
  · rw [hget]
    decide
  · rw [hself]
    decide
  · rw [hother .ns nofun, hget]
    decide
  · rw [hreserved]
    decide

end TcpHeader

end NetBricks.Headers
