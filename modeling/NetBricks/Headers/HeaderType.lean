import NetBricks.Headers.Ip
import NetBricks.Interface.Frame

/-!
# The header types over the bytes of a packet

`MacHeader`, `TcpHeader` and `UdpHeader` of `src/framework/src/headers/`, with
`IpHeader` from `NetBricks.Headers.Ip`: packed structs that lie over the bytes of a
frame. A `HeaderType` is such a struct with its `EndOffset`, and carries the proof
that a struct written to memory is the struct that is there.
-/

namespace NetBricks.Headers

open Lib
open Lib.Outcome
open Interface

/-- A packed header struct: its place in memory and its `EndOffset`. -/
structure HeaderType (T : Type) where
  size : Nat
  offset : T → Nat
  bytes : T → List UInt8
  ofBytes : List UInt8 → T
  size_pos : 0 < size
  length_bytes : ∀ h, (bytes h).length = size
  ofBytes_bytes : ∀ h rest, ofBytes (bytes h ++ rest) = h

namespace HeaderType

variable {T : Type}

/-- What `Packet` needs to know about the type. -/
def endOffset (H : HeaderType T) : EndOffset :=
  { size := H.size, offset := fun memory => H.offset (H.ofBytes memory) }

/-- A header to push. -/
def layer (H : HeaderType T) (h : T) : Layer := { header := H.endOffset, bytes := H.bytes h }

/-- A header whose `offset` is the size of its struct. -/
theorem plain (H : HeaderType T) {h : T} (hsize : H.offset h = H.size) : (H.layer h).Plain where
  length_eq := H.length_bytes h
  offset_eq := fun rest => by
    show H.offset (H.ofBytes (H.bytes h ++ rest)) = H.size
    rw [H.ofBytes_bytes, hsize]
  pos := H.size_pos

end HeaderType

/-! ## MAC -/

structure MacAddress where
  addr : Vector UInt8 6
  deriving DecidableEq, Repr

/-- The address at a position in memory. -/
def MacAddress.addrAt (memory : List UInt8) (i : Nat) : MacAddress :=
  { addr := Vector.ofFn fun j => memory.getD (i + j) 0 }

theorem MacAddress.addrAt_append (before : List UInt8) (a : MacAddress) (rest : List UInt8) :
    addrAt (before ++ (a.addr.toList ++ rest)) before.length = a := by
  obtain ⟨addr⟩ := a
  rw [addrAt, MacAddress.mk.injEq]
  apply Vector.ext
  intro j hj
  rw [Vector.getElem_ofFn, List.getD_eq_getElem?_getD, List.getElem?_append_right (by omega),
    Nat.add_sub_cancel_left, List.getElem?_append_left (by simpa using hj)]
  simp [hj]

structure MacHeader where
  dst : MacAddress
  src : MacAddress
  etype : UInt16
  deriving DecidableEq, Repr

namespace MacHeader

/-- `MacHeader::new`. -/
def new : MacHeader :=
  { dst := { addr := .replicate 6 0 }, src := { addr := .replicate 6 0 }, etype := 0 }

/-- `etype`, the method; the member has the same name. -/
def getEtype (h : MacHeader) : UInt16 := swap16 h.etype

def setEtype (h : MacHeader) (etype : UInt16) : MacHeader := { h with etype := swap16 etype }

/-- `HDR_SIZE`. -/
def hdrSize : Nat := 14

/-- `HDR_SIZE_802_1Q`. -/
def hdrSize8021Q : Nat := hdrSize + 4

/-- `HDR_SIZE_802_1AD`. -/
def hdrSize8021AD : Nat := hdrSize8021Q + 4

/-- `EndOffset::offset`. The type is compared as it lies in memory. -/
def offset (h : MacHeader) : Nat :=
  if h.etype = 0x8100 then hdrSize8021Q
  else if h.etype = 0x9100 then hdrSize8021AD
  else hdrSize

def bytes (h : MacHeader) : List UInt8 :=
  h.dst.addr.toList ++ (h.src.addr.toList ++ leBytes16 h.etype)

def ofBytes (memory : List UInt8) : MacHeader :=
  { dst := .addrAt memory 0, src := .addrAt memory 6, etype := leHalfAt memory 12 }

theorem ofBytes_bytes (h : MacHeader) (rest : List UInt8) : ofBytes (h.bytes ++ rest) = h := by
  have hdst : MacAddress.addrAt (h.bytes ++ rest) 0 = h.dst := by
    rw [bytes, List.append_assoc]
    exact MacAddress.addrAt_append [] h.dst _
  have hsrc : MacAddress.addrAt (h.bytes ++ rest) 6 = h.src := by
    have := MacAddress.addrAt_append h.dst.addr.toList h.src (leBytes16 h.etype ++ rest)
    rw [Vector.length_toList] at this
    rw [bytes, List.append_assoc, List.append_assoc]
    exact this
  have hetype : leHalfAt (h.bytes ++ rest) 12 = h.etype := by
    have hdrop : (h.bytes ++ rest).drop 12 = leBytes16 h.etype ++ rest := by
      rw [bytes, ← List.append_assoc, List.append_assoc]
      exact List.drop_left' (by simp)
    have := leHalfAt_leBytes16 h.etype rest
    rwa [leHalfAt, List.drop_zero, ← hdrop] at this
  rw [ofBytes, hdst, hsrc, hetype]

end MacHeader

/-- `EndOffset for MacHeader`. -/
def macHeader : HeaderType MacHeader where
  size := MacHeader.hdrSize
  offset := MacHeader.offset
  bytes := MacHeader.bytes
  ofBytes := MacHeader.ofBytes
  size_pos := by decide
  length_bytes := fun h => by simp [MacHeader.bytes, leBytes16, MacHeader.hdrSize]
  ofBytes_bytes := MacHeader.ofBytes_bytes

/-! ## IP -/

theorem IpHeader.ofBytes_bytes (h : IpHeader) (rest : List UInt8) :
    ofBytes (h.bytes ++ rest) = h := by
  -- each word is the first one of what is left behind the words before it
  have hword (x : UInt32) (after : List UInt8) : leWordAt (leBytes x ++ after) 0 = x :=
    leWordAt_leBytes x after
  have h₀ : leWordAt (h.bytes ++ rest) 0 = h.versionToLen := hword h.versionToLen _
  have h₁ : leWordAt (h.bytes ++ rest) 4 = h.idToFoffset := hword h.idToFoffset _
  have h₂ : leWordAt (h.bytes ++ rest) 8 = h.ttlToCsum := hword h.ttlToCsum _
  have h₃ : leWordAt (h.bytes ++ rest) 12 = h.srcIp := hword h.srcIp _
  have h₄ : leWordAt (h.bytes ++ rest) 16 = h.dstIp := hword h.dstIp _
  rw [ofBytes, h₀, h₁, h₂, h₃, h₄]

/-- `EndOffset for IpHeader`. -/
def ipHeader : HeaderType IpHeader where
  size := IpHeader.size
  offset := IpHeader.offset
  bytes := IpHeader.bytes
  ofBytes := IpHeader.ofBytes
  size_pos := by decide
  length_bytes := fun _ => rfl
  ofBytes_bytes := IpHeader.ofBytes_bytes

/-! ## TCP -/

structure TcpHeader where
  srcPort : UInt16
  dstPort : UInt16
  seq : UInt32
  ack : UInt32
  offsetToNs : UInt8
  flags : UInt8
  window : UInt16
  csum : UInt16
  urgent : UInt16
  deriving DecidableEq, Repr

namespace TcpHeader

def dataOffset (h : TcpHeader) : UInt8 := (h.offsetToNs &&& 0xf0) >>> 4

/-- `EndOffset::offset`. -/
def offset (h : TcpHeader) : Nat := (h.dataOffset * 4).toNat

/-- `EndOffset::size`. -/
def size : Nat := 20

def bytes (h : TcpHeader) : List UInt8 :=
  leBytes16 h.srcPort ++ (leBytes16 h.dstPort ++ (leBytes h.seq ++ (leBytes h.ack ++
    ([h.offsetToNs, h.flags] ++ (leBytes16 h.window ++ (leBytes16 h.csum ++ leBytes16 h.urgent))))))

def ofBytes (memory : List UInt8) : TcpHeader :=
  { srcPort := leHalfAt memory 0
    dstPort := leHalfAt memory 2
    seq := leWordAt memory 4
    ack := leWordAt memory 8
    offsetToNs := memory.getD 12 0
    flags := memory.getD 13 0
    window := leHalfAt memory 14
    csum := leHalfAt memory 16
    urgent := leHalfAt memory 18 }

theorem ofBytes_bytes (h : TcpHeader) (rest : List UInt8) : ofBytes (h.bytes ++ rest) = h := by
  have hword (x : UInt32) (after : List UInt8) : leWordAt (leBytes x ++ after) 0 = x :=
    leWordAt_leBytes x after
  have hhalf (x : UInt16) (after : List UInt8) : leHalfAt (leBytes16 x ++ after) 0 = x :=
    leHalfAt_leBytes16 x after
  have h₀ : leHalfAt (h.bytes ++ rest) 0 = h.srcPort := hhalf h.srcPort _
  have h₁ : leHalfAt (h.bytes ++ rest) 2 = h.dstPort := hhalf h.dstPort _
  have h₂ : leWordAt (h.bytes ++ rest) 4 = h.seq := hword h.seq _
  have h₃ : leWordAt (h.bytes ++ rest) 8 = h.ack := hword h.ack _
  have h₄ : leHalfAt (h.bytes ++ rest) 14 = h.window := hhalf h.window _
  have h₅ : leHalfAt (h.bytes ++ rest) 16 = h.csum := hhalf h.csum _
  have h₆ : leHalfAt (h.bytes ++ rest) 18 = h.urgent := hhalf h.urgent _
  rw [ofBytes, h₀, h₁, h₂, h₃, h₄, h₅, h₆]
  rfl

end TcpHeader

/-- `EndOffset for TcpHeader`. -/
def tcpHeader : HeaderType TcpHeader where
  size := TcpHeader.size
  offset := TcpHeader.offset
  bytes := TcpHeader.bytes
  ofBytes := TcpHeader.ofBytes
  size_pos := by decide
  length_bytes := fun _ => rfl
  ofBytes_bytes := TcpHeader.ofBytes_bytes

/-! ## UDP -/

structure UdpHeader where
  srcPort : UInt16
  dstPort : UInt16
  len : UInt16
  csum : UInt16
  deriving DecidableEq, Repr

namespace UdpHeader

/-- `EndOffset::offset`. -/
def offset (_h : UdpHeader) : Nat := 8

/-- `EndOffset::size`. -/
def size : Nat := 8

def bytes (h : UdpHeader) : List UInt8 :=
  leBytes16 h.srcPort ++ (leBytes16 h.dstPort ++ (leBytes16 h.len ++ leBytes16 h.csum))

def ofBytes (memory : List UInt8) : UdpHeader :=
  { srcPort := leHalfAt memory 0
    dstPort := leHalfAt memory 2
    len := leHalfAt memory 4
    csum := leHalfAt memory 6 }

theorem ofBytes_bytes (h : UdpHeader) (rest : List UInt8) : ofBytes (h.bytes ++ rest) = h := by
  have hhalf (x : UInt16) (after : List UInt8) : leHalfAt (leBytes16 x ++ after) 0 = x :=
    leHalfAt_leBytes16 x after
  have h₀ : leHalfAt (h.bytes ++ rest) 0 = h.srcPort := hhalf h.srcPort _
  have h₁ : leHalfAt (h.bytes ++ rest) 2 = h.dstPort := hhalf h.dstPort _
  have h₂ : leHalfAt (h.bytes ++ rest) 4 = h.len := hhalf h.len _
  have h₃ : leHalfAt (h.bytes ++ rest) 6 = h.csum := hhalf h.csum _
  rw [ofBytes, h₀, h₁, h₂, h₃]

end UdpHeader

/-- `EndOffset for UdpHeader`. -/
def udpHeader : HeaderType UdpHeader where
  size := UdpHeader.size
  offset := UdpHeader.offset
  bytes := UdpHeader.bytes
  ofBytes := UdpHeader.ofBytes
  size_pos := by decide
  length_bytes := fun _ => rfl
  ofBytes_bytes := UdpHeader.ofBytes_bytes

/-! ## What `offset` reads -/

/-- The `offset` of every header reads its own bytes only: the type of a MAC header, the
first word of an IP header, one byte of a TCP header, nothing of a UDP header. -/
theorem endOffset_local : macHeader.endOffset.Local ∧ ipHeader.endOffset.Local ∧
    tcpHeader.endOffset.Local ∧ udpHeader.endOffset.Local := by
  refine ⟨fun memory => ?_, fun memory => ?_, fun memory => ?_, fun memory => rfl⟩
  · have hetype : leHalfAt (memory.take 14) 12 = leHalfAt memory 12 := leHalfAt_take (by decide)
    show MacHeader.offset (MacHeader.ofBytes (memory.take 14)) = _
    rw [MacHeader.offset, MacHeader.ofBytes, hetype]
    rfl
  · have hword : leWordAt (memory.take 20) 0 = leWordAt memory 0 := leWordAt_take (by decide)
    show IpHeader.offset (IpHeader.ofBytes (memory.take 20)) = _
    rw [IpHeader.offset, IpHeader.ofBytes, hword]
    rfl
  · have hbyte : (memory.take 20).getD 12 0 = memory.getD 12 0 := by
      rw [List.getD_eq_getElem?_getD, List.getD_eq_getElem?_getD,
        List.getElem?_take_of_lt (by decide)]
    show TcpHeader.offset (TcpHeader.ofBytes (memory.take 20)) = _
    rw [TcpHeader.offset, TcpHeader.dataOffset, TcpHeader.ofBytes, hbyte]
    rfl

end NetBricks.Headers
