import NetBricks.Lib.Fields
import NetBricks.Lib.Word

/-!
# The IPv4 header

`IpHeader` of `src/framework/src/headers/ip.rs`: five packed 32-bit words that lie
over the bytes of the header, read and written on a little-endian machine. A field
is cut out of its word with a mask and a shift (`readField`, `writeField`), and the
fields of two bytes or more are swapped to the order of the wire.

Mirroring notes:

* `flags` shifts before it masks, `version` casts before it shifts, and the two
  functions for the fragment offset are written differently from all others; they
  keep their own bodies.
* `offset` is the one of a build without the `performance` feature, which is not
  among the default features.
-/

namespace NetBricks.Headers

open Lib

/-- `IpHeader`. -/
structure IpHeader where
  versionToLen : UInt32
  idToFoffset : UInt32
  ttlToCsum : UInt32
  srcIp : UInt32
  dstIp : UInt32
  deriving DecidableEq, Repr

namespace IpHeader

/-- `IpHeader::new`. -/
def new : IpHeader :=
  { versionToLen := 0, idToFoffset := 0, ttlToCsum := 0, srcIp := 0, dstIp := 0 }

/-- The words of the header in the order they lie in memory. -/
def words (h : IpHeader) : List UInt32 :=
  [h.versionToLen, h.idToFoffset, h.ttlToCsum, h.srcIp, h.dstIp]

/-- The header as it lies in memory. -/
def bytes (h : IpHeader) : List UInt8 := h.words.flatMap leBytes

/-- The header that lies over the bytes at its address. -/
def ofBytes (memory : List UInt8) : IpHeader :=
  { versionToLen := leWordAt memory 0
    idToFoffset := leWordAt memory 4
    ttlToCsum := leWordAt memory 8
    srcIp := leWordAt memory 12
    dstIp := leWordAt memory 16 }

def src (h : IpHeader) : UInt32 := swap32 h.srcIp

def setSrc (h : IpHeader) (src : UInt32) : IpHeader := { h with srcIp := swap32 src }

def dst (h : IpHeader) : UInt32 := swap32 h.dstIp

def setDst (h : IpHeader) (dst : UInt32) : IpHeader := { h with dstIp := swap32 dst }

def ttl (h : IpHeader) : UInt8 := (readField 0x000000ff 0 h.ttlToCsum).toUInt8

def setTtl (h : IpHeader) (ttl : UInt8) : IpHeader :=
  { h with ttlToCsum := writeField 0x000000ff 0 ttl.toUInt32 h.ttlToCsum }

def protocol (h : IpHeader) : UInt8 := (readField 0xff00 8 h.ttlToCsum).toUInt8

def setProtocol (h : IpHeader) (protocol : UInt8) : IpHeader :=
  { h with ttlToCsum := writeField 0xff00 8 protocol.toUInt32 h.ttlToCsum }

/-- `csum`, which does not swap the bytes that `set_csum` swaps. -/
def csum (h : IpHeader) : UInt16 := (readField 0xffff0000 16 h.ttlToCsum).toUInt16

def setCsum (h : IpHeader) (csum : UInt16) : IpHeader :=
  { h with ttlToCsum := writeField 0xffff0000 16 (swap16 csum).toUInt32 h.ttlToCsum }

def id (h : IpHeader) : UInt16 := swap16 (readField 0xffff 0 h.idToFoffset).toUInt16

def setId (h : IpHeader) (id : UInt16) : IpHeader :=
  { h with idToFoffset := writeField 0xffff 0 (swap16 id).toUInt32 h.idToFoffset }

def flags (h : IpHeader) : UInt8 :=
  let flagFragment := (h.idToFoffset >>> 21).toUInt16
  (flagFragment &&& 0x7).toUInt8

def setFlags (h : IpHeader) (flags : UInt8) : IpHeader :=
  { h with idToFoffset := writeField 0x00e00000 21 (flags &&& 0x7).toUInt32 h.idToFoffset }

/-- `fragment_offset`. It takes the low half of the word, where the id is. -/
def fragmentOffset (h : IpHeader) : UInt16 :=
  let flagFragment := (h.idToFoffset &&& 0xffff).toUInt16
  swap16 ((flagFragment &&& ~~~0xe) >>> 3)

/-- `set_fragment_offset`, in the order of the wire and without a mask on `offset`. -/
def setFragmentOffset (h : IpHeader) (offset : UInt16) : IpHeader :=
  let idToOffsetLe := swap32 h.idToFoffset
  { h with idToFoffset := swap32 (idToOffsetLe &&& ~~~0x1fff ||| offset.toUInt32) }

def version (h : IpHeader) : UInt8 := (h.versionToLen &&& 0xf0).toUInt8 >>> 4

def setVersion (h : IpHeader) (version : UInt8) : IpHeader :=
  { h with versionToLen := writeField 0xf0 4 (version &&& 0xf).toUInt32 h.versionToLen }

def ihl (h : IpHeader) : UInt8 := (readField 0x0f 0 h.versionToLen).toUInt8

def setIhl (h : IpHeader) (ihl : UInt8) : IpHeader :=
  { h with versionToLen := writeField 0x0f 0 (ihl &&& 0x0f).toUInt32 h.versionToLen }

def dscp (h : IpHeader) : UInt8 := (readField 0xfc00 10 h.versionToLen).toUInt8

def setDscp (h : IpHeader) (dscp : UInt8) : IpHeader :=
  { h with versionToLen := writeField 0xfc00 10 (dscp &&& 0x3f).toUInt32 h.versionToLen }

def ecn (h : IpHeader) : UInt8 := (readField 0x0300 8 h.versionToLen).toUInt8

def setEcn (h : IpHeader) (ecn : UInt8) : IpHeader :=
  { h with versionToLen := writeField 0x0300 8 (ecn &&& 0x03).toUInt32 h.versionToLen }

def length (h : IpHeader) : UInt16 := swap16 (readField 0xffff0000 16 h.versionToLen).toUInt16

def setLength (h : IpHeader) (len : UInt16) : IpHeader :=
  { h with versionToLen := writeField 0xffff0000 16 (swap16 len).toUInt32 h.versionToLen }

/-- `EndOffset::size`. -/
def size : Nat := 20

/-- `EndOffset::offset`. -/
def offset (h : IpHeader) : Nat := h.ihl.toNat * 4

/-- `payload_size`, of a header whose `offset` is the given one. -/
def payloadSize (h : IpHeader) (offset _hint : Nat) : Outcome Nat :=
  checkedSub h.length.toNat offset

/-- The bytes of the header that lies over memory are those it lies over. -/
theorem bytes_ofBytes {memory : List UInt8} (h : 20 ≤ memory.length) :
    (ofBytes memory).bytes = memory.take 20 := by
  have hrows : memory.take 20 = memory.take 4 ++ ((memory.drop 4).take 4 ++ ((memory.drop 8).take 4
      ++ ((memory.drop 12).take 4 ++ (memory.drop 16).take 4))) := by
    rw [show 20 = 4 + (4 + (4 + (4 + 4))) from rfl, List.take_add, List.take_add, List.take_add,
      List.take_add, List.drop_drop, List.drop_drop, List.drop_drop]
  simp only [bytes, words, ofBytes, List.flatMap_cons, List.flatMap_nil, List.append_nil]
  rw [leBytes_leWordAt (by omega), leBytes_leWordAt (by omega), leBytes_leWordAt (by omega),
    leBytes_leWordAt (by omega), leBytes_leWordAt (by omega), List.drop_zero, hrows]

end IpHeader

end NetBricks.Headers
