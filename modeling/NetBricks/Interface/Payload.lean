import NetBricks.Headers.HeaderType
import NetBricks.Interface.Metadata

/-!
# Moving the payload of a packet

The functions of `src/framework/src/interface/packet.rs` that move bytes inside a
frame or write into the payload: `push_header`, `remove_from_payload_head`,
`add_to_payload_head` and `write_header`, with `remove_data_beginning` of
`native/zcsi/mbuf.rs`. What each is for is stated in terms of the frame (`Inserted`,
`HeadRemoved`, `HeadAdded`, `WritesInside`); each does it only in part:

* `push_header` moves the payload with `copy_nonoverlapping` by the length of the new
  header, so the two ranges overlap unless the payload is no longer than that;
* `remove_from_payload_head` shifts the start of the frame, not of the payload, and
  reports success whatever the size;
* `add_to_payload_head` moves `size` bytes of the payload, not all of it;
* `write_header` checks where the header starts, not where it ends.

Mirroring notes:

* A `Copy` is a call of `copy_nonoverlapping` by data offsets. The model copies what
  was at the source when the call began, so what the source does with overlapping
  ranges is not said; `Copy.Disjoint` is what the call asks for.
* A copy that leaves the buffer has no meaning in the source; the model stops there.
* The header pointer is a field of the source's `Packet`: it is the one of
  `Packet.raw`.
-/

namespace NetBricks.Interface

open Lib
open Lib.Outcome

/-! ## Copies inside an mbuf -/

/-- A call of `copy_nonoverlapping` inside an mbuf. -/
structure Copy where
  src : Nat
  dst : Nat
  len : Nat
  deriving DecidableEq, Repr

/-- The two ranges do not overlap. -/
def Copy.Disjoint (c : Copy) : Prop := c.src + c.len ≤ c.dst ∨ c.dst + c.len ≤ c.src

instance (c : Copy) : Decidable c.Disjoint := inferInstanceAs (Decidable (_ ∨ _))

namespace MBuf

/-- Perform a copy. -/
def copy (m : MBuf) (c : Copy) : Outcome MBuf :=
  if m.dataOff + c.src + c.len ≤ m.buf.length then m.write c.dst (m.read c.src c.len)
  else .panic .slice

/-- `remove_data_beginning`. -/
def removeDataBeginning (m : MBuf) (len : Nat) : Outcome (Nat × MBuf) :=
  if len > m.dataLen then .ok (0, m)
  else do
    let pktLen ← checkedSub m.pktLen len
    .ok (len, { m with dataOff := m.dataOff + len, dataLen := m.dataLen - len, pktLen := pktLen })

end MBuf

namespace Packet

/-- Where the payload starts in the frame. -/
def payloadStart (p : Packet) (m : MBuf) : Nat := p.offset + p.payloadOffset m

/-- The copy of `push_header`, if there is anything to move. -/
def pushHeaderCopies (p : Packet) (header : EndOffset) (hdr : List UInt8) (m : MBuf) : List Copy :=
  let offset := p.payloadStart m
  if m.dataLen ≠ offset then
    [{ src := offset, dst := offset + header.offset hdr, len := m.dataLen - offset }]
  else []

/-- `remove_from_payload_head`. -/
def removeFromPayloadHead (_p : Packet) (size : Nat) (m : MBuf) :
    Outcome (Except ErrorKind Unit × MBuf) := do
  let m ← m.copy { src := 0, dst := size, len := size }
  let (_, m) ← m.removeDataBeginning size
  .ok (.ok (), m)

/-- `add_to_payload_head`. -/
def addToPayloadHead (p : Packet) (size : Nat) (m : MBuf) :
    Outcome (Except ErrorKind Unit × MBuf) := do
  let (added, m) ← m.addDataEnd size
  if added ≥ size then
    let src := p.payloadStart m
    let m ← m.copy { src := src, dst := src + size, len := size }
    .ok (.ok (), m)
  else .ok (.error .failedAllocation, m)

/-- `write_header`, of a header given by its bytes. -/
def writeHeader (p : Packet) (hdr : List UInt8) (offset : Nat) (m : MBuf) :
    Outcome (Except ErrorKind Unit × MBuf) := do
  let size ← p.payloadSize m
  if offset > size then .ok (.error (.badOffset offset), m)
  else
    let m ← m.write (p.payloadStart m + offset) hdr
    .ok (.ok (), m)

end Packet

/-- What is behind the start of the payload. -/
theorem Packet.payloadSize_eq_ok {p : Packet} {m : MBuf} {n : Nat} :
    p.payloadSize m = .ok n ↔ p.payloadStart m ≤ m.dataLen ∧ n = m.dataLen - p.payloadStart m := by
  unfold payloadSize payloadStart
  constructor
  · intro h
    obtain ⟨rest, hrest, h⟩ := bind_eq_ok.mp h
    obtain ⟨hoff, rfl⟩ := checkedSub_eq_ok.mp hrest
    obtain ⟨hpay, rfl⟩ := checkedSub_eq_ok.mp h
    omega
  · rintro ⟨hle, rfl⟩
    rw [checkedSub_of_le (by omega), bind_ok, checkedSub_of_le (by omega), Nat.sub_sub]

/-! ## Bytes by their place -/

namespace MBuf

/-- The byte at a data offset. -/
def byte (m : MBuf) (i : Nat) : Option UInt8 := m.buf[m.dataOff + i]?

theorem getElem?_frame (m : MBuf) (i : Nat) :
    m.frame[i]? = if i < m.dataLen then m.byte i else none := by
  rw [frame, List.getElem?_take, List.getElem?_drop]
  rfl

theorem getElem?_read (m : MBuf) (offset n i : Nat) :
    (m.read offset n)[i]? = if i < n then m.byte (offset + i) else none := by
  rw [read, List.getElem?_take, List.getElem?_drop, Nat.add_assoc]
  rfl

theorem length_read {m : MBuf} {offset n : Nat} (h : m.dataOff + offset + n ≤ m.buf.length) :
    (m.read offset n).length = n := by
  rw [read, List.length_take, List.length_drop]
  omega

/-- The bytes from `start` on are found `size` places further. -/
theorem drop_frame_moved {m m' : MBuf} {start size : Nat} (hlen : m'.dataLen = m.dataLen + size) :
    m'.frame.drop (start + size) = m.frame.drop start ↔
      ∀ i, start ≤ i → i < m.dataLen → m'.byte (i + size) = m.byte i := by
  constructor
  · intro h i hi hlt
    have hget := congrArg (·[i - start]?) h
    rwa [List.getElem?_drop, List.getElem?_drop, getElem?_frame, getElem?_frame, hlen,
      show start + size + (i - start) = i + size by omega, Nat.add_sub_cancel' hi, if_pos hlt,
      if_pos (by omega)] at hget
  · intro h
    apply List.ext_getElem?
    intro i
    rw [List.getElem?_drop, List.getElem?_drop, getElem?_frame, getElem?_frame, hlen,
      Nat.add_right_comm]
    by_cases hi : start + i < m.dataLen
    · rw [if_pos (by omega), if_pos hi, h _ (Nat.le_add_right _ _) hi]
    · rw [if_neg (by omega), if_neg hi]

/-- `m'` is `m` but for the bytes of its buffer: the data lies where it did, so all offsets and
lengths that a packet computes from them are the same. -/
structure SameShape (m m' : MBuf) : Prop where
  bufAddr_eq : m'.bufAddr = m.bufAddr
  dataOff_eq : m'.dataOff = m.dataOff
  dataLen_eq : m'.dataLen = m.dataLen
  pktLen_eq : m'.pktLen = m.pktLen
  length_eq : m'.buf.length = m.buf.length

/-- A write shows at the places it was meant for. -/
theorem write_eq_ok {m m' : MBuf} {offset : Nat} {data : List UInt8}
    (h : m.write offset data = .ok m') :
    m.dataOff + offset + data.length ≤ m.buf.length ∧ SameShape m m' ∧
      ∀ i, m'.byte i =
        if offset ≤ i ∧ i < offset + data.length then data[i - offset]? else m.byte i := by
  rw [write] at h
  split at h
  next hfit =>
    cases h
    refine ⟨hfit, ⟨rfl, rfl, rfl, rfl, length_overwrite hfit⟩, fun i => ?_⟩
    show (overwrite m.buf (m.dataOff + offset) data)[m.dataOff + i]? = _
    rw [getElem?_overwrite hfit]
    by_cases hi : offset ≤ i ∧ i < offset + data.length
    · rw [if_pos hi, if_neg (by omega), if_pos (by omega), Nat.add_sub_add_left]
    · rw [if_neg hi, ite_eq_left_iff.mpr (fun _ => if_neg (by omega))]
      rfl
  next => cases h

/-- A copy to further on is performed if the place it goes to is in the buffer. -/
theorem copy_of_fits {m : MBuf} {c : Copy} (hle : c.src ≤ c.dst)
    (hfit : m.dataOff + c.dst + c.len ≤ m.buf.length) : ∃ m', m.copy c = .ok m' := by
  have hsrc : m.dataOff + c.src + c.len ≤ m.buf.length := by omega
  refine ⟨_, (if_pos hsrc).trans (if_pos ?_)⟩
  rwa [length_read hsrc]

/-- A copy shows at the places it was meant for too. -/
theorem copy_eq_ok {m m' : MBuf} {c : Copy} (h : m.copy c = .ok m') :
    m.dataOff + c.dst + c.len ≤ m.buf.length ∧ SameShape m m' ∧
      ∀ i, m'.byte i =
        if c.dst ≤ i ∧ i < c.dst + c.len then m.byte (c.src + (i - c.dst)) else m.byte i := by
  rw [copy] at h
  split at h
  next hsrc =>
    have hlen := length_read hsrc
    obtain ⟨hfit, hshape, hbyte⟩ := write_eq_ok h
    rw [hlen] at hfit
    refine ⟨hfit, hshape, fun i => ?_⟩
    rw [hbyte i, hlen]
    by_cases hi : c.dst ≤ i ∧ i < c.dst + c.len
    · rw [if_pos hi, if_pos hi, getElem?_read, if_pos (by omega)]
    · rw [if_neg hi, if_neg hi]
  next => cases h

theorem addDataEnd_eq_ok {m m' : MBuf} {len n : Nat} (h : m.addDataEnd len = .ok (n, m')) :
    (n < len ∧ m' = m) ∨
      (n = len ∧ m' = m.grow len ∧ m.dataOff + m.dataLen + len ≤ m.buf.length) := by
  rw [addDataEnd] at h
  obtain ⟨tailroom, hroom, h⟩ := bind_eq_ok.mp h
  split at h
  next hlt =>
    cases h
    exact .inl ⟨by omega, rfl⟩
  next hle =>
    cases h
    rw [pktTailroom] at hroom
    obtain ⟨behind, hbehind, hroom⟩ := bind_eq_ok.mp hroom
    obtain ⟨hoff, rfl⟩ := checkedSub_eq_ok.mp hbehind
    obtain ⟨hlen, rfl⟩ := checkedSub_eq_ok.mp hroom
    exact .inr ⟨rfl, rfl, by omega⟩

end MBuf

/-! ## Pushing a header -/

/-- `m'` is `m` with the header between the current one and the payload. -/
structure Packet.Inserted (p : Packet) (hdr : List UInt8) (m m' : MBuf) : Prop where
  frame_eq : m'.frame = m.frame.take (p.payloadStart m) ++ (hdr ++ m.frame.drop (p.payloadStart m))
  dataLen_eq : m'.dataLen = m.dataLen + hdr.length

namespace Packet

/-- `push_header` returns nothing and leaves the mbuf, or makes room at the end, moves
the payload there and writes the header over the gap. -/
theorem pushHeader_eq_ok {p : Packet} {header : EndOffset} {hdr : List UInt8} {m m' : MBuf}
    {q : Option Packet} (h : p.pushHeader header hdr m = .ok (q, m')) :
    (q = none ∧ m' = m) ∨
      (q = some { mbuf := p.mbuf, header := header, offset := p.payloadStart m } ∧
        p.payloadStart m ≤ m.dataLen ∧
        ∃ m₁, (p.pushHeaderCopies header hdr m).foldlM MBuf.copy (m.grow (header.offset hdr)) =
            .ok m₁ ∧ m₁.write (p.payloadStart m) hdr = .ok m') := by
  rw [pushHeader] at h
  obtain ⟨⟨added, m₀⟩, hadd, h⟩ := bind_eq_ok.mp h
  dsimp only at h
  rcases MBuf.addDataEnd_eq_ok hadd with ⟨hlt, rfl⟩ | ⟨rfl, rfl, hroom⟩
  · rw [if_neg (by omega)] at h
    cases h
    exact .inl ⟨rfl, rfl⟩
  · have hstart : p.offset + p.payloadOffset (m.grow (header.offset hdr)) = p.payloadStart m := rfl
    rw [if_pos (Nat.le_refl _), hstart] at h
    by_cases hend : m.dataLen ≠ p.payloadStart m
    · rw [if_pos hend] at h
      obtain ⟨toMove, hsub, h⟩ := bind_eq_ok.mp h
      obtain ⟨m₁, hmove, h⟩ := bind_eq_ok.mp h
      obtain ⟨m₂, hwrite, h⟩ := bind_eq_ok.mp h
      cases h
      obtain ⟨hle, rfl⟩ := checkedSub_eq_ok.mp hsub
      have hsrc : m.dataOff + p.payloadStart m + (m.dataLen - p.payloadStart m) ≤ m.buf.length := by
        omega
      refine .inr ⟨rfl, hle, m₁, ?_, hwrite⟩
      rw [pushHeaderCopies, if_pos hend, List.foldlM_cons]
      exact bind_eq_ok.mpr ⟨m₁, (if_pos hsrc).trans hmove, rfl⟩
    · rw [if_neg hend, bind_ok] at h
      obtain ⟨m₂, hwrite, h⟩ := bind_eq_ok.mp h
      cases h
      refine .inr ⟨rfl, by omega, _, ?_, hwrite⟩
      rw [pushHeaderCopies, if_neg hend]
      rfl

/-- Every byte of the packet after the moves of `push_header`. -/
theorem byte_pushHeaderCopies {p : Packet} {header : EndOffset} {hdr : List UInt8} {m m₁ : MBuf}
    (hle : p.payloadStart m ≤ m.dataLen)
    (h : (p.pushHeaderCopies header hdr m).foldlM MBuf.copy (m.grow (header.offset hdr)) =
      .ok m₁) :
    MBuf.SameShape (m.grow (header.offset hdr)) m₁ ∧
      ∀ i, i < m.dataLen + header.offset hdr → m₁.byte i =
        if p.payloadStart m + header.offset hdr ≤ i then m.byte (i - header.offset hdr)
        else m.byte i := by
  by_cases hend : m.dataLen ≠ p.payloadStart m
  · rw [pushHeaderCopies, if_pos hend, List.foldlM_cons] at h
    obtain ⟨m₂, hcopy, h⟩ := bind_eq_ok.mp h
    cases h
    obtain ⟨-, hshape, hbyte⟩ := MBuf.copy_eq_ok hcopy
    refine ⟨hshape, fun i hi => ?_⟩
    rw [hbyte i]
    dsimp only
    by_cases hmoved : p.payloadStart m + header.offset hdr ≤ i
    · rw [if_pos hmoved, if_pos (by omega), show p.payloadStart m +
        (i - (p.payloadStart m + header.offset hdr)) = i - header.offset hdr by omega]
      rfl
    · rw [if_neg hmoved, if_neg (by omega)]
      rfl
  · rw [pushHeaderCopies, if_neg hend] at h
    cases h
    refine ⟨⟨rfl, rfl, rfl, rfl, rfl⟩, fun i hi => ?_⟩
    rw [if_neg (by omega)]
    rfl

/-- With room of the right size, the header is inserted. -/
theorem inserted_of_pushHeader {p : Packet} {header : EndOffset} {hdr : List UInt8} {m m₁ m' : MBuf}
    (hin : m.Inside) (hle : p.payloadStart m ≤ m.dataLen) (hsize : header.offset hdr = hdr.length)
    (hmove : (p.pushHeaderCopies header hdr m).foldlM MBuf.copy (m.grow (header.offset hdr)) =
      .ok m₁) (hwrite : m₁.write (p.payloadStart m) hdr = .ok m') : p.Inserted hdr m m' := by
  obtain ⟨hshape, hmoved⟩ := byte_pushHeaderCopies hle hmove
  obtain ⟨-, hshape', hbyte⟩ := MBuf.write_eq_ok hwrite
  have hlen : m'.dataLen = m.dataLen + hdr.length := by
    rw [hshape'.dataLen_eq, hshape.dataLen_eq, ← hsize]
    rfl
  refine ⟨?_, hlen⟩
  apply List.ext_getElem?
  intro i
  rw [getElem?_inserted (by rw [MBuf.length_frame hin]; exact hle), MBuf.getElem?_frame,
    MBuf.getElem?_frame, MBuf.getElem?_frame, hlen]
  by_cases hi : i < m.dataLen + hdr.length
  · rw [if_pos hi, hbyte i, hmoved i (by omega), hsize]
    by_cases hbefore : i < p.payloadStart m
    · rw [if_neg (by omega), if_neg (by omega), if_pos hbefore, if_pos (by omega)]
    · by_cases hnew : i < p.payloadStart m + hdr.length
      · rw [if_pos (by omega), if_neg hbefore, if_pos hnew]
      · rw [if_neg (by omega), if_pos (by omega), if_neg hbefore, if_neg hnew, if_pos (by omega)]
  · rw [if_neg hi, if_neg (by omega), if_neg (by omega), if_neg (by omega)]

theorem disjoint_pushHeaderCopies {p : Packet} {header : EndOffset} {hdr : List UInt8} {m : MBuf}
    (hle : p.payloadStart m ≤ m.dataLen) :
    (∀ c ∈ p.pushHeaderCopies header hdr m, c.Disjoint) ↔
      m.dataLen - p.payloadStart m ≤ header.offset hdr := by
  by_cases hend : m.dataLen ≠ p.payloadStart m
  · rw [pushHeaderCopies, if_pos hend, List.forall_mem_singleton, Copy.Disjoint]
    dsimp only
    omega
  · rw [pushHeaderCopies, if_neg hend]
    exact ⟨fun _ => by omega, fun _ => by nofun⟩

/-- `push_header` inserts the header, moving bytes between ranges that are disjoint,
exactly when the header's own `offset` is the size of its struct and the payload is no
longer than that. It changes nothing when it returns `None`. -/
theorem pushHeader_inserts_iff {p : Packet} {header : EndOffset} {hdr : List UInt8} {m : MBuf}
    (hin : m.Inside) :
    (∀ q m', p.pushHeader header hdr m = .ok (some q, m') →
      (p.Inserted hdr m m' ∧ (∀ c ∈ p.pushHeaderCopies header hdr m, c.Disjoint) ↔
        header.offset hdr = hdr.length ∧ m.dataLen - p.payloadStart m ≤ hdr.length)) ∧
    ∀ m', p.pushHeader header hdr m = .ok (none, m') → m' = m := by
  constructor
  · intro q m' h
    rcases pushHeader_eq_ok h with ⟨hq, -⟩ | ⟨-, hle, m₁, hmove, hwrite⟩
    · cases hq
    · rw [disjoint_pushHeaderCopies hle]
      constructor
      · rintro ⟨hins, hdisj⟩
        have hshape := (byte_pushHeaderCopies hle hmove).1
        have hshape' := (MBuf.write_eq_ok hwrite).2.1
        have hgrow : m'.dataLen = m.dataLen + header.offset hdr := by
          rw [hshape'.dataLen_eq, hshape.dataLen_eq]
          rfl
        have hlen := hins.dataLen_eq
        exact ⟨by omega, by omega⟩
      · rintro ⟨hsize, hshort⟩
        exact ⟨inserted_of_pushHeader hin hle hsize hmove hwrite, by omega⟩
  · intro m' h
    rcases pushHeader_eq_ok h with ⟨-, rfl⟩ | ⟨hq, -⟩
    · rfl
    · cases hq

/-- A MAC header in front of a frame of as many bytes. -/
theorem pushHeader_inserts_mac :
    let m : MBuf :=
      { bufAddr := 0, buf := List.replicate 14 7 ++ List.replicate 24 0, dataOff := 0,
        dataLen := 14, slots := [] }
    let hdr := Headers.macHeader.bytes .new
    ∃ q m', (fromMbuf 0).pushHeader Headers.macHeader.endOffset hdr m = .ok (some q, m') ∧
      (fromMbuf 0).Inserted hdr m m' ∧
      ∀ c ∈ (fromMbuf 0).pushHeaderCopies Headers.macHeader.endOffset hdr m, c.Disjoint := by
  intro m hdr
  have hin : m.dataOff + m.dataLen ≤ m.buf.length := by decide
  exact ⟨_, _, rfl, ((pushHeader_inserts_iff hin).1 _ _ rfl).mpr (by decide)⟩

/-- A MAC header in front of 15 bytes: the ranges overlap in the last of them. -/
theorem pushHeader_overlaps :
    let m : MBuf :=
      { bufAddr := 0, buf := List.replicate 64 0, dataOff := 0, dataLen := 15, slots := [] }
    let hdr := Headers.macHeader.bytes .new
    (∃ q m', (fromMbuf 0).pushHeader Headers.macHeader.endOffset hdr m = .ok (some q, m')) ∧
      ¬ ∀ c ∈ (fromMbuf 0).pushHeaderCopies Headers.macHeader.endOffset hdr m, c.Disjoint :=
  ⟨⟨_, _, rfl⟩, by decide⟩

end Packet

/-! ## Removing the head of the payload -/

namespace MBuf

/-- The mbuf after a successful `remove_data_beginning`. -/
def advance (m : MBuf) (len : Nat) : MBuf :=
  { m with dataOff := m.dataOff + len, dataLen := m.dataLen - len, pktLen := m.pktLen - len }

theorem byte_advance (m : MBuf) (len i : Nat) : (m.advance len).byte i = m.byte (len + i) :=
  congrArg (fun j => m.buf[j]?) (Nat.add_assoc _ _ _)

theorem removeDataBeginning_eq_ok {m m' : MBuf} {len n : Nat}
    (h : m.removeDataBeginning len = .ok (n, m')) :
    (m.dataLen < len ∧ m' = m) ∨ (len ≤ m.dataLen ∧ m' = m.advance len) := by
  rw [removeDataBeginning] at h
  split at h
  next hlt =>
    cases h
    exact .inl ⟨hlt, rfl⟩
  next hle =>
    obtain ⟨pktLen, hsub, h⟩ := bind_eq_ok.mp h
    cases h
    obtain ⟨-, rfl⟩ := checkedSub_eq_ok.mp hsub
    exact .inr ⟨by omega, rfl⟩

end MBuf

namespace Packet

/-- `m'` is `m` without the first `size` bytes of the payload, and the header pointer
that the packet keeps is still the data address of its offset. -/
structure HeadRemoved (p : Packet) (size : Nat) (m m' : MBuf) : Prop where
  before_eq : m'.frame.take (p.payloadStart m) = m.frame.take (p.payloadStart m)
  payload_eq : m'.frame.drop (p.payloadStart m) = m.frame.drop (p.payloadStart m + size)
  raw_eq : p.raw m' = p.raw m

/-- What `remove_from_payload_head` is for: it takes what is there and refuses more. -/
structure RemovesHead (p : Packet) (size : Nat) (m : MBuf) (r : Except ErrorKind Unit)
    (m' : MBuf) : Prop where
  removed : p.payloadStart m + size ≤ m.dataLen → r = .ok () ∧ p.HeadRemoved size m m'
  refused : m.dataLen < p.payloadStart m + size → r ≠ .ok () ∧ m' = m

/-- `remove_from_payload_head` reports success. The frame loses its second `size` bytes:
the first ones are copied over them, and then the frame starts there. -/
theorem removeFromPayloadHead_eq_ok {p : Packet} {size : Nat} {m m' : MBuf}
    {r : Except ErrorKind Unit} (h : p.removeFromPayloadHead size m = .ok (r, m')) :
    r = .ok () ∧ (size ≤ m.dataLen → m'.bufAddr = m.bufAddr ∧ m'.dataOff = m.dataOff + size ∧
      m'.frame = (m.frame.take size ++ m.frame.drop (size + size)).take (m.dataLen - size)) := by
  rw [removeFromPayloadHead] at h
  obtain ⟨m₁, hcopy, h⟩ := bind_eq_ok.mp h
  obtain ⟨⟨removed, m₂⟩, hremove, h⟩ := bind_eq_ok.mp h
  cases h
  refine ⟨rfl, fun hle => ?_⟩
  obtain ⟨hroom, hshape, hbyte⟩ := MBuf.copy_eq_ok hcopy
  rcases MBuf.removeDataBeginning_eq_ok hremove with ⟨hlt, -⟩ | ⟨-, rfl⟩
  · rw [hshape.dataLen_eq] at hlt
    omega
  refine ⟨hshape.bufAddr_eq, congrArg (· + size) hshape.dataOff_eq, ?_⟩
  have hlen : (m₁.advance size).dataLen = m.dataLen - size :=
    congrArg (· - size) hshape.dataLen_eq
  have hfront : (m.frame.take size).length = size := by
    dsimp only at hroom
    rw [MBuf.frame, List.length_take, List.length_take, List.length_drop]
    omega
  apply List.ext_getElem?
  intro i
  rw [MBuf.getElem?_frame, hlen, MBuf.byte_advance, hbyte, List.getElem?_take]
  dsimp only
  by_cases hi : i < m.dataLen - size
  · rw [if_pos hi, if_pos hi]
    by_cases hmoved : i < size
    · rw [if_pos (by omega), List.getElem?_append_left (by omega), List.getElem?_take_of_lt hmoved,
        MBuf.getElem?_frame, if_pos (by omega), Nat.zero_add, Nat.add_sub_cancel_left]
    · rw [if_neg (by omega), List.getElem?_append_right (by omega), hfront, List.getElem?_drop,
        MBuf.getElem?_frame, if_pos (by omega)]
      congr 1
      omega
  · rw [if_neg hi, if_neg hi]

/-- `remove_from_payload_head` does what it is for exactly when there is nothing to do. -/
theorem removeFromPayloadHead_iff {p : Packet} {size : Nat} {m m' : MBuf}
    {r : Except ErrorKind Unit} (hparsed : p.payloadStart m ≤ m.dataLen)
    (h : p.removeFromPayloadHead size m = .ok (r, m')) :
    p.RemovesHead size m r m' ↔ size = 0 := by
  obtain ⟨hr, hmoved⟩ := removeFromPayloadHead_eq_ok h
  constructor
  · rintro ⟨hremoved, hrefused⟩
    by_cases hsize : p.payloadStart m + size ≤ m.dataLen
    · obtain ⟨haddr, hoff, -⟩ := hmoved (by omega)
      have hptr : m'.bufAddr + m'.dataOff + p.offset = m.bufAddr + m.dataOff + p.offset :=
        congrArg RawPacket.header (hremoved hsize).2.raw_eq
      omega
    · exact absurd hr (hrefused (by omega)).1
  · rintro rfl
    obtain ⟨haddr, hoff, hframe⟩ := hmoved (Nat.zero_le _)
    have hall : m.frame.take m.dataLen = m.frame :=
      List.take_of_length_le (List.length_take_le _ _)
    rw [List.take_zero, List.nil_append, List.drop_zero, Nat.sub_zero, hall] at hframe
    have hraw : p.raw m' = p.raw m := by
      rw [raw, raw, MBuf.dataAddress, MBuf.dataAddress, haddr, hoff, Nat.add_zero]
    refine ⟨fun _ => ⟨hr, ?_, ?_, hraw⟩, fun hlt => by omega⟩
    · rw [hframe]
    · rw [hframe, Nat.add_zero]

/-- 64 bytes, each its own place, of which the first `len` count. -/
def numbered (len : Nat) : MBuf :=
  { bufAddr := 0
    buf := (List.range 64).map UInt8.ofNat
    dataOff := 0
    dataLen := len
    slots := [] }

/-- The packet of a MAC header at the start of the frame. -/
def macPacket : Packet := { mbuf := 0, header := Headers.macHeader.endOffset, offset := 0 }

theorem removeFromPayloadHead_nothing :
    ∃ m', macPacket.removeFromPayloadHead 0 (numbered 22) = .ok (.ok (), m') ∧
      macPacket.RemovesHead 0 (numbered 22) (.ok ()) m' :=
  ⟨_, rfl, (removeFromPayloadHead_iff (by decide) rfl).mpr rfl⟩

/-- Two bytes of a payload of eight: the third and the fourth byte of the header are lost
instead, and the header pointer is two bytes in front of the header. Thirty bytes of 22
are reported as removed. -/
theorem removeFromPayloadHead_loses_header :
    (∃ m', macPacket.removeFromPayloadHead 2 (numbered 22) = .ok (.ok (), m') ∧
      macPacket.payloadStart (numbered 22) = 14 ∧
      (numbered 22).frame.take 14 = [0, 1, 2, 3, 4, 5, 6, 7, 8, 9, 10, 11, 12, 13] ∧
      m'.frame.take 14 = [0, 1, 4, 5, 6, 7, 8, 9, 10, 11, 12, 13, 14, 15] ∧
      (macPacket.raw m').header = (macPacket.raw (numbered 22)).header + 2) ∧
    ∃ m', macPacket.removeFromPayloadHead 30 (numbered 22) = .ok (.ok (), m') := by
  refine ⟨⟨_, rfl, ?_, ?_, ?_, rfl⟩, _, rfl⟩ <;> decide +kernel

end Packet

/-! ## Making room at the head of the payload -/

namespace Packet

/-- Where the current header ends in the frame: behind its struct, and where it says that
the payload starts. The two differ for a header with options, and for one that claims to be
shorter than its struct. -/
def headerEnd (p : Packet) (m : MBuf) : Nat := max (p.offset + p.header.size) (p.payloadStart m)

/-- `m'` has `size` bytes more between the current header and what was the payload. -/
structure HeadAdded (p : Packet) (size : Nat) (m m' : MBuf) : Prop where
  /-- The bytes up to the end of the current header are the same. -/
  before_eq : ∀ i, i < p.headerEnd m → m'.byte i = m.byte i
  payloadSize_eq : ∀ n, p.payloadSize m = .ok n → p.payloadSize m' = .ok (n + size)
  payload_eq : m'.frame.drop (p.payloadStart m + size) = m.frame.drop (p.payloadStart m)

/-- What `add_to_payload_head` is for: it comes back, and it has made the room or has left
the packet alone. A copy that leaves the buffer does not come back in the model. -/
structure AddsHead (p : Packet) (size : Nat) (m : MBuf)
    (x : Outcome (Except ErrorKind Unit × MBuf)) : Prop where
  returns : ∃ r m', x = .ok (r, m')
  added : ∀ m', x = .ok (.ok (), m') → p.HeadAdded size m m'
  refused : ∀ e m', x = .ok (.error e, m') → m' = m

/-- What the copy of `size` bytes by `size` bytes has to find to be enough. -/
structure CopyEnough (p : Packet) (size : Nat) (m : MBuf) : Prop where
  /-- The place it writes to is inside the buffer. -/
  inside : m.dataOff + p.payloadStart m + size + size ≤ m.buf.length
  /-- The part of the payload that is not copied is `size` places further already. -/
  rest_there : ∀ i, p.payloadStart m + size ≤ i → i < m.dataLen → m.byte (i + size) = m.byte i
  /-- The part of the current header that is written over gets the bytes it had. There is
  such a part only if the payload starts inside the struct of the header. -/
  header_kept : ∀ i, p.payloadStart m + size ≤ i → i < p.payloadStart m + size + size →
    i < p.offset + p.header.size → m.byte (i - size) = m.byte i

theorem addToPayloadHead_of_full {p : Packet} {size : Nat} {m : MBuf} (hin : m.Inside)
    (hfull : m.buf.length < m.dataOff + m.dataLen + size) :
    p.addToPayloadHead size m = .ok (.error .failedAllocation, m) := by
  unfold MBuf.Inside at hin
  rw [addToPayloadHead, MBuf.addDataEnd, MBuf.pktTailroom, checkedSub_of_le (by omega), bind_ok,
    checkedSub_of_le (by omega), bind_ok, if_pos (by omega), bind_ok]
  dsimp only
  rw [if_neg (by omega)]

theorem addToPayloadHead_of_room {p : Packet} {size : Nat} {m : MBuf}
    (hroom : m.dataOff + m.dataLen + size ≤ m.buf.length) :
    p.addToPayloadHead size m =
      (m.grow size).copy
        { src := p.payloadStart m, dst := p.payloadStart m + size, len := size } >>=
      fun m => .ok (.ok (), m) := by
  rw [addToPayloadHead, MBuf.addDataEnd_of_room hroom, bind_ok]
  dsimp only
  rw [if_pos (Nat.le_refl _)]
  rfl

/-- With room, a call that comes back has copied `size` bytes of the payload by `size`
bytes. -/
theorem addToPayloadHead_eq_ok {p : Packet} {size : Nat} {m m' : MBuf}
    {r : Except ErrorKind Unit} (hroom : m.dataOff + m.dataLen + size ≤ m.buf.length)
    (h : p.addToPayloadHead size m = .ok (r, m')) :
    r = .ok () ∧ m.dataOff + p.payloadStart m + size + size ≤ m.buf.length ∧
      m'.dataLen = m.dataLen + size ∧ ∀ i, m'.byte i =
        if p.payloadStart m + size ≤ i ∧ i < p.payloadStart m + size + size then m.byte (i - size)
        else m.byte i := by
  rw [addToPayloadHead_of_room hroom] at h
  obtain ⟨m₁, hcopy, hret⟩ := bind_eq_ok.mp h
  cases hret
  obtain ⟨hfit, hshape, hbyte⟩ := MBuf.copy_eq_ok hcopy
  refine ⟨rfl, ?_, hshape.dataLen_eq, fun i => ?_⟩
  · rwa [← Nat.add_assoc] at hfit
  · rw [hbyte i]
    dsimp only
    by_cases hi : p.payloadStart m + size ≤ i ∧ i < p.payloadStart m + size + size
    · rw [if_pos hi, if_pos hi,
        show p.payloadStart m + (i - (p.payloadStart m + size)) = i - size by omega]
      rfl
    · rw [if_neg hi, if_neg hi]
      rfl

/-- The current header says the same when its bytes stay. -/
theorem payloadOffset_congr {p : Packet} {m m' : MBuf} (hlocal : p.header.Local)
    (hbyte : ∀ i, i < p.offset + p.header.size → m'.byte i = m.byte i) :
    p.payloadOffset m' = p.payloadOffset m := by
  have hread : m'.read p.offset p.header.size = m.read p.offset p.header.size := by
    apply List.ext_getElem?
    intro i
    rw [MBuf.getElem?_read, MBuf.getElem?_read]
    by_cases hi : i < p.header.size
    · rw [if_pos hi, if_pos hi, hbyte _ (by omega)]
    · rw [if_neg hi, if_neg hi]
  rw [payloadOffset, payloadOffset, ← hlocal, ← hlocal (m.buf.drop _)]
  exact congrArg p.header.offset hread

/-- Where the copy is enough, the room has been made. -/
theorem headAdded_of_copyEnough {p : Packet} {size : Nat} {m m' : MBuf} (hlocal : p.header.Local)
    (henough : p.CopyEnough size m) (hlen : m'.dataLen = m.dataLen + size)
    (hbyte : ∀ i, m'.byte i =
      if p.payloadStart m + size ≤ i ∧ i < p.payloadStart m + size + size then m.byte (i - size)
      else m.byte i) : p.HeadAdded size m m' := by
  have hstay : ∀ i, i < p.headerEnd m → m'.byte i = m.byte i := by
    intro i hi
    rw [hbyte]
    split
    next hover =>
      refine henough.header_kept i hover.1 hover.2 ?_
      rcases lt_max_iff.mp hi with hi | hi
      · exact hi
      · omega
    next => rfl
  refine ⟨hstay, fun n hn => ?_, (MBuf.drop_frame_moved hlen).mpr fun i hi hlt => ?_⟩
  · obtain ⟨hle, rfl⟩ := payloadSize_eq_ok.mp hn
    have hsame : p.payloadStart m' = p.payloadStart m :=
      congrArg (p.offset + ·) <| payloadOffset_congr hlocal fun i hi =>
        hstay i (lt_max_of_lt_left hi)
    refine payloadSize_eq_ok.mpr ?_
    rw [hsame, hlen]
    omega
  · rw [hbyte]
    by_cases hmoved : i < p.payloadStart m + size
    · rw [if_pos (by omega), Nat.add_sub_cancel]
    · rw [if_neg (by omega), henough.rest_there i (by omega) hlt]

/-- `add_to_payload_head` does what it is for exactly when there is no room for `size` bytes,
or the copy of the first `size` bytes of the payload is enough. -/
theorem addToPayloadHead_iff {p : Packet} {size : Nat} {m : MBuf} (hin : m.Inside)
    (hlocal : p.header.Local) :
    p.AddsHead size m (p.addToPayloadHead size m) ↔
      (m.dataOff + m.dataLen + size ≤ m.buf.length → p.CopyEnough size m) := by
  constructor
  · rintro ⟨⟨r, m', hret⟩, hadded, -⟩ hroom
    obtain ⟨rfl, hfit, hlen, hbyte⟩ := addToPayloadHead_eq_ok hroom hret
    have hadd := hadded m' hret
    refine ⟨hfit, fun i hi hlt => ?_, fun i hi hlt hheader => ?_⟩
    · have hmoved := (MBuf.drop_frame_moved hlen).mp hadd.payload_eq i (by omega) hlt
      rwa [hbyte, if_neg (by omega)] at hmoved
    · have hkept := hadd.before_eq i (lt_max_of_lt_left hheader)
      rwa [hbyte, if_pos ⟨hi, hlt⟩] at hkept
  · intro henough
    by_cases hroom : m.dataOff + m.dataLen + size ≤ m.buf.length
    · have henough := henough hroom
      obtain ⟨m', hcopy⟩ : ∃ m', (m.grow size).copy
          { src := p.payloadStart m, dst := p.payloadStart m + size, len := size } = .ok m' :=
        MBuf.copy_of_fits (Nat.le_add_right _ _) (by
          have hfit := henough.inside
          rwa [Nat.add_assoc m.dataOff] at hfit)
      have hret : p.addToPayloadHead size m = .ok (.ok (), m') := by
        rw [addToPayloadHead_of_room hroom, hcopy, bind_ok]
      obtain ⟨-, -, hlen, hbyte⟩ := addToPayloadHead_eq_ok hroom hret
      rw [hret]
      refine ⟨⟨_, _, rfl⟩, ?_, ?_⟩
      · rintro _ ⟨⟩
        exact headAdded_of_copyEnough hlocal henough hlen hbyte
      · rintro e _ ⟨⟩
    · rw [addToPayloadHead_of_full hin (by omega)]
      refine ⟨⟨_, _, rfl⟩, ?_, ?_⟩
      · rintro _ ⟨⟩
      · rintro e _ ⟨⟩
        rfl

/-- Three bytes in front of a payload of two. -/
theorem addToPayloadHead_longer :
    ∃ m', macPacket.addToPayloadHead 3 (numbered 16) = .ok (.ok (), m') ∧
      macPacket.HeadAdded 3 (numbered 16) m' := by
  have hin : (numbered 16).dataOff + (numbered 16).dataLen ≤ (numbered 16).buf.length := by decide
  have hstart : macPacket.payloadStart (numbered 16) = 14 := by decide +kernel
  have hadds : macPacket.AddsHead 3 (numbered 16) (macPacket.addToPayloadHead 3 (numbered 16)) := by
    refine (addToPayloadHead_iff hin Headers.endOffset_local.1).mpr fun _ => ⟨?_, ?_, ?_⟩
    · rw [hstart]
      decide
    · intro i hi hlt
      have hlen : i < 16 := hlt
      omega
    · intro i hi hlt hheader
      have hlen : i < 14 := hheader
      omega
  exact ⟨_, rfl, hadds.added _ rfl⟩

/-- One byte in front of a payload of four: the second byte of the payload is lost. -/
theorem addToPayloadHead_loses_payload :
    ∃ m', macPacket.addToPayloadHead 1 (numbered 18) = .ok (.ok (), m') ∧
      macPacket.payloadStart (numbered 18) = 14 ∧
      (numbered 18).frame.drop 14 = [14, 15, 16, 17] ∧
      m'.frame.drop 14 = [14, 14, 16, 17, 18] := by
  refine ⟨_, rfl, ?_, ?_, ?_⟩ <;> decide +kernel

end Packet

/-! ## Writing a header into the payload -/

namespace Packet

/-- What `write_header` is for: it writes inside the data of the packet, and a header that
would not fit there is refused with the packet as it was. -/
structure WritesInside (p : Packet) (hdr : List UInt8) (offset : Nat) (m : MBuf)
    (x : Outcome (Except ErrorKind Unit × MBuf)) : Prop where
  inside : ∀ m', x = .ok (.ok (), m') → p.payloadStart m + offset + hdr.length ≤ m.dataLen
  refused : m.dataLen < p.payloadStart m + offset + hdr.length →
    x = .ok (.error (.badOffset offset), m)

/-- `write_header` stays inside the packet exactly when there is a payload and the header
ends inside it or starts outside. Where the current header says that the payload starts
behind the data, `payload_size` overflows and nothing is refused. -/
theorem writeHeader_iff (p : Packet) (hdr : List UInt8) (offset : Nat) (m : MBuf) :
    p.WritesInside hdr offset m (p.writeHeader hdr offset m) ↔
      p.payloadStart m ≤ m.dataLen ∧ (p.payloadStart m + offset + hdr.length ≤ m.dataLen ∨
        m.dataLen < p.payloadStart m + offset) := by
  by_cases hstart : p.payloadStart m ≤ m.dataLen
  · have hsize : p.payloadSize m = .ok (m.dataLen - p.payloadStart m) :=
      payloadSize_eq_ok.mpr ⟨hstart, rfl⟩
    rw [writeHeader, hsize, bind_ok]
    by_cases hout : offset > m.dataLen - p.payloadStart m
    · rw [if_pos hout]
      refine ⟨fun _ => ⟨hstart, .inr (by omega)⟩, fun _ => ⟨?_, fun _ => rfl⟩⟩
      rintro _ ⟨⟩
    · rw [if_neg hout]
      constructor
      · rintro ⟨-, hrefused⟩
        refine ⟨hstart, .inl ?_⟩
        by_contra hlong
        -- nothing on this way returns an error
        obtain ⟨m₁, -, hret⟩ := bind_eq_ok.mp (hrefused (by omega))
        cases hret
      · rintro ⟨-, hfit | hbehind⟩
        · exact ⟨fun _ _ => hfit, fun hlong => absurd hfit (by omega)⟩
        · omega
  · refine ⟨fun hw => ?_, fun h => absurd h.1 hstart⟩
    -- `payload_size` does not return
    have hret := hw.refused (by omega)
    rw [writeHeader] at hret
    obtain ⟨n, hn, -⟩ := bind_eq_ok.mp hret
    exact absurd (payloadSize_eq_ok.mp hn).1 hstart

/-- A frame of 35 bytes whose IPv4 header says that it is 60 bytes long. -/
def longIhl : MBuf := { numbered 35 with buf := (numbered 35).buf.set 14 0x4f }

/-- A MAC header is written behind a packet with no data. An IPv4 header that is
longer than the frame makes the call panic. -/
theorem writeHeader_leaves_packet :
    (∃ m', (fromMbuf 0).writeHeader (Headers.macHeader.bytes .new) 0 (numbered 0) =
        .ok (.ok (), m') ∧
      (numbered 0).dataLen = 0 ∧ m'.buf ≠ (numbered 0).buf) ∧
    ∃ p : Packet, macPacket.parseHeader Headers.ipHeader.endOffset longIhl = .ok p ∧
      p.writeHeader (Headers.macHeader.bytes .new) 0 longIhl = .panic .overflow := by
  refine ⟨⟨_, rfl, rfl, ?_⟩, _, rfl, rfl⟩
  decide +kernel

end Packet

end NetBricks.Interface
