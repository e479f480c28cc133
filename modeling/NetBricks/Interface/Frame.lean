import NetBricks.Interface.Packet

/-!
# Building packets and parsing them again

`push_header`, `parse_header`, `reset` and the payload functions of
`src/framework/src/interface/packet.rs`, with `add_data_end` of
`native/zcsi/mbuf.rs`. What they work on is the frame: the `data_len` bytes of the
mbuf from its data offset on (`MBuf.frame`). Pushing a header onto a packet that ends
with its last header appends to the frame (`pushHeader_spec`); parsing walks over it
and reads from each header where the next one starts (`parseHeader_spec`).

Both ways are stated for a stack of layers of any header types, given that each is
`Plain`: it says itself that the next header starts where its struct ends.

Mirroring notes:

* A header that is pushed is given by its bytes. `copy_nonoverlapping(hdr, dst, 1)`
  writes the whole struct, of `T2::size()` bytes.
* A write behind the end of the buffer has no meaning in the source; the model stops
  there. The move of the data behind the new header is modelled as if the two
  regions did not overlap, as `copy_nonoverlapping` asks for.
* `data_len` stays at most `buf_len`, a `u16`, and is not reduced; nor is `pkt_len`.
-/

namespace NetBricks.Interface

open Lib
open Lib.Outcome

/-! ## The bytes of an mbuf -/

namespace MBuf

/-- The frame: the bytes that count. -/
def frame (m : MBuf) : List UInt8 := (m.buf.drop m.dataOff).take m.dataLen

/-- `n` bytes from a data offset on. -/
def read (m : MBuf) (offset n : Nat) : List UInt8 := (m.buf.drop (m.dataOff + offset)).take n

/-- Write bytes from a data offset on. -/
def write (m : MBuf) (offset : Nat) (data : List UInt8) : Outcome MBuf :=
  if m.dataOff + offset + data.length ≤ m.buf.length then
    .ok { m with buf := overwrite m.buf (m.dataOff + offset) data }
  else .panic .slice

/-- `pkt_tailroom`. -/
def pktTailroom (m : MBuf) : Outcome Nat := do
  let behind ← checkedSub m.buf.length m.dataOff
  checkedSub behind m.dataLen

/-- `add_data_end`. -/
def addDataEnd (m : MBuf) (len : Nat) : Outcome (Nat × MBuf) := do
  let tailroom ← m.pktTailroom
  if len > tailroom then .ok (0, m)
  else .ok (len, { m with dataLen := m.dataLen + len, pktLen := m.pktLen + len })

/-- The frame lies inside the buffer. -/
def Inside (m : MBuf) : Prop := m.dataOff + m.dataLen ≤ m.buf.length

end MBuf

namespace Packet

/-- `push_header`: the new header goes where the payload starts, in front of what was
there. -/
def pushHeader (p : Packet) (header : EndOffset) (hdr : List UInt8) (m : MBuf) :
    Outcome (Option Packet × MBuf) := do
  let len := m.dataLen
  let size := header.offset hdr
  let (added, m) ← m.addDataEnd size
  let offset := p.offset + p.payloadOffset m
  if added ≥ size then
    let m ←
      if len ≠ offset then do
        let toMove ← checkedSub len offset
        m.write (offset + size) (m.read offset toMove)
      else .ok m
    let m ← m.write offset hdr
    .ok (some { mbuf := p.mbuf, header := header, offset := offset }, m)
  else .ok (none, m)

/-- `add_to_payload_tail`. -/
def addToPayloadTail (_p : Packet) (size : Nat) (m : MBuf) :
    Outcome (Except ErrorKind Unit × MBuf) := do
  let (added, m) ← m.addDataEnd size
  if added ≥ size then .ok (.ok (), m) else .ok (.error .failedAllocation, m)

/-- `get_payload`. -/
def getPayload (p : Packet) (m : MBuf) : Outcome (List UInt8) := do
  let len ← p.payloadSize m
  .ok (m.read (p.offset + p.payloadOffset m) len)

/-- Copying a slice over the one `get_mut_payload` returns. -/
def fillPayload (p : Packet) (payload : List UInt8) (m : MBuf) : Outcome MBuf := do
  let len ← p.payloadSize m
  check (len = payload.length) "destination and source slices have different lengths"
  m.write (p.offset + p.payloadOffset m) payload

/-- Room for a payload behind the packet, and the payload in it. -/
def appendPayload (p : Packet) (payload : List UInt8) (m : MBuf) :
    Outcome (Except ErrorKind Unit × MBuf) := do
  let (added, m) ← p.addToPayloadTail payload.length m
  match added with
  | .error e => .ok (.error e, m)
  | .ok () => do
    let m ← p.fillPayload payload m
    .ok (.ok (), m)

end Packet

/-- `new_packet`: `mbuf_alloc` returns an mbuf or a null pointer. -/
def newPacket (mbuf : Option Ptr) : Option Packet := mbuf.map Packet.fromMbuf

/-! ## Stacks of headers -/

/-- A header to push: its type and its bytes. -/
structure Layer where
  header : EndOffset
  bytes : List UInt8

/-- The next header starts where the struct ends: the bytes are those of the struct, and its
`offset` does not speak of options behind them. -/
structure Layer.Plain (l : Layer) : Prop where
  length_eq : l.bytes.length = l.header.size
  offset_eq : ∀ rest, l.header.offset (l.bytes ++ rest) = l.header.size
  pos : 0 < l.header.size

/-- Successive `push_header` calls, each on the packet that the one before returned. -/
def pushAll (p : Packet) : List Layer → MBuf → Outcome (Option (List Packet) × MBuf)
  | [], m => .ok (some [], m)
  | l :: ls, m => do
    let (pushed, m) ← p.pushHeader l.header l.bytes m
    match pushed with
    | none => .ok (none, m)
    | some p => do
      let (rest, m) ← pushAll p ls m
      .ok (rest.map (p :: ·), m)

/-- Successive `parse_header` calls. -/
def parseAll (p : Packet) : List EndOffset → MBuf → Outcome (List Packet)
  | [], _ => .ok []
  | header :: headers, m => do
    let p ← p.parseHeader header m
    let rest ← parseAll p headers m
    .ok (p :: rest)

/-- The packets of a stack of layers from an offset on. -/
def stackFrom (mbuf : Ptr) : Nat → List Layer → List Packet
  | _, [] => []
  | offset, l :: ls =>
    { mbuf := mbuf, header := l.header, offset := offset } ::
      stackFrom mbuf (offset + l.header.size) ls

/-- The bytes of a stack of layers. -/
def stackBytes (layers : List Layer) : List UInt8 := layers.flatMap (·.bytes)

theorem stackBytes_nil : stackBytes [] = [] := rfl

theorem stackBytes_cons (l : Layer) (ls : List Layer) :
    stackBytes (l :: ls) = l.bytes ++ stackBytes ls := List.flatMap_cons

/-! ## The frame under the operations -/

namespace MBuf

theorem length_frame {m : MBuf} (h : m.Inside) : m.frame.length = m.dataLen := by
  unfold Inside at h
  rw [frame, List.length_take, List.length_drop]
  omega

/-- What is in the buffer from a point of the frame on: the rest of the frame, then
bytes that do not count. -/
theorem drop_buf {m : MBuf} (h : m.Inside) {k : Nat} (hk : k ≤ m.dataLen) :
    m.buf.drop (m.dataOff + k) = m.frame.drop k ++ m.buf.drop (m.dataOff + m.dataLen) := by
  have hsplit := List.take_append_drop m.dataLen (m.buf.drop m.dataOff)
  rw [List.drop_drop] at hsplit
  have hlen := length_frame h
  rw [← List.drop_drop, ← hsplit, List.drop_append_of_le_length (by
    rw [← frame, hlen]
    exact hk)]
  rfl

theorem read_eq {m : MBuf} (h : m.Inside) {offset n : Nat} (hn : offset + n ≤ m.dataLen) :
    m.read offset n = (m.frame.drop offset).take n := by
  have hlen := length_frame h
  rw [read, drop_buf h (by omega), List.take_append_of_le_length (by
    rw [List.length_drop]
    omega)]

/-- `m'` is `m` with `data` behind its frame. -/
structure Extends (m : MBuf) (data : List UInt8) (m' : MBuf) : Prop where
  frame_eq : m'.frame = m.frame ++ data
  dataLen_eq : m'.dataLen = m.dataLen + data.length
  dataOff_eq : m'.dataOff = m.dataOff
  length_eq : m'.buf.length = m.buf.length

theorem Extends.refl (m : MBuf) : Extends m [] m := by
  constructor <;> simp

theorem Extends.trans {m m₁ m₂ : MBuf} {d₁ d₂ : List UInt8} (h₁ : Extends m d₁ m₁)
    (h₂ : Extends m₁ d₂ m₂) : Extends m (d₁ ++ d₂) m₂ where
  frame_eq := by rw [h₂.frame_eq, h₁.frame_eq, List.append_assoc]
  dataLen_eq := by rw [h₂.dataLen_eq, h₁.dataLen_eq, List.length_append, Nat.add_assoc]
  dataOff_eq := h₂.dataOff_eq.trans h₁.dataOff_eq
  length_eq := h₂.length_eq.trans h₁.length_eq

theorem Extends.inside {m m' : MBuf} {data : List UInt8} (h : Extends m data m')
    (hroom : m.dataOff + m.dataLen + data.length ≤ m.buf.length) : m'.Inside := by
  unfold Inside
  rw [h.dataOff_eq, h.dataLen_eq, h.length_eq]
  omega

/-- The mbuf after a successful `add_data_end`. -/
def grow (m : MBuf) (len : Nat) : MBuf :=
  { m with dataLen := m.dataLen + len, pktLen := m.pktLen + len }

theorem addDataEnd_of_room {m : MBuf} {len : Nat}
    (h : m.dataOff + m.dataLen + len ≤ m.buf.length) :
    m.addDataEnd len = .ok (len, m.grow len) := by
  rw [addDataEnd, pktTailroom, checkedSub_of_le (by omega), bind_ok, checkedSub_of_le (by omega),
    bind_ok, if_neg (by omega)]
  rfl

/-- Filling the room that `add_data_end` has made extends the frame. -/
theorem write_grow {m : MBuf} {data : List UInt8}
    (h : m.dataOff + m.dataLen + data.length ≤ m.buf.length) :
    ∃ m', (m.grow data.length).write m.dataLen data = .ok m' ∧ Extends m data m' := by
  refine ⟨{ m.grow data.length with buf := overwrite m.buf (m.dataOff + m.dataLen) data },
    if_pos h, ?_, rfl, rfl, length_overwrite h⟩
  show ((overwrite m.buf (m.dataOff + m.dataLen) data).drop m.dataOff).take
    (m.dataLen + data.length) = (m.buf.drop m.dataOff).take m.dataLen ++ data
  have hlen : ((m.buf.drop m.dataOff).take m.dataLen).length = m.dataLen := by
    rw [List.length_take, List.length_drop]
    omega
  have hfront : (m.buf.take (m.dataOff + m.dataLen)).drop m.dataOff =
      (m.buf.drop m.dataOff).take m.dataLen := by
    rw [List.drop_take, Nat.add_sub_cancel_left]
  rw [overwrite, List.drop_append_of_le_length (by rw [List.length_take]; omega), hfront,
    ← List.append_assoc, List.take_append_of_le_length (by
      rw [List.length_append, hlen]), List.take_of_length_le (by
      rw [List.length_append, hlen])]

end MBuf

namespace Packet

/-- A header in the frame says itself where the next one starts. -/
theorem payloadOffset_of_plain {m : MBuf} (hm : m.Inside) {l : Layer} (hl : l.Plain) {mbuf : Ptr}
    {before after : List UInt8} (hframe : m.frame = before ++ (l.bytes ++ after)) :
    payloadOffset { mbuf := mbuf, header := l.header, offset := before.length } m =
      l.header.size := by
  have hlen := MBuf.length_frame hm
  have hle : before.length ≤ m.dataLen := by
    rw [← hlen, hframe, List.length_append]
    omega
  rw [payloadOffset, MBuf.drop_buf hm hle, hframe, List.drop_left, List.append_assoc]
  exact hl.offset_eq _

/-- Pushing a header onto a packet with nothing behind its last header. -/
theorem pushHeader_spec {p : Packet} {m : MBuf} {l : Layer} (hl : l.Plain)
    (hend : p.offset + p.payloadOffset m = m.dataLen)
    (hroom : m.dataOff + m.dataLen + l.bytes.length ≤ m.buf.length) :
    ∃ m', p.pushHeader l.header l.bytes m =
        .ok (some { mbuf := p.mbuf, header := l.header, offset := m.dataLen }, m') ∧
      MBuf.Extends m l.bytes m' := by
  have hsize : l.header.offset l.bytes = l.bytes.length := by
    have := hl.offset_eq []
    rw [List.append_nil] at this
    rw [this, hl.length_eq]
  obtain ⟨m', hwrite, hext⟩ := MBuf.write_grow hroom
  have hend' : p.offset + p.payloadOffset (m.grow l.bytes.length) = m.dataLen := hend
  refine ⟨m', ?_, hext⟩
  rw [pushHeader, hsize, MBuf.addDataEnd_of_room hroom, bind_ok]
  dsimp only
  rw [hend', if_pos (Nat.le_refl _), if_neg (fun h => h rfl), bind_ok, hwrite, bind_ok]

/-- A payload behind a packet with nothing behind its last header. -/
theorem appendPayload_spec {p : Packet} {m : MBuf} {payload : List UInt8}
    (hend : p.offset + p.payloadOffset m = m.dataLen)
    (hroom : m.dataOff + m.dataLen + payload.length ≤ m.buf.length) :
    ∃ m', p.appendPayload payload m = .ok (.ok (), m') ∧ MBuf.Extends m payload m' := by
  obtain ⟨m', hwrite, hext⟩ := MBuf.write_grow hroom
  have hend' : p.offset + p.payloadOffset (m.grow payload.length) = m.dataLen := hend
  have hsize : p.payloadSize (m.grow payload.length) = .ok payload.length := by
    have hlen : (m.grow payload.length).dataLen = m.dataLen + payload.length := rfl
    rw [payloadSize, checkedSub_of_le (by omega), bind_ok, checkedSub_of_le (by omega)]
    congr 1
    omega
  refine ⟨m', ?_, hext⟩
  rw [appendPayload, addToPayloadTail, MBuf.addDataEnd_of_room hroom, bind_ok]
  dsimp only
  rw [if_pos (Nat.le_refl _), bind_ok]
  dsimp only
  rw [fillPayload, hsize, bind_ok, check_true rfl, bind_ok, hend', hwrite, bind_ok]

end Packet

/-! ## Whole stacks -/

/-- The frame holds `before`, then the stack, then `after`, and the packet ends where the stack
begins: parsing the first layer moves it from the stack to `before`. -/
structure Stacked (m : MBuf) (p : Packet) (before : List UInt8) (layers : List Layer)
    (after : List UInt8) : Prop where
  inside : m.Inside
  plain : ∀ l ∈ layers, l.Plain
  frame_eq : m.frame = before ++ (stackBytes layers ++ after)
  ends : p.offset + p.payloadOffset m = before.length

/-- The same view from the first packet of the stack. -/
theorem Stacked.tail {m : MBuf} {p : Packet} {before after : List UInt8} {l : Layer}
    {ls : List Layer} (h : Stacked m p before (l :: ls) after) :
    Stacked m { mbuf := p.mbuf, header := l.header, offset := before.length }
      (before ++ l.bytes) ls after := by
  have hl := h.plain l List.mem_cons_self
  have hframe : m.frame = before ++ (l.bytes ++ (stackBytes ls ++ after)) := by
    rw [h.frame_eq, stackBytes_cons, List.append_assoc]
  refine ⟨h.inside, fun x hx => h.plain x (List.mem_cons_of_mem l hx), ?_, ?_⟩
  · rw [hframe, List.append_assoc]
  · rw [Packet.payloadOffset_of_plain h.inside hl hframe, List.length_append, hl.length_eq]

theorem Stacked.dataLen_eq {m : MBuf} {p : Packet} {before after : List UInt8}
    {layers : List Layer} (h : Stacked m p before layers after) :
    m.dataLen = before.length + ((stackBytes layers).length + after.length) := by
  rw [← MBuf.length_frame h.inside, h.frame_eq, List.length_append, List.length_append]

/-- The payload of the packet in front of a stack. -/
theorem Stacked.payloadSize {m : MBuf} {p : Packet} {before after : List UInt8}
    {layers : List Layer} (h : Stacked m p before layers after) :
    p.payloadSize m = .ok ((stackBytes layers).length + after.length) := by
  have hlen := h.dataLen_eq
  have hends := h.ends
  rw [Packet.payloadSize, checkedSub_of_le (by omega), bind_ok, checkedSub_of_le (by omega)]
  congr 1
  omega

/-- What is behind the last header is the payload. -/
theorem Stacked.getPayload {m : MBuf} {p : Packet} {before after : List UInt8}
    (h : Stacked m p before [] after) : p.getPayload m = .ok after := by
  have hlen := h.dataLen_eq
  rw [stackBytes_nil, List.length_nil, Nat.zero_add] at hlen
  rw [Packet.getPayload, h.payloadSize, bind_ok, h.ends, stackBytes_nil, List.length_nil,
    Nat.zero_add, MBuf.read_eq h.inside (by omega), h.frame_eq, stackBytes_nil, List.nil_append,
    List.drop_left, List.take_length]

/-- Parsing the first header of a stack. -/
theorem Stacked.parseHeader {m : MBuf} {p : Packet} {before after : List UInt8} {l : Layer}
    {ls : List Layer} (h : Stacked m p before (l :: ls) after) :
    p.parseHeader l.header m =
      if (stackBytes ls).length + after.length > 0 then
        .ok { mbuf := p.mbuf, header := l.header, offset := before.length }
      else .panic (.assertion "self.payload_size() > T2::size()") := by
  have hl := h.plain l List.mem_cons_self
  have hlen : (stackBytes (l :: ls)).length = l.header.size + (stackBytes ls).length := by
    rw [stackBytes_cons, List.length_append, hl.length_eq]
  rw [Packet.parseHeader, h.payloadSize, bind_ok, hlen, h.ends]
  split
  next hpos => rw [check_true (by omega), bind_ok]
  next hpos => rw [check_false (by omega), bind_panic]

/-- Where the last packet of a stack ends. -/
theorem Stacked.last {m : MBuf} {after : List UInt8} :
    ∀ {layers : List Layer} {p : Packet} {before : List UInt8},
      Stacked m p before layers after →
      Stacked m ((stackFrom p.mbuf before.length layers).getLastD p)
        (before ++ stackBytes layers) [] after := by
  intro layers
  induction layers with
  | nil =>
    intro p before h
    rw [stackBytes_nil, List.append_nil]
    exact h
  | cons l ls ih =>
    intro p before h
    have hl := h.plain l List.mem_cons_self
    have hlast := ih h.tail
    rw [List.length_append, hl.length_eq, List.append_assoc] at hlast
    rw [stackFrom, List.getLastD_cons, stackBytes_cons]
    exact hlast

/-- The packets of a stack show the bytes of its layers. -/
theorem Stacked.headers {m : MBuf} {after : List UInt8} :
    ∀ {layers : List Layer} {p : Packet} {before : List UInt8},
      Stacked m p before layers after →
      List.Forall₂ (fun (q : Packet) (l : Layer) => m.read q.offset q.header.size = l.bytes)
        (stackFrom p.mbuf before.length layers) layers := by
  intro layers
  induction layers with
  | nil => intro p before _; exact List.Forall₂.nil
  | cons l ls ih =>
    intro p before h
    have hl := h.plain l List.mem_cons_self
    have hlen := h.dataLen_eq
    rw [stackBytes_cons, List.length_append] at hlen
    have htail := ih h.tail
    rw [List.length_append, hl.length_eq] at htail
    refine List.Forall₂.cons ?_ htail
    show m.read before.length l.header.size = l.bytes
    rw [MBuf.read_eq h.inside (by rw [← hl.length_eq]; omega), h.frame_eq, List.drop_left,
      stackBytes_cons, List.append_assoc, ← hl.length_eq, List.take_left]

/-- Pushing a stack of layers writes them behind the frame. -/
theorem pushAll_spec :
    ∀ {layers : List Layer} {p : Packet} {m : MBuf}, (∀ l ∈ layers, l.Plain) →
      p.offset + p.payloadOffset m = m.dataLen →
      m.dataOff + m.dataLen + (stackBytes layers).length ≤ m.buf.length →
      ∃ m', pushAll p layers m = .ok (some (stackFrom p.mbuf m.dataLen layers), m') ∧
        MBuf.Extends m (stackBytes layers) m' := by
  intro layers
  induction layers with
  | nil => intro p m _ _ _; exact ⟨m, rfl, MBuf.Extends.refl m⟩
  | cons l ls ih =>
    intro p m hplain hend hroom
    have hl := hplain l List.mem_cons_self
    rw [stackBytes_cons, List.length_append] at hroom
    obtain ⟨m₁, hpush, hext₁⟩ :=
      Packet.pushHeader_spec hl hend (show m.dataOff + m.dataLen + l.bytes.length ≤ _ by omega)
    have hin : m.Inside := by
      unfold MBuf.Inside
      omega
    -- the new header is the last thing in the frame
    have hsize : Packet.payloadOffset
        { mbuf := p.mbuf, header := l.header, offset := m.frame.length } m₁ = l.header.size :=
      Packet.payloadOffset_of_plain (hext₁.inside (by omega)) hl
        (show m₁.frame = m.frame ++ (l.bytes ++ []) by rw [hext₁.frame_eq, List.append_nil])
    rw [MBuf.length_frame hin] at hsize
    obtain ⟨m₂, hrest, hext₂⟩ := ih
      (p := { mbuf := p.mbuf, header := l.header, offset := m.dataLen }) (m := m₁)
      (fun x hx => hplain x (List.mem_cons_of_mem l hx))
      (by rw [hsize, hext₁.dataLen_eq, hl.length_eq])
      (by rw [hext₁.dataOff_eq, hext₁.dataLen_eq, hext₁.length_eq]; omega)
    refine ⟨m₂, ?_, stackBytes_cons l ls ▸ hext₁.trans hext₂⟩
    rw [pushAll, hpush, bind_ok]
    dsimp only
    rw [hrest, bind_ok, hext₁.dataLen_eq, hl.length_eq]
    rfl

/-- Parsing a stack of layers with something behind it. -/
theorem Stacked.parses {m : MBuf} {after : List UInt8} (hafter : after ≠ []) :
    ∀ {layers : List Layer} {p : Packet} {before : List UInt8},
      Stacked m p before layers after →
      parseAll p (layers.map (·.header)) m = .ok (stackFrom p.mbuf before.length layers) := by
  have hpos := List.length_pos_of_ne_nil hafter
  intro layers
  induction layers with
  | nil => intro p before _; rfl
  | cons l ls ih =>
    intro p before h
    have hl := h.plain l List.mem_cons_self
    have hrest := ih h.tail
    rw [List.length_append, hl.length_eq] at hrest
    rw [List.map_cons, parseAll, h.parseHeader, if_pos (by omega), bind_ok, hrest,
      bind_ok]
    rfl

/-- Parsing a stack with nothing behind it fails at its last header. -/
theorem Stacked.parses_panics {m : MBuf} :
    ∀ {layers : List Layer} {p : Packet} {before : List UInt8},
      Stacked m p before layers [] → layers ≠ [] →
      parseAll p (layers.map (·.header)) m =
        .panic (.assertion "self.payload_size() > T2::size()") := by
  intro layers
  induction layers with
  | nil => intro p before _ hne; exact absurd rfl hne
  | cons l ls ih =>
    intro p before h _
    rw [List.map_cons, parseAll, h.parseHeader]
    cases ls with
    | nil => rfl
    | cons l' ls =>
      have hl' := h.plain l' (List.mem_cons_of_mem l List.mem_cons_self)
      have hpos : (stackBytes (l' :: ls)).length + ([] : List UInt8).length > 0 := by
        have := hl'.pos
        rw [stackBytes_cons, List.length_append, hl'.length_eq]
        omega
      rw [if_pos hpos, bind_ok, ih h.tail nofun, bind_panic]

/-! ## There and back -/

/-- Parsing the stack of `layers` of a packet gives the packets that pushing it gave,
each of its headers is the one pushed, and the payload is left. -/
structure RoundTrip (pushed : List Packet) (layers : List Layer) (payload : List UInt8) (p : Packet)
    (m : MBuf) : Prop where
  parses : parseAll p.reset (layers.map (·.header)) m = .ok pushed
  headers : List.Forall₂ (fun (q : Packet) (l : Layer) => m.read q.offset q.header.size = l.bytes)
    pushed layers
  payload_eq : (pushed.getLastD p.reset).getPayload m = .ok payload

theorem mbuf_getLastD_stackFrom (mbuf : Ptr) :
    ∀ (layers : List Layer) (offset : Nat) (p : Packet), p.mbuf = mbuf →
      ((stackFrom mbuf offset layers).getLastD p).mbuf = mbuf := by
  intro layers
  induction layers with
  | nil => intro offset p hp; exact hp
  | cons l ls ih =>
    intro offset p _
    rw [stackFrom, List.getLastD_cons]
    exact ih _ _ rfl

/-- A stack of plain layers on an empty mbuf, with a payload behind it, can be built,
and comes back from parsing exactly when the payload is not empty. -/
theorem roundTrip_iff {layers : List Layer} (hne : layers ≠ []) (hplain : ∀ l ∈ layers, l.Plain)
    (mbuf : Ptr) {m : MBuf} (hempty : m.dataLen = 0) {payload : List UInt8}
    (hfits : m.dataOff + ((stackBytes layers).length + payload.length) ≤ m.buf.length) :
    ∃ pushed m₁ m₂, pushAll (Packet.fromMbuf mbuf) layers m = .ok (some pushed, m₁) ∧
      (pushed.getLastD (Packet.fromMbuf mbuf)).appendPayload payload m₁ = .ok (.ok (), m₂) ∧
      (RoundTrip pushed layers payload (pushed.getLastD (Packet.fromMbuf mbuf)) m₂ ↔
        payload ≠ []) := by
  have hnil : m.frame = [] := by rw [MBuf.frame, hempty, List.take_zero]
  obtain ⟨m₁, hpush, hext₁⟩ := pushAll_spec (p := Packet.fromMbuf mbuf) hplain
    (show 0 = m.dataLen from hempty.symm) (by omega)
  have hlen₁ := hext₁.dataLen_eq
  rw [hempty] at hpush
  -- the frame is the stack, and its last packet ends with it
  have hstack₁ : Stacked m₁ (Packet.fromMbuf mbuf) [] layers [] :=
    ⟨hext₁.inside (by omega), hplain, by rw [hext₁.frame_eq, hnil, List.append_nil], rfl⟩
  have hroom₁ : m₁.dataOff + m₁.dataLen + payload.length ≤ m₁.buf.length := by
    rw [hext₁.dataOff_eq, hlen₁, hext₁.length_eq]
    omega
  have hends : (stackBytes layers).length = m₁.dataLen := by omega
  obtain ⟨m₂, happend, hext₂⟩ :=
    Packet.appendPayload_spec (hstack₁.last.ends.trans hends) hroom₁
  have hstack₂ : Stacked m₂ (Packet.fromMbuf mbuf) [] layers payload :=
    ⟨hext₂.inside hroom₁, hplain, by
      rw [hext₂.frame_eq, hext₁.frame_eq, hnil, List.nil_append, List.nil_append], rfl⟩
  have hreset : ((stackFrom mbuf 0 layers).getLastD (Packet.fromMbuf mbuf)).reset =
      Packet.fromMbuf mbuf := by
    rw [Packet.reset, mbuf_getLastD_stackFrom mbuf layers 0 _ rfl]
  refine ⟨stackFrom mbuf 0 layers, m₁, m₂, hpush, happend, ?_, ?_⟩
  · rintro ⟨hparse, -, -⟩ rfl
    rw [hreset, hstack₂.parses_panics hne] at hparse
    cases hparse
  · intro hpayload
    refine ⟨?_, hstack₂.headers, ?_⟩
    · rw [hreset]
      exact hstack₂.parses hpayload
    · rw [hreset]
      exact hstack₂.last.getPayload

end NetBricks.Interface
