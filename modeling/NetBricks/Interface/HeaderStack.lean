import NetBricks.Headers.HeaderType
import NetBricks.Interface.Metadata

/-!
# The stack of header offsets

`parse_header_and_record` and `deparse_header_stack` of
`src/framework/src/interface/packet.rs`, and `DeparsedBatch` of
`src/framework/src/operators/deparsed_batch.rs`. A recorded parse pushes the distance to
the next header on a stack in the metadata slots of the mbuf, and `deparse_header_stack`
pops it and steps back over the header. `Undone` is what the two are for: as many deparses
as there were recorded parses lead back over the same packets.

The stack has room for `STACK_SIZE` offsets, and `STACK_SIZE` is 0. So `push_offset` never
succeeds and every recorded parse of a payload that is long enough panics
(`record_then_deparse_iff`). Nothing is ever on the stack either, and a packet in a
`DeparsedBatch` panics.

Mirroring notes:

* A `RawPacket` has the header pointer as a field. The type of the header it points
  to, static in the source, is an argument. The bytes behind the pointer are those of
  the buffer from its address on.
* `payload().offset(..)` and the pointer arithmetic of `deparse_header` are plain
  addition and subtraction; `self.offset() - offset` is checked.
-/

namespace NetBricks.Interface

open Lib
open Lib.Outcome

/-- What `Option::unwrap` says of a `None`. -/
def unwrapNone : Fault := .explicit "called `Option::unwrap()` on a `None` value"

/-- `STACK_DEPTH_SLOT`. -/
def stackDepthSlot : Nat := 2

/-- `STACK_OFFSET_SLOT`. -/
def stackOffsetSlot : Nat := 3

/-- `STACK_SIZE`. -/
def stackSize : Nat := 0

/-! ## The stack -/

/-- `read_stack_depth`. -/
def readStackDepth (m : MBuf) : Nat := readMetadataSlot m stackDepthSlot

/-- `write_stack_depth`. -/
def writeStackDepth (m : MBuf) (newDepth : Nat) : MBuf :=
  writeMetadataSlot m stackDepthSlot newDepth

/-- `read_stack_offset`. -/
def readStackOffset (m : MBuf) (depth : Nat) : Nat := readMetadataSlot m (stackOffsetSlot + depth)

/-- `write_stack_offset`. -/
def writeStackOffset (m : MBuf) (depth offset : Nat) : MBuf :=
  writeMetadataSlot m (stackOffsetSlot + depth) offset

/-- `push_offset`. -/
def pushOffset (m : MBuf) (offset : Nat) : Option Nat × MBuf :=
  let depth := readStackDepth m
  if depth < stackSize then
    let m := writeStackDepth m (depth + 1)
    let m := writeStackOffset m depth offset
    (some (depth + 1), m)
  else (none, m)

/-- `pop_offset`. -/
def popOffset (m : MBuf) : Option Nat × MBuf :=
  let depth := readStackDepth m
  if depth > 0 then
    let m := writeStackDepth m (depth - 1)
    (some (readStackOffset m (depth - 1)), m)
  else (none, m)

namespace RawPacket

/-- `payload_offset`, of a header of type `t`. -/
def payloadOffset (p : RawPacket) (t : EndOffset) (m : MBuf) : Nat :=
  t.offset (m.buf.drop (p.header - m.bufAddr))

/-- `payload_size`. -/
def payloadSize (p : RawPacket) (t : EndOffset) (m : MBuf) : Outcome Nat := do
  let rest ← checkedSub m.dataLen p.offset
  checkedSub rest (p.payloadOffset t m)

/-- The next header. -/
def next (p : RawPacket) (t : EndOffset) (m : MBuf) : RawPacket :=
  { p with header := p.header + p.payloadOffset t m, offset := p.offset + p.payloadOffset t m }

/-- `parse_header_and_record`, from a header of type `t` to one of type `t₂`. -/
def parseHeaderAndRecord (p : RawPacket) (t t₂ : EndOffset) (m : MBuf) :
    Outcome (RawPacket × MBuf) := do
  let payload ← p.payloadSize t m
  check (payload > t₂.size) "self.payload_size() > T2::size()"
  let (pushed, m') := pushOffset m (p.payloadOffset t m)
  match pushed with
  | none => .panic unwrapNone
  | some _ => .ok (p.next t m, m')

/-- `deparse_header`. -/
def deparseHeader (p : RawPacket) (offset : Nat) : Outcome RawPacket := do
  let newOffset ← checkedSub p.offset offset
  .ok { p with header := p.header - offset, offset := newOffset }

/-- `deparse_header_stack`. -/
def deparseHeaderStack (p : RawPacket) (m : MBuf) : Outcome (Option RawPacket × MBuf) :=
  match popOffset m with
  | (none, m) => .ok (none, m)
  | (some offset, m) => do
    let p ← p.deparseHeader offset
    .ok (some p, m)

end RawPacket

/-- `DeparsedBatch::next_payload`, on the packet that its parent returns. -/
def DeparsedBatch.nextPayload :
    Option (RawPacket × MBuf) → Outcome (Option (RawPacket × MBuf))
  | none => .ok none
  | some (p, m) => do
    let (popped, m) ← p.deparseHeaderStack m
    match popped with
    | none => .panic unwrapNone
    | some q => .ok (some (q, m))

/-! ## Chains of recorded parses -/

namespace RawPacket

/-- Recorded parses of headers of types `ts`, one after the other: the packets they
return. -/
def recordAll (p : RawPacket) (t : EndOffset) :
    List EndOffset → MBuf → Outcome (List RawPacket × MBuf)
  | [], m => .ok ([], m)
  | t₂ :: ts, m => do
    let (p, m) ← p.parseHeaderAndRecord t t₂ m
    let (rest, m) ← recordAll p t₂ ts m
    .ok (p :: rest, m)

/-- As many deparses: the packets they return, up to a `None`. -/
def deparseAll (p : RawPacket) : Nat → MBuf → Outcome (Option (List RawPacket) × MBuf)
  | 0, m => .ok (some [], m)
  | n + 1, m => do
    let (visited, m) ← p.deparseAll n m
    match visited with
    | none => .ok (none, m)
    | some ps => do
      let (popped, m) ← (ps.getLastD p).deparseHeaderStack m
      .ok (popped.map fun q => ps ++ [q], m)

/-- The payload of each packet of the chain is long enough for the next header. -/
def LongEnough (p : RawPacket) (t : EndOffset) (m : MBuf) : List EndOffset → Prop
  | [] => True
  | t₂ :: ts => (∃ n, p.payloadSize t m = .ok n ∧ n > t₂.size) ∧ (p.next t m).LongEnough t₂ m ts

/-- The offsets between the headers of the chain. -/
def offsets (p : RawPacket) (t : EndOffset) (m : MBuf) : List EndOffset → List Nat
  | [] => []
  | t₂ :: ts => p.payloadOffset t m :: (p.next t m).offsets t₂ m ts

/-- The packets of the chain. -/
def chain (p : RawPacket) (t : EndOffset) (m : MBuf) : List EndOffset → List RawPacket
  | [] => []
  | t₂ :: ts => p.next t m :: (p.next t m).chain t₂ m ts

end RawPacket

/-- The offsets on the stack, the last one pushed first. -/
def stackOffsets (m : MBuf) : List Nat :=
  (List.range (readStackDepth m)).reverse.map (readStackOffset m)

namespace RawPacket

/-- What recording and deparsing are for. The recorded parses return the packets of the chain
and leave its offsets on the stack. As many deparses go back over these packets, the last one
first, to the packet that the chain began with. -/
def Undone (p : RawPacket) (t : EndOffset) (ts : List EndOffset) (m : MBuf) : Prop :=
  ∃ m' m'', p.recordAll t ts m = .ok (p.chain t m ts, m') ∧
    stackOffsets m' = (p.offsets t m ts).reverse ++ stackOffsets m ∧
    ((p.chain t m ts).getLastD p).deparseAll ts.length m' =
      .ok (some (p :: p.chain t m ts).dropLast.reverse, m'')

theorem pushOffset_eq (m : MBuf) (offset : Nat) : pushOffset m offset = (none, m) := by
  unfold pushOffset
  exact if_neg (Nat.not_lt_zero _)

/-- A payload that is long enough gets as far as `push_offset`. -/
theorem parseHeaderAndRecord_eq {p : RawPacket} {t t₂ : EndOffset} {m : MBuf}
    (hlong : ∃ n, p.payloadSize t m = .ok n ∧ n > t₂.size) :
    p.parseHeaderAndRecord t t₂ m = .panic unwrapNone := by
  obtain ⟨n, hn, hgt⟩ := hlong
  rw [parseHeaderAndRecord, hn, bind_ok, check_true hgt, bind_ok, pushOffset_eq]

/-- With nothing on the stack there is nothing to go back to. -/
theorem deparseHeaderStack_of_empty {m : MBuf} (hempty : readStackDepth m = 0) (p : RawPacket) :
    p.deparseHeaderStack m = .ok (none, m) := by
  have hpop : popOffset m = (none, m) := if_neg (by rw [hempty]; decide)
  rw [deparseHeaderStack, hpop]

/-- **Deparsing undoes no recorded parse.** For every packet and every chain of header types for
which the payloads are long enough, recording and deparsing do what they are for exactly when
the chain is empty. A packet with nothing on its stack panics in a `DeparsedBatch`. -/
theorem record_then_deparse_iff (p : RawPacket) (t : EndOffset) (ts : List EndOffset) (m : MBuf)
    (hlong : p.LongEnough t m ts) :
    (p.Undone t ts m ↔ ts = []) ∧
      (readStackDepth m = 0 → DeparsedBatch.nextPayload (some (p, m)) = .panic unwrapNone) := by
  refine ⟨⟨fun h => ?_, ?_⟩, fun hempty => ?_⟩
  · cases ts with
    | nil => rfl
    | cons t₂ ts =>
      obtain ⟨m', m'', hrec, -⟩ := h
      rw [recordAll, parseHeaderAndRecord_eq hlong.1, bind_panic] at hrec
      cases hrec
  · rintro rfl
    exact ⟨m, m, rfl, rfl, rfl⟩
  · rw [DeparsedBatch.nextPayload, deparseHeaderStack_of_empty hempty, bind_ok]

/-- A frame of 40 bytes, in an mbuf whose slots are zero. -/
def frame : MBuf :=
  { bufAddr := 4096, buf := List.replicate 40 7, dataOff := 0, dataLen := 40,
    slots := List.replicate (metadataSlots * 8) 0 }

theorem longEnough_frame :
    (RawPacket.mk 0 4096 0).LongEnough nullHeader frame [Headers.macHeader.endOffset] :=
  ⟨⟨40, rfl, by decide⟩, trivial⟩

/-- A MAC header in front of the frame. -/
theorem record_then_deparse_mac :
    ¬ (RawPacket.mk 0 4096 0).Undone nullHeader [Headers.macHeader.endOffset] frame ∧
      DeparsedBatch.nextPayload (some (⟨0, 4096, 0⟩, frame)) = .panic unwrapNone := by
  obtain ⟨hiff, hbatch⟩ := record_then_deparse_iff _ _ _ _ longEnough_frame
  exact ⟨fun h => List.cons_ne_nil _ _ (hiff.mp h), hbatch (by decide +kernel)⟩

/-- The payload is long enough for the header, which `parse_header` then parses, and
`parse_header_and_record` panics. The packet that `parse_header` returns panics in a
`DeparsedBatch`. -/
theorem parseHeaderAndRecord_panics :
    (Packet.fromMbuf 0).raw frame = ⟨0, 4096, 0⟩ ∧
      (∃ p : Packet, (Packet.fromMbuf 0).parseHeader Headers.macHeader.endOffset frame = .ok p ∧
        DeparsedBatch.nextPayload (some (p.raw frame, frame)) = .panic unwrapNone) ∧
      (RawPacket.mk 0 4096 0).parseHeaderAndRecord nullHeader Headers.macHeader.endOffset frame =
        .panic unwrapNone := by
  refine ⟨rfl, ⟨_, rfl, ?_⟩, parseHeaderAndRecord_eq ⟨40, rfl, by decide⟩⟩
  rw [DeparsedBatch.nextPayload, deparseHeaderStack_of_empty (by decide +kernel), bind_ok]

end RawPacket

end NetBricks.Interface
