import NetBricks.State.RingBuffer
import NetBricks.State.SegmentList

/-!
# `ReorderedBuffer`: the model

`src/framework/src/state/reordered_buffer/reordered_buffer.rs`. In-order data is
appended to a ring buffer (`Connected`); once data arrives ahead of the tail it
is written at its offset and recorded in the segment list, together with the
unread data (`ConnectedOutOfOrder`), until the list is down to one segment.

Mirroring notes:

* `out_of_order_insert` calls itself once, with `seq = tail_seq`; that call takes
  the first branch, which is `insertAtTail` here.
* `seq`, `head_seq` and `tail_seq` are `u32`s held as `Nat`; `written as u16`
  and the like are `truncate`.
* `fuel` bounds each loop of the segment list separately.
-/

namespace NetBricks.State

open Lib
open Lib.Outcome

/-- Results from inserting into `ReorderedBuffer`. -/
inductive InsertionResult where
  | inserted (written available : Nat)
  | outOfMemory (written available : Nat)
  deriving DecidableEq, Repr

/-- `State`. -/
inductive BufferState where
  | closed
  | connected
  | connectedOutOfOrder
  deriving DecidableEq, Repr

structure ReorderedBuffer where
  data : RingBuffer
  segmentList : SegmentList
  bufferSize : Nat
  state : BufferState
  headSeq : Nat
  tailSeq : Nat
  deriving DecidableEq, Repr

namespace ReorderedBuffer

def available (b : ReorderedBuffer) : Nat := b.data.available

/-- `new_with_segments`. -/
def newWithSegments (bufferSize segmentSize : Nat) :
    Outcome (Except ErrorKind ReorderedBuffer) := do
  let roundedBytes := roundToPowerOf2 bufferSize
  let ring ← RingBuffer.new roundedBytes
  match ring with
  | .error e => .ok (.error e)
  | .ok ringBuffer =>
    .ok (.ok
      { data := ringBuffer
        bufferSize := roundedBytes
        state := .closed
        headSeq := 0
        tailSeq := 0
        segmentList := SegmentList.new segmentSize })

/-- `new`. -/
def new (bufferSize : Nat) : Outcome (Except ErrorKind ReorderedBuffer) :=
  newWithSegments bufferSize (bufferSize / 64)

/-- `reset`. -/
def reset (fuel : Nat) (b : ReorderedBuffer) : Outcome ReorderedBuffer := do
  let l ← b.segmentList.clear fuel
  .ok { b with state := .closed, segmentList := l, data := b.data.clear }

/-- How an insertion of `written` of `len` bytes is reported. -/
def report (b : ReorderedBuffer) (written len : Nat) : InsertionResult :=
  if written = len then .inserted written b.available else .outOfMemory written b.available

/-- `fast_path_insert`. -/
def fastPathInsert (b : ReorderedBuffer) (data : List UInt8) :
    Outcome (InsertionResult × ReorderedBuffer) := do
  let (written, ring) ← b.data.writeAtTail data
  let b := { b with data := ring, tailSeq := wrappingAdd 32 b.tailSeq (truncate 32 written) }
  .ok (b.report written data.length, b)

/-- `seq`. -/
def seq (b : ReorderedBuffer) (seq : Nat) (data : List UInt8) :
    Outcome (InsertionResult × ReorderedBuffer) :=
  match b.state with
  | .closed =>
    { b with state := .connected, headSeq := seq, tailSeq := seq }.fastPathInsert data
  | _ => .panic (.explicit "Cannot seq a buffer that has already been sequed")

/-- The loop of `add_head_to_seg_list`: record `toInsert` bytes from `seq` on. -/
def addHeadLoop (fuel : Nat) : Nat → SegmentList → Nat → Nat → Outcome SegmentList
  | 0, _, _, _ => .timeout
  | n + 1, l, seq, toInsert =>
    if toInsert > 0 then do
      let insert := min u16Max toInsert
      let (_, l) ← l.insertSegment fuel seq insert
      addHeadLoop fuel n l (wrappingAdd 32 seq insert) (toInsert - insert)
    else .ok l

/-- `add_head_to_seg_list`. -/
def addHeadToSegList (fuel : Nat) (b : ReorderedBuffer) : Outcome ReorderedBuffer := do
  let l ← addHeadLoop fuel fuel b.segmentList b.headSeq b.data.available
  .ok { b with segmentList := l }

/-- The end of `out_of_order_insert` at the tail, after `written` bytes went to
the ring and `segment` to the list: the tail moves on to the end of the segment. -/
def advanceTail (fuel : Nat) (b : ReorderedBuffer) (segment : Option Int) (written : Nat) :
    Outcome (InsertionResult × ReorderedBuffer) :=
  match segment with
  | none => .panic (.explicit "called `Option::unwrap()` on a `None` value")
  | some segment => do
    -- since we are writing to the beginning, this must always be the head
    check (b.segmentList.isHead segment) "self.segment_list.is_head(segment)"
    let seg ← b.segmentList.getSegment segment
    let segEnd := seg.stop
    let incr := wrappingSub 32 segEnd b.tailSeq
    let written := if truncate 32 written < incr then incr else written
    let b := { b with data := b.data.seekTail incr, tailSeq := segEnd }
    let one ← b.segmentList.oneSegment
    if one then
      -- only one segment is left: back to the fast path
      let l ← b.segmentList.clear fuel
      let b := { b with segmentList := l, state := .connected }
      .ok (.inserted written b.available, b)
    else
      .ok (.inserted written b.available, b)

/-- `out_of_order_insert` when the data starts at the tail. -/
def insertAtTail (fuel : Nat) (b : ReorderedBuffer) (data : List UInt8) :
    Outcome (InsertionResult × ReorderedBuffer) := do
  let seq := b.tailSeq
  let (written, ring) ← b.data.writeAtTail data
  let b := { b with data := ring, tailSeq := wrappingAdd 32 b.tailSeq (truncate 32 written) }
  let (segment, l) ← b.segmentList.insertSegment fuel seq (truncate 16 written)
  advanceTail fuel { b with segmentList := l } segment written

/-- `out_of_order_insert`. -/
def outOfOrderInsert (fuel : Nat) (b : ReorderedBuffer) (seq : Nat) (data : List UInt8) :
    Outcome (InsertionResult × ReorderedBuffer) := do
  if b.tailSeq = seq then
    b.insertAtTail fuel data
  else if b.tailSeq ≥ seq then
    let offset ← checkedSub b.tailSeq seq
    if data.length > offset then
      let rest ← sliceFrom data offset
      b.insertAtTail fuel rest
    else
      .ok (.inserted 0 b.available, b)
  else
    let offset ← checkedSub seq b.tailSeq
    let (written, ring) ← b.data.writeAtOffsetFromTail offset data
    let (_, l) ← b.segmentList.insertSegment fuel seq (truncate 16 written)
    let b := { b with data := ring, segmentList := l }
    .ok (b.report written data.length, b)

/-- `slow_path_insert`. -/
def slowPathInsert (fuel : Nat) (b : ReorderedBuffer) (seq : Nat) (data : List UInt8) :
    Outcome (InsertionResult × ReorderedBuffer) := do
  let stop := wrappingAdd 32 seq (truncate 32 data.length)
  if b.tailSeq > seq ∧ stop > b.tailSeq then
    -- some of the data overlaps with what we have received before
    let begin ← checkedSub b.tailSeq seq
    let rest ← sliceFrom data begin
    b.fastPathInsert rest
  else if stop < b.tailSeq then
    -- all the data overlaps
    .ok (.inserted 0 b.available, b)
  else
    -- the in-order data goes into the segment list too from now on
    let b ← addHeadToSegList fuel { b with state := .connectedOutOfOrder }
    b.outOfOrderInsert fuel seq data

/-- `add_data`. -/
def addData (fuel : Nat) (b : ReorderedBuffer) (seq : Nat) (data : List UInt8) :
    Outcome (InsertionResult × ReorderedBuffer) :=
  match b.state with
  | .connected =>
    if seq = b.tailSeq then b.fastPathInsert data else b.slowPathInsert fuel seq data
  | .connectedOutOfOrder => b.outOfOrderInsert fuel seq data
  | .closed => .panic (.explicit "Unexpected data")

/-- `read_data_common`: the number of bytes, the buffer they are in, and the
state after. -/
def readDataCommon (b : ReorderedBuffer) (data : List UInt8) :
    Outcome ((Nat × List UInt8) × ReorderedBuffer) := do
  let ((read, data), ring) ← b.data.readFromHead data
  .ok ((read, data),
    { b with data := ring, headSeq := wrappingAdd 32 b.headSeq (truncate 32 read) })

/-- `read_data`. -/
def readData (fuel : Nat) (b : ReorderedBuffer) (data : List UInt8) :
    Outcome ((Nat × List UInt8) × ReorderedBuffer) :=
  match b.state with
  | .connected => b.readDataCommon data
  | .connectedOutOfOrder => do
    let seq := b.headSeq
    let ((read, data), b) ← b.readDataCommon data
    let (_, l) ← b.segmentList.consumeHeadData fuel seq (truncate 16 read)
    .ok ((read, data), { b with segmentList := l })
  | .closed => .ok ((0, data), b)

def isEstablished (b : ReorderedBuffer) : Bool :=
  match b.state with
  | .closed => false
  | _ => true

theorem newWithSegments_eq_ok {size segs : Nat} {b : ReorderedBuffer}
    (h : newWithSegments size segs = .ok (.ok b)) :
    ∃ ring, RingBuffer.new (roundToPowerOf2 size) = .ok (.ok ring) ∧
      b = { data := ring, bufferSize := roundToPowerOf2 size, state := .closed, headSeq := 0,
            tailSeq := 0, segmentList := SegmentList.new segs } := by
  unfold newWithSegments at h
  dsimp only at h
  rw [bind_eq_ok] at h
  obtain ⟨ring, hring, h⟩ := h
  cases ring with
  | error e => cases h
  | ok ring =>
    cases h
    exact ⟨ring, hring, rfl⟩

/-- A new buffer is closed, with an empty ring and an empty segment list. -/
theorem of_newWithSegments {size segs : Nat} {b : ReorderedBuffer}
    (h : newWithSegments size segs = .ok (.ok b)) :
    ∃ k, RingBuffer.At k 0 0 b.data ∧ roundToPowerOf2 size = 2 ^ k ∧ b.state = .closed ∧
      b.segmentList = SegmentList.new segs := by
  obtain ⟨ring, hring, rfl⟩ := newWithSegments_eq_ok h
  obtain ⟨k, hat, hk⟩ := RingBuffer.geom_of_new (wrappingAdd_lt _ _ _) hring
  exact ⟨k, hat, hk, rfl, rfl⟩

theorem of_new {size : Nat} {b : ReorderedBuffer} (h : new size = .ok (.ok b)) :
    ∃ k, RingBuffer.At k 0 0 b.data ∧ roundToPowerOf2 size = 2 ^ k ∧ b.state = .closed ∧
      b.segmentList = SegmentList.new (size / 64) :=
  of_newWithSegments h

/-! ## Calls that return

What a call that returns has done, one way for each branch that does. -/

section Returns

variable {b b' : ReorderedBuffer} {fuel seq : Nat} {data : List UInt8} {r : InsertionResult}

theorem fastPathInsert_eq_ok (h : b.fastPathInsert data = .ok (r, b')) :
    ∃ n ring, b.data.writeAtTail data = .ok (n, ring) ∧ r = b'.report n data.length ∧
      b' = { b with data := ring, tailSeq := wrappingAdd 32 b.tailSeq (truncate 32 n) } := by
  unfold fastPathInsert at h
  rw [bind_eq_ok] at h
  obtain ⟨⟨n, ring⟩, hw, h⟩ := h
  cases h
  exact ⟨n, ring, hw, rfl, rfl⟩

/-- The tail has moved to the end of the head segment. The list is cleared when that was
its only segment, with the buffer in order again. -/
theorem advanceTail_eq_ok {segment : Option Int} {written : Nat}
    (h : b.advanceTail fuel segment written = .ok (r, b')) :
    ∃ seg l s n, segment = some b.segmentList.head ∧
      b.segmentList.get? b.segmentList.head = some seg ∧ (s = b.state ∨ s = .connected) ∧
      r = .inserted n b'.available ∧
      b' = { b with
        data := b.data.seekTail (wrappingSub 32 seg.stop b.tailSeq)
        tailSeq := seg.stop, segmentList := l, state := s } := by
  unfold advanceTail at h
  cases segment with
  | none => cases h
  | some segment =>
    dsimp only at h
    rw [bind_eq_ok] at h
    obtain ⟨_, hcheck, h⟩ := h
    have hhead : b.segmentList.head = segment := eq_of_beq (check_eq_ok.mp hcheck)
    rw [bind_eq_ok] at h
    obtain ⟨seg, hget, h⟩ := h
    have hget := SegmentList.seg_eq_ok.mp hget
    rw [← hhead] at hget ⊢
    rw [bind_eq_ok] at h
    obtain ⟨one, -, h⟩ := h
    split at h
    · rw [bind_eq_ok] at h
      obtain ⟨l, -, h⟩ := h
      cases h
      exact ⟨seg, l, .connected, _, rfl, hget, .inr rfl, rfl, rfl⟩
    · cases h
      exact ⟨seg, b.segmentList, b.state, _, rfl, hget, .inl rfl, rfl, rfl⟩

theorem insertAtTail_eq_ok (h : b.insertAtTail fuel data = .ok (r, b')) :
    ∃ n ring segment l, b.data.writeAtTail data = .ok (n, ring) ∧
      b.segmentList.insertSegment fuel b.tailSeq (truncate 16 n) = .ok (segment, l) ∧
      advanceTail fuel { b with
        data := ring, tailSeq := wrappingAdd 32 b.tailSeq (truncate 32 n), segmentList := l }
        segment n = .ok (r, b') := by
  unfold insertAtTail at h
  rw [bind_eq_ok] at h
  obtain ⟨⟨n, ring⟩, hw, h⟩ := h
  dsimp only at h
  rw [bind_eq_ok] at h
  obtain ⟨⟨segment, l⟩, hins, h⟩ := h
  exact ⟨n, ring, segment, l, hw, hins, h⟩

theorem addHeadToSegList_eq_ok (h : addHeadToSegList fuel b = .ok b') :
    ∃ l, b' = { b with segmentList := l } := by
  unfold addHeadToSegList at h
  rw [bind_eq_ok] at h
  obtain ⟨l, -, h⟩ := h
  cases h
  exact ⟨l, rfl⟩

/-- The ways of `out_of_order_insert`. -/
inductive OutOfOrderInserted (fuel : Nat) (b : ReorderedBuffer) (seq : Nat) (data : List UInt8)
    (r : InsertionResult) (b' : ReorderedBuffer) : Prop where
  /-- What is new of the data went to the tail. -/
  | atTail (hle : seq ≤ b.tailSeq) (hnew : seq = b.tailSeq ∨ b.tailSeq - seq < data.length)
      (h : b.insertAtTail fuel (data.drop (b.tailSeq - seq)) = .ok (r, b'))
  /-- All of it was received before. -/
  | old (hlt : seq < b.tailSeq) (hold : data.length ≤ b.tailSeq - seq)
      (hr : r = .inserted 0 b.available) (hb : b' = b)
  | ahead (hlt : b.tailSeq < seq) {n : Nat} {ring : RingBuffer} {segment : Option Int}
      {l : SegmentList} (hw : b.data.writeAtOffsetFromTail (seq - b.tailSeq) data = .ok (n, ring))
      (hins : b.segmentList.insertSegment fuel seq (truncate 16 n) = .ok (segment, l))
      (hr : r = b'.report n data.length) (hb : b' = { b with data := ring, segmentList := l })

theorem outOfOrderInsert_of_new (hle : seq ≤ b.tailSeq)
    (hnew : seq = b.tailSeq ∨ b.tailSeq - seq < data.length) :
    b.outOfOrderInsert fuel seq data = b.insertAtTail fuel (data.drop (b.tailSeq - seq)) := by
  unfold outOfOrderInsert
  by_cases heq : b.tailSeq = seq
  · rw [if_pos heq, heq, Nat.sub_self]
    rfl
  · have hlen : b.tailSeq - seq < data.length := hnew.resolve_left (fun h => heq h.symm)
    rw [if_neg heq, if_pos hle, checkedSub_of_le hle, bind_ok, if_pos hlen,
      sliceFrom_of_le (Nat.le_of_lt hlen), bind_ok]

theorem outOfOrderInsert_of_old (hlt : seq < b.tailSeq) (hold : data.length ≤ b.tailSeq - seq) :
    b.outOfOrderInsert fuel seq data = .ok (.inserted 0 b.available, b) := by
  unfold outOfOrderInsert
  rw [if_neg (by omega), if_pos (by omega), checkedSub_of_le (by omega), bind_ok,
    if_neg (by omega)]

theorem outOfOrderInsert_eq_ok (h : b.outOfOrderInsert fuel seq data = .ok (r, b')) :
    OutOfOrderInserted fuel b seq data r b' := by
  by_cases hle : seq ≤ b.tailSeq
  · by_cases hnew : seq = b.tailSeq ∨ b.tailSeq - seq < data.length
    · rw [outOfOrderInsert_of_new hle hnew] at h
      exact .atTail hle hnew h
    · rw [outOfOrderInsert_of_old (by omega) (by omega)] at h
      cases h
      exact .old (by omega) (by omega) rfl rfl
  · unfold outOfOrderInsert at h
    rw [if_neg (by omega), if_neg (by omega), checkedSub_of_le (by omega), bind_ok,
      bind_eq_ok] at h
    obtain ⟨⟨n, ring⟩, hw, h⟩ := h
    rw [bind_eq_ok] at h
    obtain ⟨⟨segment, l⟩, hins, h⟩ := h
    cases h
    exact .ahead (by omega) hw hins rfl rfl

/-- The ways of `slow_path_insert`. -/
inductive SlowPathInserted (fuel : Nat) (b : ReorderedBuffer) (seq : Nat) (data : List UInt8)
    (r : InsertionResult) (b' : ReorderedBuffer) : Prop where
  /-- Some of the data was received before. -/
  | overlap (hlt : seq < b.tailSeq)
      (hstop : b.tailSeq < wrappingAdd 32 seq (truncate 32 data.length))
      (h : b.fastPathInsert (data.drop (b.tailSeq - seq)) = .ok (r, b'))
  | old (hold : wrappingAdd 32 seq (truncate 32 data.length) < b.tailSeq)
      (hr : r = .inserted 0 b.available) (hb : b' = b)
  | outOfOrder (hstop : b.tailSeq ≤ wrappingAdd 32 seq (truncate 32 data.length))
      (hnew : seq < b.tailSeq → wrappingAdd 32 seq (truncate 32 data.length) ≤ b.tailSeq)
      (l : SegmentList)
      (h : outOfOrderInsert fuel { b with state := .connectedOutOfOrder, segmentList := l } seq data
        = .ok (r, b'))

theorem slowPathInsert_eq_ok (h : b.slowPathInsert fuel seq data = .ok (r, b')) :
    SlowPathInserted fuel b seq data r b' := by
  unfold slowPathInsert at h
  dsimp only at h
  split at h
  · next hover =>
    rw [checkedSub_of_le (Nat.le_of_lt hover.1), bind_ok, bind_eq_ok] at h
    obtain ⟨rest, hrest, h⟩ := h
    unfold sliceFrom at hrest
    split at hrest
    · cases hrest
      exact .overlap hover.1 hover.2 h
    · cases hrest
  · next hover =>
    split at h
    · next hold =>
      cases h
      exact .old hold rfl rfl
    · rw [bind_eq_ok] at h
      obtain ⟨b₁, hb₁, h⟩ := h
      obtain ⟨l, rfl⟩ := addHeadToSegList_eq_ok hb₁
      exact .outOfOrder (by omega) (fun hlt => by omega) l h

theorem readDataCommon_eq_ok {n : Nat} {out : List UInt8}
    (h : b.readDataCommon data = .ok ((n, out), b')) :
    ∃ ring, b.data.readFromHead data = .ok ((n, out), ring) ∧
      b' = { b with data := ring, headSeq := wrappingAdd 32 b.headSeq (truncate 32 n) } := by
  unfold readDataCommon at h
  rw [bind_eq_ok] at h
  obtain ⟨⟨⟨n', out'⟩, ring⟩, hread, h⟩ := h
  cases h
  exact ⟨ring, hread, rfl⟩

/-- `read_data` out of order: what was read is taken off the list as well. -/
theorem readData_outOfOrder_eq_ok {n : Nat} {out : List UInt8} (hs : b.state = .connectedOutOfOrder)
    (h : b.readData fuel data = .ok ((n, out), b')) :
    ∃ ring all l, b.data.readFromHead data = .ok ((n, out), ring) ∧
      b.segmentList.consumeHeadData fuel b.headSeq (truncate 16 n) = .ok (all, l) ∧
      b' = { b with
        data := ring, headSeq := wrappingAdd 32 b.headSeq (truncate 32 n), segmentList := l } := by
  unfold readData at h
  rw [hs] at h
  dsimp only at h
  rw [bind_eq_ok] at h
  obtain ⟨⟨⟨n', out'⟩, b₁⟩, hcommon, h⟩ := h
  obtain ⟨ring, hread, rfl⟩ := readDataCommon_eq_ok hcommon
  rw [bind_eq_ok] at h
  obtain ⟨⟨all, l⟩, hconsume, h⟩ := h
  cases h
  exact ⟨ring, all, l, hread, hconsume, rfl⟩

/-- The ways of `read_data`. -/
inductive ReadFrom (b : ReorderedBuffer) (data : List UInt8) (n : Nat) (out : List UInt8)
    (b' : ReorderedBuffer) : Prop where
  | closed (hclosed : b.state = .closed) (hn : n = 0) (hb : b' = b)
  | opened (hopen : b.state ≠ .closed) {ring : RingBuffer} {l : SegmentList}
      (hread : b.data.readFromHead data = .ok ((n, out), ring))
      (hb : b' = { b with
        data := ring, headSeq := wrappingAdd 32 b.headSeq (truncate 32 n), segmentList := l })

theorem readData_eq_ok {n : Nat} {out : List UInt8}
    (h : b.readData fuel data = .ok ((n, out), b')) : b.ReadFrom data n out b' := by
  cases hs : b.state with
  | closed =>
    unfold readData at h
    rw [hs] at h
    cases h
    exact .closed hs rfl rfl
  | connected =>
    unfold readData at h
    rw [hs] at h
    obtain ⟨ring, hread, rfl⟩ := readDataCommon_eq_ok h
    exact .opened (hs ▸ nofun) hread rfl
  | connectedOutOfOrder =>
    obtain ⟨ring, all, l, hread, -, rfl⟩ := readData_outOfOrder_eq_ok hs h
    exact .opened (hs ▸ nofun) hread rfl

end Returns

end ReorderedBuffer

/-- A call after `seq`. The bytes of a read are the caller's buffer. -/
inductive BufferOp where
  | addData (seq : UInt32) (data : List UInt8)
  | readData (data : List UInt8)
  deriving DecidableEq, Repr

/-- What a call returns. -/
inductive BufferResult where
  | insertion (r : InsertionResult)
  | read (n : Nat) (data : List UInt8)
  deriving DecidableEq, Repr

/-- One call. -/
def ReorderedBuffer.step (fuel : Nat) (b : ReorderedBuffer) :
    BufferOp → Outcome (BufferResult × ReorderedBuffer)
  | .addData seq data => do
    let (r, b) ← b.addData fuel seq.toNat data
    .ok (.insertion r, b)
  | .readData data => do
    let ((n, data), b) ← b.readData fuel data
    .ok (.read n data, b)

/-- Any call, `seq` among them. -/
inductive BufferCall where
  | seq (seq : UInt32) (data : List UInt8)
  | op (op : BufferOp)
  deriving DecidableEq, Repr

/-- One such call. -/
def ReorderedBuffer.call (fuel : Nat) (b : ReorderedBuffer) :
    BufferCall → Outcome (BufferResult × ReorderedBuffer)
  | .seq seq data => do
    let (r, b) ← b.seq seq.toNat data
    .ok (.insertion r, b)
  | .op op => b.step fuel op

/-- Any call in the life of a buffer, `reset` among them. -/
inductive BufferUse where
  | reset
  | call (call : BufferCall)
  deriving DecidableEq, Repr

/-- One such call; `reset` returns nothing. -/
def ReorderedBuffer.use (fuel : Nat) (b : ReorderedBuffer) :
    BufferUse → Outcome (Option BufferResult × ReorderedBuffer)
  | .reset => do
    let b ← b.reset fuel
    .ok (none, b)
  | .call call => do
    let (r, b) ← b.call fuel call
    .ok (some r, b)

section Calls

variable {b b' : ReorderedBuffer} {fuel : Nat} {data : List UInt8} {r : BufferResult}

theorem ReorderedBuffer.step_addData_eq_ok {seq : UInt32}
    (h : b.step fuel (.addData seq data) = .ok (r, b')) :
    ∃ i, b.addData fuel seq.toNat data = .ok (i, b') ∧ r = .insertion i := by
  unfold step at h
  rw [bind_eq_ok] at h
  obtain ⟨⟨i, b₁⟩, hadd, h⟩ := h
  cases h
  exact ⟨i, hadd, rfl⟩

theorem ReorderedBuffer.step_readData_eq_ok (h : b.step fuel (.readData data) = .ok (r, b')) :
    ∃ n out, b.readData fuel data = .ok ((n, out), b') ∧ r = .read n out := by
  unfold step at h
  rw [bind_eq_ok] at h
  obtain ⟨⟨⟨n, out⟩, b₁⟩, hread, h⟩ := h
  cases h
  exact ⟨n, out, hread, rfl⟩

theorem ReorderedBuffer.call_seq_eq_ok {seq : UInt32}
    (h : b.call fuel (.seq seq data) = .ok (r, b')) :
    ∃ i, b.seq seq.toNat data = .ok (i, b') ∧ r = .insertion i := by
  unfold call at h
  rw [bind_eq_ok] at h
  obtain ⟨⟨i, b₁⟩, hseq, h⟩ := h
  cases h
  exact ⟨i, hseq, rfl⟩

theorem ReorderedBuffer.use_call_eq_ok {call : BufferCall} {o : Option BufferResult}
    (h : b.use fuel (.call call) = .ok (o, b')) :
    ∃ r, b.call fuel call = .ok (r, b') ∧ o = some r := by
  unfold use at h
  rw [bind_eq_ok] at h
  obtain ⟨⟨r, b₁⟩, hcall, h⟩ := h
  cases h
  exact ⟨r, hcall, rfl⟩

end Calls

end NetBricks.State
