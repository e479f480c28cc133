import NetBricks.State.ReorderedBuffer
import NetBricks.State.SegmentCover
import NetBricks.Lib.Machine

/-!
# When `ReorderedBuffer` reassembles the stream

The buffer is fed slices of one byte stream `S`, each at its own sequence
number, and read in between. What it returns should be a front part of `S`, all
of it delivered before it was read.

`out_of_order_insert` decides by the segment list how far the tail may jump when
in-order data arrives. The list does not only record what was received: a
segment beyond the tail is merged with the head segment whether or not they
touch (`SegmentList.walk`, third branch), so the gap between them is recorded
too, and the tail jumps over bytes that never arrived
(`reorderedBuffer_returns_undelivered`).

`InSequence` is what a caller has to ensure, call by call: the slice lies in the
same `2 ^ 32` block of sequence numbers as the tail, and in-order data that
arrives while out-of-order data is held (`Fills`) fits the 16-bit length of the
head segment and leaves nothing recorded behind it that has not been stored. In
runs of such calls the stream is intact (`reorderedBuffer_streams`); the
invariant is `Streams`.

`Tracked` adds to the buffer what no code reads: how many bytes have been
returned and which, and the ranges of the stream that have been stored.
-/

namespace NetBricks.State

open Lib
open Lib.Outcome

/-- `len` bytes of the stream from position `start` on. -/
def slice (S : List UInt8) (start len : Nat) : List UInt8 := (S.drop start).take len

/-- The sequence number of a position of the stream. -/
def seqAt (seq0 : UInt32) (p : Nat) : Nat := (seq0.toNat + p) % 2 ^ 32

/-- A delivery of a slice, or a read into a buffer. -/
inductive StreamOp where
  | add (start len : Nat)
  | read (data : List UInt8)
  deriving DecidableEq, Repr

/-- The call a stream operation makes. -/
def StreamOp.call (S : List UInt8) (seq0 : UInt32) : StreamOp → BufferOp
  | .add start len => .addData (seq0 + UInt32.ofNat start) (slice S start len)
  | .read data => .readData data

/-- A buffer with the history of its run. -/
structure Tracked where
  buf : ReorderedBuffer
  /-- How many bytes have been returned. -/
  read : Nat
  /-- The ranges of the stream that were delivered, cut off at the end of the
  buffer as it was then. -/
  stored : List (Nat × Nat)
  /-- The bytes that have been returned. -/
  out : List UInt8

namespace Tracked

/-- Position `p` has been delivered while it was inside the buffer. -/
def Stored (x : Tracked) (p : Nat) : Prop := ∃ r ∈ x.stored, r.1 ≤ p ∧ p < r.2

/-- The position behind the in-order data. -/
def tail (x : Tracked) : Nat := x.read + x.buf.available

/-- The history after a call that returned `r` and left the buffer `b`. -/
def record (S : List UInt8) (x : Tracked) (b : ReorderedBuffer) : StreamOp → BufferResult → Tracked
  | .add start len, _ =>
    { x with
      buf := b
      stored := (start, min (start + (slice S start len).length) (x.read + x.buf.data.mask)) ::
        x.stored }
  | .read _, .read n data => { x with buf := b, read := x.read + n, out := x.out ++ data.take n }
  | .read _, .insertion _ => { x with buf := b }

/-- One call, with its history. -/
def step (S : List UInt8) (seq0 : UInt32) (fuel : Nat) (x : Tracked) (op : StreamOp) :
    Outcome (BufferResult × Tracked) := do
  let (r, b) ← x.buf.step fuel (op.call S seq0)
  .ok (r, x.record S b op r)

/-- A buffer before its first call. -/
def fresh (b : ReorderedBuffer) : Tracked := { buf := b, read := 0, stored := [], out := [] }

/-- `seq` with the first `len` bytes of the stream. -/
def start (S : List UInt8) (seq0 : UInt32) (b : ReorderedBuffer) (len : Nat) : Outcome Tracked := do
  let (r, b') ← b.seq seq0.toNat (slice S 0 len)
  .ok ((fresh b).record S b' (.add 0 len) (.insertion r))

end Tracked

/-! ## What a caller has to ensure -/

/-- The sequence numbers of the two positions have not wrapped between them: they lie in the
same block of `2 ^ 32`, where the order of the numbers is that of the positions. -/
def SameBlock (seq0 : UInt32) (t p : Nat) : Prop :=
  (seq0.toNat + p) / 2 ^ 32 = (seq0.toNat + t) / 2 ^ 32

/-- `w` bytes at the tail can be recorded without a false claim about the stream. They are few
enough for one call (`short`); the head segment takes them without its length leaving 16 bits
(`head`); and what the list records behind them, as far as a stretched segment can reach, has
been stored (`recorded`), so that the tail may be moved over it. -/
structure Fills (seq0 : UInt32) (x : Tracked) (w : Nat) : Prop where
  short : w ≤ u16Max
  head : ∀ s, x.buf.segmentList.get? x.buf.segmentList.head = some s →
    SegmentList.HeadFits x.buf.tailSeq w s
  recorded : ∀ s ∈ x.buf.segmentList.storage, ∀ j, j < s.length → ∀ i, i ≤ u16Max →
    wrappingAdd 32 s.seq j = seqAt seq0 (x.tail + w + i) → x.Stored (x.tail + w + i)

theorem seqAt_lt (seq0 : UInt32) (p : Nat) : seqAt seq0 p < 2 ^ 32 := Nat.mod_lt _ (by decide)

theorem seqAt_add (seq0 : UInt32) (p n : Nat) :
    wrappingAdd 32 (seqAt seq0 p) (truncate 32 n) = seqAt seq0 (p + n) := by
  unfold wrappingAdd truncate seqAt
  rw [← Nat.add_mod, Nat.add_assoc]

/-- Within one block sequence numbers are as far apart as positions. -/
theorem SameBlock.seqAt {seq0 : UInt32} {t p : Nat} (h : SameBlock seq0 t p) :
    State.seqAt seq0 p + t = State.seqAt seq0 t + p := by
  unfold SameBlock at h
  unfold State.seqAt
  have h₁ := Nat.div_add_mod (seq0.toNat + p) (2 ^ 32)
  have h₂ := Nat.div_add_mod (seq0.toNat + t) (2 ^ 32)
  rw [h] at h₁
  omega

theorem getElem?_slice {S : List UInt8} {start len i : Nat} (h : i < (slice S start len).length) :
    (slice S start len)[i]? = S[start + i]? := by
  unfold slice at h ⊢
  rw [List.length_take] at h
  rw [List.getElem?_take_of_lt (by omega), List.getElem?_drop]

theorem slice_stop_le {S : List UInt8} {start len p : Nat} (h₁ : start ≤ p)
    (h₂ : p < start + (slice S start len).length) : p < S.length := by
  unfold slice at h₂
  rw [List.length_take, List.length_drop] at h₂
  omega

/-! ## The invariant -/

/-- The invariant of a stream. The counters stand for the position `x.read` of the next byte to
return and the position `t` behind the in-order data (`ring`, `headSeq_eq`, `tailSeq_eq`).
Everything in order has been stored (`inOrder`), what has been stored and not returned is in the
ring, with the byte of the stream in its cell (`held`), and nothing is stored from behind the
stream (`inStream`). What has been returned is the stream up to `x.read` (`out_eq`). -/
structure Streams (S : List UInt8) (seq0 : UInt32) (k t : Nat) (x : Tracked) : Prop where
  ring : RingBuffer.At k x.read t x.buf.data
  established : x.buf.state ≠ .closed
  headSeq_eq : x.buf.headSeq = seqAt seq0 x.read
  tailSeq_eq : x.buf.tailSeq = seqAt seq0 t
  inOrder : ∀ p, p < t → x.Stored p
  held : ∀ p, x.Stored p → x.read ≤ p →
    p < x.read + (2 ^ k - 1) ∧ cell x.buf.data.vec p = S[p]?
  inStream : ∀ p, x.Stored p → p < S.length
  out_eq : x.out = S.take x.read

theorem Streams.tail_eq {S : List UInt8} {seq0 : UInt32} {k t : Nat} {x : Tracked}
    (h : Streams S seq0 k t x) : x.tail = t := by
  have hle := h.ring.le
  show x.read + x.buf.data.available = t
  rw [RingBuffer.available_eq h.ring]
  omega

theorem stored_cons {x : Tracked} {r : Nat × Nat} {b : ReorderedBuffer} {p : Nat} :
    Tracked.Stored { x with buf := b, stored := r :: x.stored } p ↔
      (r.1 ≤ p ∧ p < r.2) ∨ x.Stored p := by
  constructor
  · rintro ⟨q, hq, hp⟩
    rcases List.mem_cons.mp hq with rfl | hq
    · exact Or.inl hp
    · exact Or.inr ⟨q, hq, hp⟩
  · rintro (hp | ⟨q, hq, hp⟩)
    · exact ⟨r, List.mem_cons_self, hp⟩
    · exact ⟨q, List.mem_cons_of_mem _ hq, hp⟩

/-- What a delivery has to do: put the part of the slice that is new and inside
the buffer into the ring, leave the rest of the ring alone, and move the tail
over stored positions only. -/
theorem Streams.add {S : List UInt8} {seq0 : UInt32} {k t t' : Nat} {x : Tracked}
    (h : Streams S seq0 k t x) {start len : Nat} {b : ReorderedBuffer} (r : BufferResult)
    (hring : RingBuffer.At k x.read t' b.data) (hstate : b.state ≠ .closed)
    (hhead : b.headSeq = x.buf.headSeq) (htail : b.tailSeq = seqAt seq0 t')
    (hnew : ∀ p, t ≤ p → start ≤ p →
      p < min (start + (slice S start len).length) (x.read + (2 ^ k - 1)) →
      cell b.data.vec p = S[p]?)
    (hold : ∀ p, x.read ≤ p → p < x.read + (2 ^ k - 1) →
      cell b.data.vec p = cell x.buf.data.vec p ∨ cell b.data.vec p = S[p]?)
    (hjump : ∀ p, t ≤ p → p < t' →
      (start ≤ p ∧ p < min (start + (slice S start len).length) (x.read + (2 ^ k - 1))) ∨
        x.Stored p) :
    Streams S seq0 k t' (x.record S b (.add start len) r) := by
  have hk := Nat.two_pow_pos k
  have hle := h.ring.le
  have hroom := h.ring.room
  have hmask : x.buf.data.mask = 2 ^ k - 1 := h.ring.mask_eq
  have hrec : x.record S b (.add start len) r =
      { x with
        buf := b
        stored := (start, min (start + (slice S start len).length) (x.read + (2 ^ k - 1))) ::
          x.stored } := by
    unfold Tracked.record
    rw [hmask]
  rw [hrec]
  refine ⟨hring, hstate, hhead.trans h.headSeq_eq, htail, ?_, ?_, ?_, h.out_eq⟩
  · intro p hp
    rw [stored_cons]
    by_cases hpt : p < t
    · exact Or.inr (h.inOrder p hpt)
    · exact hjump p (by omega) hp
  · intro p hp hread
    have hread : x.read ≤ p := hread
    rw [stored_cons] at hp
    show p < x.read + (2 ^ k - 1) ∧ cell b.data.vec p = S[p]?
    -- a position stored before keeps its byte, whether or not it is written again
    have hkeep : x.Stored p → p < x.read + (2 ^ k - 1) ∧ cell b.data.vec p = S[p]? := by
      intro hst
      obtain ⟨hlt, hcell⟩ := h.held p hst hread
      refine ⟨hlt, ?_⟩
      rcases hold p hread hlt with hsame | hset
      · rw [hsame, hcell]
      · exact hset
    rcases hp with ⟨hge, hlt⟩ | hst
    · by_cases hpt : p < t
      · exact hkeep (h.inOrder p hpt)
      · have hlt : p < min (start + (slice S start len).length) (x.read + (2 ^ k - 1)) := hlt
        exact ⟨by omega, hnew p (by omega) hge hlt⟩
    · exact hkeep hst
  · intro p hp
    rw [stored_cons] at hp
    rcases hp with ⟨hge, hlt⟩ | hst
    · have hge : start ≤ p := hge
      have hlt : p < min (start + (slice S start len).length) (x.read + (2 ^ k - 1)) := hlt
      exact slice_stop_le hge (Nat.lt_of_lt_of_le hlt (Nat.min_le_left _ _))
    · exact h.inStream p hst

/-! ## Deliveries -/

/-- Data written at the tail, from position `t` of the stream on. -/
theorem Streams.writeAtTail {S : List UInt8} {seq0 : UInt32} {k t : Nat} {x : Tracked}
    (h : Streams S seq0 k t x) {start len : Nat} (hstart : start ≤ t)
    (hstop : t ≤ start + (slice S start len).length) {data : List UInt8}
    (hdata : data = (slice S start len).drop (t - start)) :
    ∃ ring, x.buf.data.writeAtTail data =
        .ok (min data.length (2 ^ k - 1 - (t - x.read)), ring) ∧
      RingBuffer.At k x.read (t + min data.length (2 ^ k - 1 - (t - x.read))) ring ∧
      t + min data.length (2 ^ k - 1 - (t - x.read)) =
        max t (min (start + (slice S start len).length) (x.read + (2 ^ k - 1))) ∧
      (∀ p, t ≤ p →
        p < min (start + (slice S start len).length) (x.read + (2 ^ k - 1)) →
        cell ring.vec p = S[p]?) ∧
      ∀ p, x.read ≤ p → p < x.read + (2 ^ k - 1) →
        cell ring.vec p = cell x.buf.data.vec p ∨ cell ring.vec p = S[p]? := by
  have hk := Nat.two_pow_pos k
  have hle := h.ring.le
  have hroom := h.ring.room
  obtain ⟨ring, heq, hat, hcell⟩ := RingBuffer.writeAtTail_at h.ring data
  have hlen : data.length = start + (slice S start len).length - t := by
    rw [hdata, List.length_drop]
    omega
  have hbyte : ∀ p, t ≤ p → p < start + (slice S start len).length → data[p - t]? = S[p]? := by
    intro p hp hlt
    rw [hdata, List.getElem?_drop, getElem?_slice (by omega)]
    congr 1
    omega
  refine ⟨ring, heq, hat, by omega, ?_, ?_⟩
  · intro p hp hlt
    rw [hcell p (by omega) (by omega), if_pos (by omega)]
    exact hbyte p hp (by omega)
  · intro p hp hlt
    rw [hcell p hp (by omega)]
    by_cases hin : t ≤ p ∧ p < t + min data.length (2 ^ k - 1 - (t - x.read))
    · rw [if_pos hin]
      exact Or.inr (hbyte p hin.1 (by omega))
    · rw [if_neg hin]
      exact Or.inl rfl

theorem Streams.fastPathInsert {S : List UInt8} {seq0 : UInt32} {k t : Nat} {x : Tracked}
    (h : Streams S seq0 k t x) {start len : Nat} (hstart : start ≤ t)
    (hstop : t ≤ start + (slice S start len).length) {r : InsertionResult} {b : ReorderedBuffer}
    (hins : x.buf.fastPathInsert ((slice S start len).drop (t - start)) = .ok (r, b))
    (r' : BufferResult) :
    ∃ t', Streams S seq0 k t' (x.record S b (.add start len) r') := by
  obtain ⟨ring, heq, hat, hend, hnew, hold⟩ := h.writeAtTail hstart hstop rfl
  unfold ReorderedBuffer.fastPathInsert at hins
  rw [heq, bind_ok] at hins
  cases hins
  refine ⟨_, h.add r' hat h.established rfl ?_ (fun p hp _ hlt => hnew p hp hlt) hold ?_⟩
  · show wrappingAdd 32 x.buf.tailSeq (truncate 32 _) = _
    rw [h.tailSeq_eq, seqAt_add]
  · intro p hp hlt
    exact Or.inl ⟨by omega, by omega⟩

/-- A delivery that changes neither the ring nor the counters: all of it is old,
or out of the buffer. -/
theorem Streams.ignore {S : List UInt8} {seq0 : UInt32} {k t : Nat} {x : Tracked}
    (h : Streams S seq0 k t x) {start len : Nat}
    (hstop : start + (slice S start len).length ≤ t) {b : ReorderedBuffer}
    (hring : b.data = x.buf.data) (hstate : b.state ≠ .closed)
    (hhead : b.headSeq = x.buf.headSeq) (htail : b.tailSeq = x.buf.tailSeq) (r : BufferResult) :
    Streams S seq0 k t (x.record S b (.add start len) r) := by
  refine h.add r (hring ▸ h.ring) hstate hhead (htail.trans h.tailSeq_eq) ?_ ?_ ?_
  · intro p hp _ hlt
    omega
  · intro p _ _
    rw [hring]
    exact Or.inl rfl
  · intro p hp hlt
    omega

/-- What the segment list allows the tail to jump over has been stored. -/
theorem Fills.jump {S : List UInt8} {seq0 : UInt32} {k t : Nat} {x : Tracked}
    (h : Streams S seq0 k t x) {w : Nat} (hw : seqAt seq0 t + w < 2 ^ 32)
    (hf : Fills seq0 x w) {fuel : Nat} {l : SegmentList} {segment : Int} {seg : Segment}
    (hins : x.buf.segmentList.insertSegment fuel x.buf.tailSeq w = .ok (some segment, l))
    (hhead : l.head = segment) (hseg : l.get? segment = some seg) :
    seg.stop = seqAt seq0 (t + w + wrappingSub 32 seg.stop (seqAt seq0 (t + w))) ∧
      ∀ i, i < wrappingSub 32 seg.stop (seqAt seq0 (t + w)) → x.Stored (t + w + i) := by
  have htail := h.tail_eq
  have hend : seqAt seq0 (t + w) = seqAt seq0 t + w := by
    unfold seqAt at hw ⊢
    rw [← Nat.add_assoc, ← Nat.mod_add_mod, Nat.mod_eq_of_lt hw]
  have hshort := hf.short
  have hcov : SegmentList.AllCover
      (fun y => ∀ i, i ≤ u16Max → y = seqAt seq0 (t + w + i) → x.Stored (t + w + i))
      x.buf.segmentList := by
    intro s hs j hj i hi hy
    have := hf.recorded s hs j hj i hi
    rw [htail] at this
    exact this hy
  have hstep : ∀ i, seqAt seq0 (t + w + i) = (seqAt seq0 t + w + i) % 2 ^ 32 := by
    intro i
    unfold seqAt
    rw [Nat.add_assoc, Nat.add_assoc, Nat.mod_add_mod, Nat.add_assoc]
  rw [h.tailSeq_eq] at hins
  obtain ⟨s, hs, hcover, hlen, hreach⟩ := SegmentList.insertSegment_covers hcov hw hf.short
    (by
      -- a number shortly before the end is not the number of a position behind it
      intro y hy hy' i hi heq
      rw [hstep i] at heq
      unfold u16Max at *
      omega)
    (by
      intro s hs
      have := hf.head s hs
      rwa [h.tailSeq_eq] at this) hins hhead
  rw [hseg] at hs
  cases hs
  unfold u16Max at hlen
  have hincr : wrappingSub 32 seg.stop (seqAt seq0 (t + w)) =
      seg.length - wrappingSub 32 (seqAt seq0 t + w) seg.seq := by
    rw [hend]
    exact wrappingSub_of_reach hw (by omega) hreach
  -- position `t + w + i` in the segment's own count
  have hcount : ∀ i, wrappingAdd 32 seg.seq (wrappingSub 32 (seqAt seq0 t + w) seg.seq + i) =
      seqAt seq0 (t + w + i) := by
    intro i
    have hadd := wrappingAdd_wrappingSub 32 (seqAt seq0 t + w) seg.seq
    rw [Nat.mod_eq_of_lt hw] at hadd
    unfold wrappingAdd at hadd ⊢
    rw [← Nat.add_assoc, ← Nat.mod_add_mod, hadd, hstep i]
  refine ⟨?_, ?_⟩
  · rw [← hcount, hincr, Nat.add_sub_cancel' hreach]
    rfl
  · intro i hi
    rw [hincr] at hi
    refine hcover (wrappingSub 32 (seqAt seq0 t + w) seg.seq + i) (by omega) i ?_ (hcount i)
    unfold u16Max
    omega

/-- In-order data while out-of-order data is held. -/
theorem Streams.insertAtTail {S : List UInt8} {seq0 : UInt32} {k t : Nat} {x : Tracked}
    (h : Streams S seq0 k t x) {start len : Nat} (hstart : start ≤ t)
    (hstop : t ≤ start + (slice S start len).length)
    (hblock : SameBlock seq0 t (start + (slice S start len).length))
    (hf : Fills seq0 x (min (start + (slice S start len).length - t) (2 ^ k - 1 - (t - x.read))))
    {fuel : Nat} {r : InsertionResult} {b : ReorderedBuffer}
    (hins : x.buf.insertAtTail fuel ((slice S start len).drop (t - start)) = .ok (r, b))
    (r' : BufferResult) :
    ∃ t', Streams S seq0 k t' (x.record S b (.add start len) r') := by
  have hk := Nat.two_pow_pos k
  have hle := h.ring.le
  have hroom := h.ring.room
  obtain ⟨ring, heq, hat, hend, hnew, hold⟩ := h.writeAtTail hstart hstop rfl
  have hlen : ((slice S start len).drop (t - start)).length =
      start + (slice S start len).length - t := by
    rw [List.length_drop]
    omega
  rw [hlen] at heq hat hend
  generalize hw : min (start + (slice S start len).length - t) (2 ^ k - 1 - (t - x.read)) = w
    at heq hat hend hf
  have hshort := hf.short
  have hseq := hblock.seqAt
  have hlt := seqAt_lt seq0 (start + (slice S start len).length)
  have hnowrap : seqAt seq0 t + w < 2 ^ 32 := by omega
  have htrunc : truncate 16 w = w := truncate_of_lt (Nat.lt_of_le_of_lt hshort (by decide))
  have htailSeq : wrappingAdd 32 x.buf.tailSeq (truncate 32 w) = seqAt seq0 (t + w) := by
    rw [h.tailSeq_eq, seqAt_add]
  obtain ⟨n, ring', segment, l, hwrite, hseg, hadv⟩ := ReorderedBuffer.insertAtTail_eq_ok hins
  rw [heq] at hwrite
  cases hwrite
  rw [htrunc] at hseg
  rw [htailSeq] at hadv
  obtain ⟨seg, l', s, n, rfl, hget, hs, -, rfl⟩ := ReorderedBuffer.advanceTail_eq_ok hadv
  obtain ⟨hstop', hjump⟩ := Fills.jump h hnowrap hf hseg rfl hget
  dsimp only at hs ⊢
  generalize hincr : wrappingSub 32 seg.stop (seqAt seq0 (t + w)) = incr at hstop' hjump ⊢
  -- the tail stays inside the buffer: the last position it jumps over is stored there
  have hfit : t + w + incr - x.read ≤ 2 ^ k - 1 := by
    by_cases hzero : incr = 0
    · have := hat.room
      omega
    · have := (h.held _ (hjump (incr - 1) (by omega)) (by omega)).1
      omega
  have hopen : s ≠ .closed := by
    rcases hs with rfl | rfl
    · exact h.established
    · nofun
  refine ⟨_, h.add r' (hat.seekTail hfit) hopen rfl hstop' ?_ ?_ ?_⟩
  · intro p hp _ hlt
    exact hnew p hp hlt
  · intro p hp hlt
    exact hold p hp hlt
  · intro p hp hlt
    by_cases hpw : p < t + w
    · exact Or.inl ⟨by omega, by omega⟩
    · obtain ⟨i, rfl⟩ := Nat.exists_eq_add_of_le (show t + w ≤ p by omega)
      exact Or.inr (hjump i (by omega))

theorem Streams.writeAhead {S : List UInt8} {seq0 : UInt32} {k t : Nat} {x : Tracked}
    (h : Streams S seq0 k t x) {start len : Nat} (hstart : t < start)
    {ring : RingBuffer} {written : Nat} {b : ReorderedBuffer}
    (hins : x.buf.data.writeAtOffsetFromTail (start - t) (slice S start len) = .ok (written, ring))
    (hring : b.data = ring) (hstate : b.state ≠ .closed)
    (hhead : b.headSeq = x.buf.headSeq) (htail : b.tailSeq = x.buf.tailSeq) (r : BufferResult) :
    Streams S seq0 k t (x.record S b (.add start len) r) := by
  have hk := Nat.two_pow_pos k
  have hle := h.ring.le
  have hroom := h.ring.room
  obtain ⟨ring', heq, hat, hcell⟩ :=
    RingBuffer.writeAtOffsetFromTail_at h.ring (start - t) (slice S start len)
  rw [heq] at hins
  cases hins
  have hoff : t + (start - t) = start := by omega
  rw [hoff] at hcell
  have hbyte : ∀ p, start ≤ p → p < start + (slice S start len).length →
      (slice S start len)[p - start]? = S[p]? := by
    intro p hp hlt
    rw [getElem?_slice (by omega)]
    congr 1
    omega
  refine h.add r (hring ▸ hat) hstate hhead (htail.trans h.tailSeq_eq) ?_ ?_ ?_
  · intro p hp hge hlt
    rw [hring, hcell p (by omega) (by omega), if_pos (by omega)]
    exact hbyte p hge (by omega)
  · intro p hp hlt
    rw [hring, hcell p hp (by omega)]
    split
    · next hin => exact Or.inr (hbyte p hin.1 (by omega))
    · exact Or.inl rfl
  · intro p hp hlt
    omega

/-- `out_of_order_insert` of a slice in the tail's block. -/
theorem Streams.outOfOrderInsert {S : List UInt8} {seq0 : UInt32} {k t : Nat} {x : Tracked}
    (h : Streams S seq0 k t x) {start len : Nat} (hblock : SameBlock seq0 t start)
    (hblock' : SameBlock seq0 t (start + (slice S start len).length))
    (hf : start ≤ t → start = t ∨ t < start + (slice S start len).length →
      Fills seq0 x (min (start + (slice S start len).length - t) (2 ^ k - 1 - (t - x.read))))
    {fuel : Nat} {r : InsertionResult} {b : ReorderedBuffer}
    (hins : x.buf.outOfOrderInsert fuel (seqAt seq0 start) (slice S start len) = .ok (r, b))
    (r' : BufferResult) :
    ∃ t', Streams S seq0 k t' (x.record S b (.add start len) r') := by
  have hseq := hblock.seqAt
  have htail := h.tailSeq_eq
  cases ReorderedBuffer.outOfOrderInsert_eq_ok hins with
  | atTail hle hsome hins =>
    have hoff : x.buf.tailSeq - seqAt seq0 start = t - start := by omega
    rw [hoff] at hins
    exact h.insertAtTail (by omega) (by omega) hblock' (hf (by omega) (by omega)) hins r'
  | old _ _ _ hb =>
    rw [hb]
    exact ⟨t, h.ignore (by omega) rfl h.established rfl rfl r'⟩
  | ahead _ hwrite _ _ hb =>
    have hoff : seqAt seq0 start - x.buf.tailSeq = start - t := by omega
    rw [hoff] at hwrite
    rw [hb]
    refine ⟨t, h.writeAhead (by omega) hwrite ?_ ?_ ?_ ?_ r'⟩
    · rfl
    · exact h.established
    · rfl
    · rfl

theorem Streams.slowPathInsert {S : List UInt8} {seq0 : UInt32} {k t : Nat} {x : Tracked}
    (h : Streams S seq0 k t x) {start len : Nat} (hne : start ≠ t)
    (hblock : SameBlock seq0 t start)
    (hblock' : SameBlock seq0 t (start + (slice S start len).length))
    {fuel : Nat} {r : InsertionResult} {b : ReorderedBuffer}
    (hins : x.buf.slowPathInsert fuel (seqAt seq0 start) (slice S start len) = .ok (r, b))
    (r' : BufferResult) :
    ∃ t', Streams S seq0 k t' (x.record S b (.add start len) r') := by
  have hseq := hblock.seqAt
  have hseq' := hblock'.seqAt
  have htail := h.tailSeq_eq
  cases ReorderedBuffer.slowPathInsert_eq_ok hins with
  | overlap hlt hstop hins =>
    have hoff : x.buf.tailSeq - seqAt seq0 start = t - start := by omega
    rw [seqAt_add] at hstop
    rw [hoff] at hins
    exact h.fastPathInsert (by omega) (by omega) hins r'
  | old hold _ hb =>
    rw [seqAt_add] at hold
    rw [hb]
    exact ⟨t, h.ignore (by omega) rfl h.established rfl rfl r'⟩
  | outOfOrder hstop hnew l hins =>
    rw [seqAt_add] at hstop hnew
    -- the slice is ahead of the tail, or ends there: nothing of it is in order
    have h₁ : Streams S seq0 k t
        { x with buf := { x.buf with state := .connectedOutOfOrder, segmentList := l } } :=
      ⟨h.ring, nofun, h.headSeq_eq, h.tailSeq_eq, h.inOrder, h.held, h.inStream, h.out_eq⟩
    exact h₁.outOfOrderInsert hblock hblock' (fun h₂ h₃ => by omega) hins r'

end NetBricks.State
