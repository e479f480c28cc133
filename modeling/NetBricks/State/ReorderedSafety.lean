import NetBricks.State.ReorderedBuffer
import NetBricks.State.SegmentBlock
import NetBricks.Lib.Machine

/-!
# When `ReorderedBuffer` neither panics nor hangs

Both fail on short runs. After a retransmission of data that has been read, the
buffer is in `ConnectedOutOfOrder` with an empty segment list, and the next read
indexes the list at `-1` (`reorderedBuffer_read_panics`). And data that arrives
before the held segment, with a gap between them, sends `merge_at_idx` into a
loop that never ends (`reorderedBuffer_add_hangs`).

The conditions are on each call and the state it starts from. In-order data
while nothing is held out of order (`Connected`, `seq = tail_seq`) and reads in
`Connected` are always fine. Otherwise sequence numbers must not wrap inside the
buffer, the data must start inside it (`Within`), and every range that is handed
to `insert_segment` (`Accepts`) has to lie well to the held one:

* no panic (`reorderedBuffer_no_panic`): it joins the held range, or leaves a
  gap before it, in which case the call does not return; and reads find a
  segment (`Tame`);
* no hang (`reorderedBuffer_no_hang`): it joins the held range, or starts at the
  tail and straddles the start of the held range, in which case the call panics
  (`Progresses`).

The invariant of both is `Single`: the list holds at most one segment, which
ends inside the buffer.
-/

namespace NetBricks.State.ReorderedBuffer

open Lib
open Lib.Outcome
open SegmentList (Joins LeavesGap Straddles NoWrap span Holds)

/-! ## What a caller has to ensure -/

/-- How many of the bytes behind the tail are written. -/
def inOrder (b : ReorderedBuffer) (seq : Nat) (data : List UInt8) : Nat :=
  min (seq + data.length - b.tailSeq) (b.data.mask - b.available)

/-- How many bytes are written when the data starts ahead of the tail. -/
def ahead (b : ReorderedBuffer) (seq : Nat) (data : List UInt8) : Nat :=
  min data.length (b.data.mask - b.available - (seq - b.tailSeq))

/-- The range of the unread data. -/
def unread (b : ReorderedBuffer) : Option (Nat × Nat) :=
  if b.available = 0 then none else some (b.headSeq, b.available)

/-- Sequence numbers do not wrap inside the buffer. The code orders them as plain numbers, which
is the order of the bytes only as long as this holds. -/
def Unwrapped (b : ReorderedBuffer) : Prop := b.headSeq + b.data.mask < 2 ^ 32

/-- The data starts inside the buffer or before it. `start` keeps it out of the place behind the
buffer, where nothing can be stored; with `stop` the end of the data, which is compared as well,
has not wrapped either. -/
structure Within (b : ReorderedBuffer) (seq : Nat) (data : List UInt8) : Prop where
  unwrapped : b.Unwrapped
  start : seq ≤ b.headSeq + b.data.mask
  stop : seq + data.length < 2 ^ 32

/-- The ranges handed to `insert_segment` meet `P`, given the range that is held then. There are
three places where the code hands one over: on entering `ConnectedOutOfOrder`, where
`add_head_to_seg_list` records the unread bytes first; for data ahead of the tail; and for data
at the tail while something is held. -/
structure Accepts (P : Option (Nat × Nat) → Nat → Nat → Prop) (b : ReorderedBuffer) (seq : Nat)
    (data : List UInt8) : Prop where
  /-- The unread data is recorded before data ahead of the tail is, and also when
  data ends exactly at the tail. -/
  entering : b.state = .connected → b.tailSeq < seq ∨ seq + data.length = b.tailSeq →
    b.available ≤ u16Max ∧ (b.tailSeq < seq → P b.unread seq (b.ahead seq data))
  ahead : b.state = .connectedOutOfOrder → b.tailSeq < seq →
    P b.segmentList.block seq (b.ahead seq data)
  atTail : b.state = .connectedOutOfOrder → seq ≤ b.tailSeq →
    seq = b.tailSeq ∨ b.tailSeq < seq + data.length →
    P b.segmentList.block b.tailSeq (b.inOrder seq data)

/-- Data in order while nothing is held, or data in the buffer whose ranges join
the held one, or meet `E`. -/
def JoinsOr (E : Option (Nat × Nat) → Nat → Nat → Prop) (b : ReorderedBuffer) (seq : Nat)
    (data : List UInt8) : Prop :=
  (b.state = .connected ∧ seq = b.tailSeq) ∨
  (b.Within seq data ∧ b.Accepts (fun blk s w => Joins blk s w ∨ E blk s w) seq data)

/-- A call that does not panic: data that joins what is held or leaves a gap before it, so that
no length leaves 16 bits and no subtraction goes below zero. A read out of order needs a segment
on the list, since `consume_head_data` reads the first one without looking whether there is one,
and numbers that have not wrapped. -/
def Tame (b : ReorderedBuffer) : BufferOp → Prop
  | .addData seq data => b.JoinsOr LeavesGap seq.toNat data
  | .readData _ => b.state = .connected ∨ (b.Unwrapped ∧ b.segmentList.block ≠ none)

/-- A call that does not hang. Behind a gap the loop of `merge_at_idx` goes around forever, so
here the data joins what is held or, at the tail, reaches into it; it may then panic, which
`Tame` rules out. A read only has to find the numbers unwrapped. -/
def Progresses (b : ReorderedBuffer) : BufferOp → Prop
  | .addData seq data =>
    b.JoinsOr (fun blk s w => s = b.tailSeq ∧ Straddles blk s w) seq.toNat data
  | .readData _ => b.state = .connected ∨ b.Unwrapped

/-! ## The invariant -/

/-- The invariant of an established buffer that holds at most one range. The ring is at
positions `h` and `t` (`ring`), the sequence numbers are as far apart as these (`tailSeq_eq`),
and the list has the range `blk` and no other (`list`), none while nothing is out of order
(`idle`). With `inside` the held range ends inside the buffer, which is what makes the next
insertion and the next read find it where they look. -/
structure Single (k h t : Nat) (blk : Option (Nat × Nat)) (b : ReorderedBuffer) : Prop where
  ring : RingBuffer.At k h t b.data
  established : b.state ≠ .closed
  headSeq_lt : b.headSeq < 2 ^ 32
  tailSeq_eq : b.tailSeq = (b.headSeq + (t - h)) % 2 ^ 32
  list : b.segmentList.Holds blk
  idle : b.state = .connected → blk = none
  inside : ∀ a n, blk = some (a, n) → a + n ≤ b.headSeq + (2 ^ k - 1)

theorem Single.available_eq {k h t : Nat} {blk : Option (Nat × Nat)} {b : ReorderedBuffer}
    (hs : Single k h t blk b) : b.available = t - h := RingBuffer.available_eq hs.ring

theorem Single.unwrapped {k h t : Nat} {blk : Option (Nat × Nat)} {b : ReorderedBuffer}
    (hs : Single k h t blk b) (hu : b.Unwrapped) :
    b.headSeq + (2 ^ k - 1) < 2 ^ 32 ∧ b.tailSeq = b.headSeq + (t - h) := by
  unfold Unwrapped at hu
  rw [hs.ring.mask_eq] at hu
  have := hs.ring.room
  refine ⟨hu, ?_⟩
  rw [hs.tailSeq_eq, Nat.mod_eq_of_lt (by omega)]

theorem Single.noWrap {k h t : Nat} {blk : Option (Nat × Nat)} {b : ReorderedBuffer}
    (hs : Single k h t blk b) (hu : b.Unwrapped) : NoWrap blk := by
  rcases blk with _ | ⟨a, n⟩
  · trivial
  · have := hs.inside a n rfl
    have := (hs.unwrapped hu).1
    show a + n < 2 ^ 32
    omega

/-! ## Spans -/

/-- The span reaches to the end of the later of the two ranges. -/
theorem span_stop (blk : Option (Nat × Nat)) (seq len : Nat) :
    seq + len ≤ (span blk seq len).1 + (span blk seq len).2 ∧
      ∀ m, (∀ a n, blk = some (a, n) → a + n ≤ m) → seq + len ≤ m →
        (span blk seq len).1 + (span blk seq len).2 ≤ m := by
  rcases blk with _ | ⟨a, n⟩
  · exact ⟨Nat.le_refl _, fun m _ h => h⟩
  · have heq : (span (some (a, n)) seq len).1 + (span (some (a, n)) seq len).2 =
        max (a + n) (seq + len) := by
      unfold span
      dsimp only
      omega
    rw [heq]
    refine ⟨Nat.le_max_right _ _, fun m hm h => ?_⟩
    have := hm a n rfl
    omega

/-! ## Insertions -/

theorem Single.fastPathInsert {k h t : Nat} {blk : Option (Nat × Nat)} {b : ReorderedBuffer}
    (hs : Single k h t blk b) (hstate : b.state = .connected) (data : List UInt8) :
    ∃ r b' t', b.fastPathInsert data = .ok (r, b') ∧ Single k h t' blk b' := by
  obtain ⟨ring, heq, hat, -⟩ := RingBuffer.writeAtTail_at hs.ring data
  have hle := hs.ring.le
  have htail := hs.tailSeq_eq
  have hblk := hs.idle hstate
  generalize min data.length (2 ^ k - 1 - (t - h)) = w at heq hat
  unfold ReorderedBuffer.fastPathInsert
  rw [heq, bind_ok]
  refine ⟨_, _, t + w, rfl, hat, hs.established, hs.headSeq_lt, ?_, hs.list, hs.idle, ?_⟩
  · show wrappingAdd 32 b.tailSeq (truncate 32 w) = (b.headSeq + (t + w - h)) % 2 ^ 32
    unfold wrappingAdd truncate
    rw [htail]
    omega
  · intro a n hsome
    rw [hblk] at hsome
    cases hsome

section AtTail

variable {k h t : Nat} (fuel : Nat) {blk : Option (Nat × Nat)} {b : ReorderedBuffer}
  (hs : Single k h t blk b) (hu : b.Unwrapped) {data : List UInt8} {w : Nat}
  (hw : w = min data.length (2 ^ k - 1 - (t - h)))
include hs hu hw

/-- In-order data up to the call of `insert_segment`. -/
theorem Single.insertAtTail_eq (hfit : w ≤ u16Max) :
    ∃ ring, RingBuffer.At k h (t + w) ring ∧ b.tailSeq + w ≤ b.headSeq + (2 ^ k - 1) ∧
      b.insertAtTail fuel data =
        (b.segmentList.insertSegment fuel b.tailSeq w >>= fun p =>
          advanceTail fuel { b with data := ring, tailSeq := b.tailSeq + w, segmentList := p.2 }
            p.1 w) := by
  obtain ⟨hbound, htail⟩ := hs.unwrapped hu
  have hroom := hs.ring.room
  obtain ⟨ring, heq, hat, -⟩ := RingBuffer.writeAtTail_at hs.ring data
  rw [← hw] at heq hat
  have hend : b.tailSeq + w ≤ b.headSeq + (2 ^ k - 1) := by omega
  refine ⟨ring, hat, hend, ?_⟩
  unfold u16Max at hfit
  unfold ReorderedBuffer.insertAtTail
  dsimp only
  rw [heq, bind_ok]
  dsimp only
  rw [truncate_of_lt (show w < 2 ^ 32 by omega), truncate_of_lt (show w < 2 ^ 16 by omega),
    wrappingAdd_of_lt (by omega)]

/-- In-order data that joins the held range: back to the fast path. -/
theorem Single.insertAtTail_joins (hj : Joins blk b.tailSeq w) (hfuel : 2 ≤ fuel) :
    ∃ r b' t', b.insertAtTail fuel data = .ok (r, b') ∧ Single k h t' none b' := by
  obtain ⟨hbound, htail⟩ := hs.unwrapped hu
  have hle := hs.ring.le
  obtain ⟨ring, hat, hend, heq⟩ := Single.insertAtTail_eq fuel hs hu hw hj.le
  obtain ⟨i, l, hins, hhead, hl⟩ :=
    SegmentList.insertSegment_joins hs.list (hs.noWrap hu) hj (by omega) hfuel
  obtain ⟨hreach, hlim⟩ := span_stop blk b.tailSeq w
  have hlim := hlim _ hs.inside hend
  generalize span blk b.tailSeq w = joined at hl hreach hlim
  obtain ⟨c, m⟩ := joined
  have hreach : b.tailSeq + w ≤ c + m := hreach
  have hlim : c + m ≤ b.headSeq + (2 ^ k - 1) := hlim
  obtain ⟨l', hclear, hl'⟩ := SegmentList.clear_holds hl hfuel
  have hone := SegmentList.oneSegment_holds hl
  obtain ⟨-, s, hown, hseq, hlen, -⟩ := hl
  have hstop : s.stop = c + m := by
    unfold Segment.stop
    rw [hseq, hlen, wrappingAdd_of_lt (by omega)]
  have hincr : wrappingSub 32 s.stop (b.tailSeq + w) = c + m - (b.tailSeq + w) := by
    rw [hstop]
    exact wrappingSub_of_le hreach (by omega)
  have hseek := hat.seekTail (n := c + m - (b.tailSeq + w)) (by omega)
  rw [heq, hins, bind_ok]
  unfold advanceTail
  dsimp only
  have hcheck : l.isHead i = true := beq_iff_eq.mpr hhead
  have hget : l.getSegment i = .ok s := by
    rw [← hhead]
    exact SegmentList.seg_of_get? hown.node
  rw [check_true hcheck, bind_ok, hget, bind_ok, hone, bind_ok, if_pos rfl, hclear, bind_ok, hincr]
  refine ⟨_, _, _, rfl, hseek, nofun, hs.headSeq_lt, ?_, hl', fun _ => rfl, nofun⟩
  show s.stop = (b.headSeq + (t + w + (c + m - (b.tailSeq + w)) - h)) % 2 ^ 32
  rw [hstop, Nat.mod_eq_of_lt (by omega)]
  omega

/-- In-order data that leaves a gap before the held range. -/
theorem Single.insertAtTail_leavesGap (hg : LeavesGap blk b.tailSeq w) :
    b.insertAtTail fuel data = .timeout := by
  obtain ⟨ring, -, -, heq⟩ := Single.insertAtTail_eq fuel hs hu hw hg.le
  rw [heq, SegmentList.insertSegment_leavesGap hs.list (hs.noWrap hu) hg]
  rfl

/-- In-order data that reaches into the held range: the assertion fails. -/
theorem Single.insertAtTail_straddles (hstr : Straddles blk b.tailSeq w) (hfuel : 2 ≤ fuel) :
    ∃ f, b.insertAtTail fuel data = .panic f := by
  obtain ⟨hbound, -⟩ := hs.unwrapped hu
  obtain ⟨ring, -, hend, heq⟩ := Single.insertAtTail_eq fuel hs hu hw hstr.le
  obtain ⟨hto, hne⟩ :=
    SegmentList.insertSegment_straddles hs.list (hs.noWrap hu) hstr (by omega) hfuel
  rw [heq]
  cases hins : b.segmentList.insertSegment fuel b.tailSeq w with
  | timeout => exact absurd hins hto
  | panic f => exact ⟨f, rfl⟩
  | ok p =>
    obtain ⟨segment, l⟩ := p
    rw [bind_ok]
    cases segment with
    | none => exact ⟨_, rfl⟩
    | some i =>
      have hcheck : l.isHead i = false := by
        unfold SegmentList.isHead
        exact beq_false_of_ne (hne i l hins)
      unfold advanceTail
      dsimp only
      rw [hcheck]
      exact ⟨_, rfl⟩

end AtTail

section Ahead

variable {k h t : Nat} (fuel : Nat) {seq : Nat} {blk : Option (Nat × Nat)} {b : ReorderedBuffer}
  (hs : Single k h t blk b) (hu : b.Unwrapped) (hstart : b.tailSeq < seq) {data : List UInt8}
  {w : Nat} (hw : w = min data.length (2 ^ k - 1 - (t - h) - (seq - b.tailSeq)))
include hs hstart hw

/-- Data ahead of the tail, up to the call of `insert_segment`. -/
theorem Single.outOfOrderInsert_eq (hfit : w ≤ u16Max) :
    ∃ ring, RingBuffer.At k h t ring ∧
      b.outOfOrderInsert fuel seq data =
        (b.segmentList.insertSegment fuel seq w >>= fun p =>
          .ok (({ b with data := ring, segmentList := p.2 } : ReorderedBuffer).report w data.length,
            { b with data := ring, segmentList := p.2 })) := by
  obtain ⟨ring, heq, hat, -⟩ := RingBuffer.writeAtOffsetFromTail_at hs.ring (seq - b.tailSeq) data
  rw [← hw] at heq
  refine ⟨ring, hat, ?_⟩
  unfold u16Max at hfit
  unfold ReorderedBuffer.outOfOrderInsert
  rw [if_neg (by omega), if_neg (by omega), checkedSub_of_le (by omega), bind_ok, heq, bind_ok]
  dsimp only
  rw [truncate_of_lt (show w < 2 ^ 16 by omega)]

include hu

/-- Data ahead of the tail that joins the held range. -/
theorem Single.outOfOrderInsert_joins (hstate : b.state = .connectedOutOfOrder)
    (hin : seq ≤ b.headSeq + (2 ^ k - 1)) (hj : Joins blk seq w) (hfuel : 2 ≤ fuel) :
    ∃ r b', b.outOfOrderInsert fuel seq data = .ok (r, b') ∧
      Single k h t (some (span blk seq w)) b' := by
  obtain ⟨hbound, htail⟩ := hs.unwrapped hu
  obtain ⟨ring, hat, heq⟩ := Single.outOfOrderInsert_eq fuel hs hstart hw hj.le
  obtain ⟨i, l, hins, -, hl⟩ :=
    SegmentList.insertSegment_joins hs.list (hs.noWrap hu) hj (by omega) hfuel
  have hlim := (span_stop blk seq w).2 _ hs.inside (by omega)
  rw [heq, hins, bind_ok]
  refine ⟨_, _, rfl, hat, hs.established, hs.headSeq_lt, hs.tailSeq_eq, hl, ?_, ?_⟩
  · intro hc
    have hc : b.state = .connected := hc
    rw [hstate] at hc
    cases hc
  · intro a n hsome
    injection hsome with hsome
    rw [hsome] at hlim
    exact hlim

/-- Data ahead of the tail that leaves a gap before the held range. -/
theorem Single.outOfOrderInsert_leavesGap (hg : LeavesGap blk seq w) :
    b.outOfOrderInsert fuel seq data = .timeout := by
  obtain ⟨ring, -, heq⟩ := Single.outOfOrderInsert_eq fuel hs hstart hw hg.le
  rw [heq, SegmentList.insertSegment_leavesGap hs.list (hs.noWrap hu) hg]
  rfl

end Ahead

/-- Unread data that fits one segment is recorded in one. -/
theorem addHeadLoop_single {l : SegmentList} (h : l.Holds none) (seq : Nat) {n fuel : Nat}
    (hfit : n ≤ u16Max) (hfuel : 2 ≤ fuel) :
    ∃ l', addHeadLoop fuel fuel l seq n = .ok l' ∧
      l'.Holds (if n = 0 then none else some (seq, n)) := by
  obtain ⟨fuel, rfl⟩ := Nat.exists_eq_add_of_le' hfuel
  rw [addHeadLoop]
  by_cases hz : n = 0
  · rw [if_neg (by omega), if_pos hz]
    exact ⟨l, rfl, h⟩
  · obtain ⟨i, l', hins, -, hl'⟩ := SegmentList.insertSegment_none h (fuel + 2) seq n
    rw [if_pos (by omega), if_neg hz]
    dsimp only
    rw [Nat.min_eq_right hfit, hins, bind_ok]
    dsimp only
    rw [addHeadLoop, if_neg (by omega)]
    exact ⟨l', rfl, hl'⟩

theorem Single.addHeadToSegList {k h t fuel : Nat} {b : ReorderedBuffer}
    (hs : Single k h t none b) (hfit : b.available ≤ u16Max) (hfuel : 2 ≤ fuel) :
    ∃ l, addHeadToSegList fuel { b with state := .connectedOutOfOrder } =
        .ok { b with state := .connectedOutOfOrder, segmentList := l } ∧
      Single k h t b.unread { b with state := .connectedOutOfOrder, segmentList := l } := by
  have hroom := hs.ring.room
  have havail := hs.available_eq
  obtain ⟨l, hloop, hl⟩ := addHeadLoop_single hs.list b.headSeq hfit hfuel
  refine ⟨l, ?_, hs.ring, nofun, hs.headSeq_lt, hs.tailSeq_eq, hl, nofun, ?_⟩
  · unfold ReorderedBuffer.addHeadToSegList
    show (addHeadLoop fuel fuel b.segmentList b.headSeq b.available >>= _) = _
    rw [hloop]
    rfl
  · intro a n hsome
    unfold unread at hsome
    split at hsome
    · cases hsome
    · cases hsome
      show b.headSeq + b.available ≤ b.headSeq + (2 ^ k - 1)
      omega

/-! ## One call -/

/-- The ways of an insertion: it returns without a new segment, or inserts at the tail, or
ahead of it; and the range then inserted meets the caller's condition. -/
def InsertWays (k h t fuel : Nat) (blk : Option (Nat × Nat)) (b : ReorderedBuffer)
    (P : Option (Nat × Nat) → Nat → Nat → Prop) (seq : Nat) (data : List UInt8)
    (x : Outcome (InsertionResult × ReorderedBuffer)) : Prop :=
  (∃ r b' t' blk', x = .ok (r, b') ∧ Single k h t' blk' b') ∨
  (∃ rest, x = b.insertAtTail fuel rest ∧
    b.inOrder seq data = min rest.length (2 ^ k - 1 - (t - h)) ∧
    P blk b.tailSeq (b.inOrder seq data)) ∨
  (∃ b₁ blk₁, x = b₁.outOfOrderInsert fuel seq data ∧
    Single k h t blk₁ b₁ ∧ b₁.state = .connectedOutOfOrder ∧ b₁.headSeq = b.headSeq ∧
    b₁.tailSeq = b.tailSeq ∧ b.tailSeq < seq ∧ P blk₁ seq (b.ahead seq data))

section Ways

variable {k h t fuel seq : Nat} {blk : Option (Nat × Nat)} {b : ReorderedBuffer}
  {data : List UInt8} {P : Option (Nat × Nat) → Nat → Nat → Prop}

theorem Single.slowPathInsert_ways (hs : Single k h t blk b) (hstate : b.state = .connected)
    (hwin : b.Within seq data) (hacc : b.Accepts P seq data) (hfuel : 2 ≤ fuel)
    (hne : seq ≠ b.tailSeq) :
    InsertWays k h t fuel blk b P seq data (b.slowPathInsert fuel seq data) := by
  obtain ⟨hu, hstart, hstop⟩ := hwin
  obtain ⟨hbound, htail⟩ := hs.unwrapped hu
  have hend : wrappingAdd 32 seq (truncate 32 data.length) = seq + data.length := by
    rw [truncate_of_lt (by omega), wrappingAdd_of_lt hstop]
  unfold ReorderedBuffer.slowPathInsert
  dsimp only
  rw [hend]
  split
  · next hover =>
    rw [checkedSub_of_le (by omega), bind_ok, sliceFrom_of_le (by omega), bind_ok]
    obtain ⟨r, b', t', heq, hs'⟩ := hs.fastPathInsert hstate (data.drop (b.tailSeq - seq))
    exact Or.inl ⟨r, b', t', blk, heq, hs'⟩
  · split
    · exact Or.inl ⟨_, b, t, blk, rfl, hs⟩
    · next hnover hnold =>
      -- the unread data is recorded, then the new data
      obtain ⟨hfit, hP⟩ := hacc.entering hstate (by omega)
      rw [hs.idle hstate] at hs
      obtain ⟨l, heq, hs₁⟩ := hs.addHeadToSegList hfit hfuel
      rw [heq, bind_ok]
      by_cases hahead : b.tailSeq < seq
      · exact Or.inr (Or.inr ⟨_, _, rfl, hs₁, rfl, rfl, rfl, hahead, hP hahead⟩)
      · -- the data ends at the tail: nothing is new
        have hold : outOfOrderInsert fuel
            { b with state := .connectedOutOfOrder, segmentList := l } seq data = _ :=
          outOfOrderInsert_of_old (show seq < b.tailSeq by omega)
            (show data.length ≤ b.tailSeq - seq by omega)
        exact Or.inl ⟨_, _, t, _, hold, hs₁⟩

theorem Single.outOfOrderInsert_ways (hs : Single k h t blk b)
    (hstate : b.state = .connectedOutOfOrder) (hacc : b.Accepts P seq data) :
    InsertWays k h t fuel blk b P seq data (b.outOfOrderInsert fuel seq data) := by
  have hroom := hs.ring.room
  have havail := hs.available_eq
  have hmask := hs.ring.mask_eq
  have hblock := hs.list.block_eq
  by_cases hahead : b.tailSeq < seq
  · have hP := hacc.ahead hstate hahead
    rw [hblock] at hP
    exact Or.inr (Or.inr ⟨b, blk, rfl, hs, hstate, rfl, rfl, hahead, hP⟩)
  · have hP := hacc.atTail hstate (by omega)
    rw [hblock] at hP
    by_cases hnew : seq = b.tailSeq ∨ b.tailSeq - seq < data.length
    · have hlen : b.inOrder seq data =
          min (data.drop (b.tailSeq - seq)).length (2 ^ k - 1 - (t - h)) := by
        unfold inOrder
        rw [hmask, havail, List.length_drop]
        congr 1
        omega
      exact Or.inr (Or.inl ⟨_, outOfOrderInsert_of_new (by omega) hnew, hlen, hP (by omega)⟩)
    · exact Or.inl ⟨_, b, t, blk, outOfOrderInsert_of_old (by omega) (by omega), hs⟩

theorem Single.addData_ways (hs : Single k h t blk b) (hwin : b.Within seq data)
    (hacc : b.Accepts P seq data) (hfuel : 2 ≤ fuel) :
    InsertWays k h t fuel blk b P seq data (b.addData fuel seq data) := by
  unfold ReorderedBuffer.addData
  cases hstate : b.state with
  | closed => exact absurd hstate hs.established
  | connected =>
    dsimp only
    split
    · obtain ⟨r, b', t', heq, hs'⟩ := hs.fastPathInsert hstate data
      exact Or.inl ⟨r, b', t', blk, heq, hs'⟩
    · next hne => exact hs.slowPathInsert_ways hstate hwin hacc hfuel hne
  | connectedOutOfOrder => exact hs.outOfOrderInsert_ways hstate hacc

end Ways

theorem Single.readData_connected {k h t : Nat} (fuel : Nat) {blk : Option (Nat × Nat)}
    {b : ReorderedBuffer} (hs : Single k h t blk b) (hstate : b.state = .connected)
    (data : List UInt8) :
    ∃ r b' h', b.readData fuel data = .ok (r, b') ∧ Single k h' t blk b' := by
  obtain ⟨ring, heq, hat, -⟩ := RingBuffer.readFromHead_at hs.ring data
  have hle := hs.ring.le
  have htail := hs.tailSeq_eq
  have hblk := hs.idle hstate
  unfold ReorderedBuffer.readData ReorderedBuffer.readDataCommon
  rw [hstate]
  dsimp only
  rw [heq, bind_ok]
  generalize hn : min (t - h) data.length = n at hat
  refine ⟨_, _, _, rfl, hat, nofun, wrappingAdd_lt _ _ _, ?_, hs.list, fun _ => hblk, ?_⟩
  · show b.tailSeq = (wrappingAdd 32 b.headSeq (truncate 32 n) + (t - (h + n))) % 2 ^ 32
    unfold wrappingAdd truncate
    rw [htail]
    omega
  · intro a n hsome
    rw [hblk] at hsome
    cases hsome

/-- A read in `ConnectedOutOfOrder`: it needs a segment. -/
theorem Single.readData_outOfOrder {k h t fuel : Nat} {blk : Option (Nat × Nat)}
    {b : ReorderedBuffer} (hs : Single k h t blk b) (hstate : b.state = .connectedOutOfOrder)
    (hu : b.Unwrapped) (data : List UInt8) (hfuel : 1 ≤ fuel) :
    (∃ r b' h' blk', b.readData fuel data = .ok (r, b') ∧ Single k h' t blk' b') ∨
      (blk = none ∧ b.readData fuel data = .panic .index) := by
  obtain ⟨ring, heq, hat, -⟩ := RingBuffer.readFromHead_at hs.ring data
  obtain ⟨hbound, htail⟩ := hs.unwrapped hu
  have hle := hs.ring.le
  have hroom := hs.ring.room
  unfold ReorderedBuffer.readData ReorderedBuffer.readDataCommon
  rw [hstate]
  dsimp only
  rw [heq, bind_ok]
  dsimp only
  rw [bind_ok]
  dsimp only
  have hn : min (t - h) data.length ≤ t - h := Nat.min_le_left _ _
  generalize min (t - h) data.length = n at hat hn
  have hheadSeq : wrappingAdd 32 b.headSeq (truncate 32 n) = b.headSeq + n := by
    rw [truncate_of_lt (by omega), wrappingAdd_of_lt (by omega)]
  rcases blk with _ | ⟨a, m⟩
  · rw [SegmentList.consumeHeadData_none hs.list]
    exact Or.inr ⟨rfl, rfl⟩
  · obtain ⟨r, l, hcons, hl⟩ := SegmentList.consumeHeadData_holds hs.list b.headSeq
      (truncate 16 n) (hs.noWrap hu) hfuel
    rw [hcons, bind_ok, hheadSeq]
    refine Or.inl ⟨_, _, _, _, rfl, hat, nofun, ?_, ?_, hl, nofun, ?_⟩
    · show b.headSeq + n < 2 ^ 32
      omega
    · show b.tailSeq = (b.headSeq + n + (t - (h + n))) % 2 ^ 32
      rw [Nat.mod_eq_of_lt (by omega)]
      omega
    · intro a' m' hsome
      have hin := hs.inside a m rfl
      show a' + m' ≤ b.headSeq + n + (2 ^ k - 1)
      unfold SegmentList.afterConsume at hsome
      split at hsome
      · cases hsome
        omega
      · split at hsome
        · cases hsome
        · cases hsome
          omega

/-! ## Runs -/

/-- The state keeps the invariant of an established buffer, for some positions of the ring and
some held range. This is what runs carry: the positions change with every call, and no statement
about a run has to name them. -/
def Sound (b : ReorderedBuffer) : Prop := ∃ k h t blk, Single k h t blk b

/-- A closed buffer: its ring is at the start (`ring`), no `seq` has come yet (`closed`), and
the list is empty (`list`), so that a `seq` finds the buffer as `new` leaves it. -/
structure Resting (b : ReorderedBuffer) : Prop where
  ring : ∃ k, RingBuffer.At k 0 0 b.data
  closed : b.state = .closed
  list : b.segmentList.Holds none

theorem resting_of_new {size segs : Nat} {b : ReorderedBuffer}
    (hnew : newWithSegments size segs = .ok (.ok b)) : b.Resting := by
  obtain ⟨k, hring, -, hclosed, hlist⟩ := of_newWithSegments hnew
  refine ⟨⟨k, hring⟩, hclosed, ?_⟩
  rw [hlist]
  exact SegmentList.holds_new _

theorem Resting.seq {b : ReorderedBuffer} (h : b.Resting) (seq0 : UInt32) (data : List UInt8) :
    ∃ r b', b.seq seq0.toNat data = .ok (r, b') ∧ b'.Sound := by
  obtain ⟨⟨k, hring⟩, hclosed, hlist⟩ := h
  have hsynced : Single k 0 0 none
      { b with state := .connected, headSeq := seq0.toNat, tailSeq := seq0.toNat } :=
    ⟨hring, nofun, seq0.toNat_lt, (Nat.mod_eq_of_lt seq0.toNat_lt).symm, hlist, fun _ => rfl, nofun⟩
  obtain ⟨r, b', t, heq, hs⟩ := hsynced.fastPathInsert rfl data
  unfold ReorderedBuffer.seq
  rw [hclosed]
  exact ⟨r, b', heq, k, 0, t, none, hs⟩

theorem sound_seq {size segs : Nat} {b : ReorderedBuffer}
    (hnew : newWithSegments size segs = .ok (.ok b)) (seq0 : UInt32) (data : List UInt8) :
    ∃ r b', b.seq seq0.toNat data = .ok (r, b') ∧ b'.Sound :=
  (resting_of_new hnew).seq seq0 data

/-- An insertion returns, or the range inserted is an exception. -/
theorem sound_addData {b : ReorderedBuffer} {k h t fuel seq : Nat} {blk : Option (Nat × Nat)}
    (hs : Single k h t blk b) {data : List UInt8} {E : Option (Nat × Nat) → Nat → Nat → Prop}
    (hcond : b.JoinsOr E seq data) (hfuel : 2 ≤ fuel) :
    (∃ r b', b.addData fuel seq data = .ok (r, b') ∧ b'.Sound) ∨
    (∃ rest, b.addData fuel seq data = b.insertAtTail fuel rest ∧ b.Unwrapped ∧
      b.inOrder seq data = min rest.length (2 ^ k - 1 - (t - h)) ∧
      E blk b.tailSeq (b.inOrder seq data)) ∨
    (∃ b₁ blk₁, b.addData fuel seq data = b₁.outOfOrderInsert fuel seq data ∧
      Single k h t blk₁ b₁ ∧ b₁.Unwrapped ∧ b.tailSeq < seq ∧ b₁.tailSeq = b.tailSeq ∧
      b.ahead seq data = min data.length (2 ^ k - 1 - (t - h) - (seq - b₁.tailSeq)) ∧
      E blk₁ seq (b.ahead seq data)) := by
  rcases hcond with ⟨hstate, hseq⟩ | ⟨hwin, hacc⟩
  · obtain ⟨r, b', t', heq, hs'⟩ := hs.fastPathInsert hstate data
    unfold ReorderedBuffer.addData
    rw [hstate]
    dsimp only
    rw [if_pos hseq]
    exact Or.inl ⟨r, b', heq, k, h, t', blk, hs'⟩
  · have hu := hwin.unwrapped
    rcases hs.addData_ways hwin hacc hfuel with
      ⟨r, b', t', blk', heq, hs'⟩ | ⟨rest, heq, hlen, hP⟩ |
      ⟨b₁, blk₁, heq, hs₁, hstate₁, hhead₁, htail₁, hahead, hP⟩
    · exact Or.inl ⟨r, b', heq, k, h, t', blk', hs'⟩
    · rcases hP with hj | hE
      · obtain ⟨r, b', t', hins, hs'⟩ := Single.insertAtTail_joins fuel hs hu hlen hj hfuel
        exact Or.inl ⟨r, b', heq.trans hins, k, h, t', none, hs'⟩
      · exact Or.inr (Or.inl ⟨rest, heq, hu, hlen, hE⟩)
    · have hmask := hs.ring.mask_eq
      have hu₁ : b₁.Unwrapped := by
        unfold Unwrapped at hu ⊢
        rw [hs₁.ring.mask_eq, hhead₁, ← hmask]
        exact hu
      have hlen : b.ahead seq data =
          min data.length (2 ^ k - 1 - (t - h) - (seq - b₁.tailSeq)) := by
        unfold ReorderedBuffer.ahead
        rw [hmask, hs.available_eq, htail₁]
      rcases hP with hj | hE
      · have hin : seq ≤ b₁.headSeq + (2 ^ k - 1) := by
          rw [hhead₁, ← hmask]
          exact hwin.start
        obtain ⟨r, b', hins, hs'⟩ :=
          Single.outOfOrderInsert_joins fuel hs₁ hu₁ (htail₁ ▸ hahead) hlen hstate₁ hin hj hfuel
        exact Or.inl ⟨r, b', heq.trans hins, k, h, t, _, hs'⟩
      · exact Or.inr (Or.inr ⟨b₁, blk₁, heq, hs₁, hu₁, hahead, htail₁, hlen, hE⟩)

theorem sound_readData {b : ReorderedBuffer} (h : b.Sound) {fuel : Nat} (hfuel : 2 ≤ fuel)
    (data : List UInt8) (hcond : b.state = .connected ∨ b.Unwrapped) :
    (∃ r b', b.step fuel (.readData data) = .ok (r, b') ∧ b'.Sound) ∨
      (b.state = .connectedOutOfOrder ∧ b.segmentList.block = none ∧
        b.step fuel (.readData data) = .panic .index) := by
  obtain ⟨k, h, t, blk, hs⟩ := h
  dsimp only [ReorderedBuffer.step]
  cases hstate : b.state with
  | closed => exact absurd hstate hs.established
  | connected =>
    obtain ⟨r, b', h', heq, hs'⟩ := Single.readData_connected fuel hs hstate data
    rw [heq]
    exact Or.inl ⟨_, b', rfl, k, h', t, blk, hs'⟩
  | connectedOutOfOrder =>
    have hu : b.Unwrapped := by
      rcases hcond with hc | hu
      · rw [hstate] at hc
        cases hc
      · exact hu
    rcases hs.readData_outOfOrder hstate hu data (show 1 ≤ fuel by omega) with
      ⟨r, b', h', blk', heq, hs'⟩ | ⟨hnone, heq⟩
    · rw [heq]
      exact Or.inl ⟨_, b', rfl, k, h', t, blk', hs'⟩
    · rw [heq]
      exact Or.inr ⟨rfl, hs.list.block_eq.trans hnone, rfl⟩

/-- A tame call returns, or does not return at all. -/
theorem step_tame {b : ReorderedBuffer} (h : b.Sound) {fuel : Nat} (hfuel : 2 ≤ fuel)
    {op : BufferOp} (hcond : b.Tame op) :
    (∃ r b', b.step fuel op = .ok (r, b') ∧ b'.Sound) ∨ b.step fuel op = .timeout := by
  cases op with
  | readData data =>
    rcases hcond with hc | ⟨hu, hsome⟩
    · rcases sound_readData h hfuel data (Or.inl hc) with hok | ⟨hc', -, -⟩
      · exact Or.inl hok
      · rw [hc] at hc'
        cases hc'
    · rcases sound_readData h hfuel data (Or.inr hu) with hok | ⟨-, hnone, -⟩
      · exact Or.inl hok
      · exact absurd hnone hsome
  | addData seq data =>
    obtain ⟨k, h, t, blk, hs⟩ := h
    dsimp only [ReorderedBuffer.step]
    rcases sound_addData hs hcond hfuel with
      ⟨r, b', heq, hs'⟩ | ⟨rest, heq, hu, hlen, hg⟩ |
      ⟨b₁, blk₁, heq, hs₁, hu₁, hahead, htail₁, hlen, hg⟩
    · rw [heq]
      exact Or.inl ⟨_, b', rfl, hs'⟩
    · rw [heq, Single.insertAtTail_leavesGap fuel hs hu hlen hg]
      exact Or.inr rfl
    · rw [heq, Single.outOfOrderInsert_leavesGap fuel hs₁ hu₁ (htail₁ ▸ hahead) hlen hg]
      exact Or.inr rfl

/-- A progressing call returns, or panics. -/
theorem step_progresses {b : ReorderedBuffer} (h : b.Sound) {fuel : Nat} (hfuel : 2 ≤ fuel)
    {op : BufferOp} (hcond : b.Progresses op) :
    (∃ r b', b.step fuel op = .ok (r, b') ∧ b'.Sound) ∨ ∃ f, b.step fuel op = .panic f := by
  cases op with
  | readData data =>
    rcases sound_readData h hfuel data hcond with hok | ⟨-, -, heq⟩
    · exact Or.inl hok
    · exact Or.inr ⟨_, heq⟩
  | addData seq data =>
    obtain ⟨k, h, t, blk, hs⟩ := h
    dsimp only [ReorderedBuffer.step]
    rcases sound_addData hs hcond hfuel with
      ⟨r, b', heq, hs'⟩ | ⟨rest, heq, hu, hlen, -, hstr⟩ |
      ⟨b₁, blk₁, heq, hs₁, hu₁, hahead, htail₁, hlen, hseq, hstr⟩
    · rw [heq]
      exact Or.inl ⟨_, b', rfl, hs'⟩
    · obtain ⟨f, hpanic⟩ := Single.insertAtTail_straddles fuel hs hu hlen hstr hfuel
      rw [heq, hpanic]
      exact Or.inr ⟨f, rfl⟩
    · omega

theorem JoinsOr.mono {E E' : Option (Nat × Nat) → Nat → Nat → Prop} {b : ReorderedBuffer}
    {seq : Nat} {data : List UInt8} (h : b.JoinsOr E seq data)
    (hE : ∀ blk s w, E blk s w → E' blk s w) : b.JoinsOr E' seq data := by
  rcases h with h | ⟨hwithin, ha⟩
  · exact Or.inl h
  · refine Or.inr ⟨hwithin, ?_, ?_, ?_⟩
    · intro hstate hseq
      obtain ⟨hle, hjoin⟩ := ha.entering hstate hseq
      exact ⟨hle, fun hlt => (hjoin hlt).imp_right (hE _ _ _)⟩
    · intro hstate hlt
      exact (ha.ahead hstate hlt).imp_right (hE _ _ _)
    · intro hstate hle hseq
      exact (ha.atTail hstate hle hseq).imp_right (hE _ _ _)

/-- Data ahead of a gap, the gap, and a read: all ranges join. -/
theorem meets_filled {C : ReorderedBuffer → BufferOp → Prop}
    (hadd : ∀ b (seq : UInt32) data, b.JoinsOr (fun _ _ _ => False) seq.toNat data →
      C b (.addData seq data))
    (hread : ∀ b data, b.state = .connected → C b (.readData data)) {b b₁ : ReorderedBuffer}
    {r : InsertionResult} (hnew : new 32 = .ok (.ok b))
    (hseq : b.seq (7 : UInt32).toNat [1] = .ok (r, b₁)) :
    Meets (step 2) C b₁ [.addData 9 [3, 4], .addData 8 [2], .readData [0, 0, 0, 0]] := by
  cases hnew
  cases hseq
  refine Meets.cons (hadd _ _ _ ?_) rfl (Meets.cons (hadd _ _ _ ?_) rfl
    (Meets.cons (hread _ _ rfl) rfl trivial))
  · refine Or.inr ⟨⟨by unfold Unwrapped; decide, by decide, by decide⟩, ?_⟩
    refine ⟨fun _ _ => ⟨by decide, fun _ => Or.inl ⟨by decide, by decide⟩⟩, nofun, nofun⟩
  · refine Or.inr ⟨⟨by unfold Unwrapped; decide, by decide, by decide⟩, ?_⟩
    refine ⟨nofun, fun _ hahead => absurd hahead (by decide), fun _ _ _ => ?_⟩
    exact Or.inl ⟨by decide, by decide⟩

/-- No run of tame calls on a new buffer panics, after a `seq` of any number and data. It may
hang: data that leaves a gap is tame. -/
theorem reorderedBuffer_no_panic {size fuel : Nat} {b : ReorderedBuffer}
    (hnew : new size = .ok (.ok b)) (hfuel : 2 ≤ fuel) (seq0 : UInt32) (data : List UInt8) :
    ∃ r b₁, b.seq seq0.toNat data = .ok (r, b₁) ∧
      ∀ ops, Meets (step fuel) Tame b₁ ops → ∀ f, runOps (step fuel) b₁ ops ≠ .panic f := by
  obtain ⟨r, b₁, hseq, hs⟩ := sound_seq hnew seq0 data
  refine ⟨r, b₁, hseq, fun ops hmeets f => ?_⟩
  refine runOps_ne_panic (I := Sound) ?_ ?_ ops hs hmeets
  · intro s i r s' h hcond heq
    rcases step_tame h hfuel hcond with ⟨r', b', hok, hs'⟩ | hto
    · rw [hok] at heq
      cases heq
      exact hs'
    · rw [hto] at heq
      cases heq
  · intro s i w h hcond heq
    rcases step_tame h hfuel hcond with ⟨r', b', hok, -⟩ | hto
    · rw [hok] at heq
      cases heq
    · rw [hto] at heq
      cases heq

/-- Data ahead of a gap, the gap, and a read. -/
theorem reorderedBuffer_no_panic_filled :
    ∃ b r b₁, new 32 = .ok (.ok b) ∧ b.seq (7 : UInt32).toNat [1] = .ok (r, b₁) ∧
      Meets (step 2) Tame b₁ [.addData 9 [3, 4], .addData 8 [2], .readData [0, 0, 0, 0]] ∧
      ∀ f, runOps (step 2) b₁ [.addData 9 [3, 4], .addData 8 [2], .readData [0, 0, 0, 0]] ≠
        .panic f := by
  have hnew : ∃ b, new 32 = .ok (.ok b) := ⟨_, rfl⟩
  obtain ⟨b, hnew⟩ := hnew
  obtain ⟨r, b₁, hseq, hrun⟩ := reorderedBuffer_no_panic hnew (Nat.le_refl 2) 7 [1]
  have hmeets := meets_filled (C := Tame) (fun _ _ _ h => h.mono fun _ _ _ => False.elim)
    (fun _ _ h => Or.inl h) hnew hseq
  exact ⟨b, r, b₁, hnew, hseq, hmeets, hrun _ hmeets⟩

/-- A retransmission of data that has been read leaves the segment list empty in
`ConnectedOutOfOrder`; the next read indexes it at `-1`. -/
theorem reorderedBuffer_read_panics :
    ∃ b r b₁, new 32 = .ok (.ok b) ∧ b.seq (0 : UInt32).toNat [1, 2, 3] = .ok (r, b₁) ∧
      ∀ fuel, 1 ≤ fuel → runOps (step fuel) b₁
        [.readData [0, 0, 0], .addData 0 [1, 2, 3], .readData [0]] = .panic .index := by
  refine ⟨_, _, _, rfl, rfl, fun fuel hfuel => ?_⟩
  obtain ⟨fuel, rfl⟩ := Nat.exists_eq_add_of_le' hfuel
  rfl

/-- No run of progressing calls on a new buffer hangs, after a `seq` of any number and data. Two
turns of fuel are enough for the loops, as at most one segment is held. -/
theorem reorderedBuffer_no_hang {size fuel : Nat} {b : ReorderedBuffer}
    (hnew : new size = .ok (.ok b)) (hfuel : 2 ≤ fuel) (seq0 : UInt32) (data : List UInt8) :
    ∃ r b₁, b.seq seq0.toNat data = .ok (r, b₁) ∧
      ∀ ops, Meets (step fuel) Progresses b₁ ops → runOps (step fuel) b₁ ops ≠ .timeout := by
  obtain ⟨r, b₁, hseq, hs⟩ := sound_seq hnew seq0 data
  refine ⟨r, b₁, hseq, fun ops hmeets => ?_⟩
  refine runOps_ne_timeout (I := Sound) ?_ ?_ ops hs hmeets
  · intro s i r s' h hcond heq
    rcases step_progresses h hfuel hcond with ⟨r', b', hok, hs'⟩ | ⟨f, hpanic⟩
    · rw [hok] at heq
      cases heq
      exact hs'
    · rw [hpanic] at heq
      cases heq
  · intro s i h hcond heq
    rcases step_progresses h hfuel hcond with ⟨r', b', hok, -⟩ | ⟨f, hpanic⟩
    · rw [hok] at heq
      cases heq
    · rw [hpanic] at heq
      cases heq

/-- Data ahead of a gap, the gap, and a read. -/
theorem reorderedBuffer_no_hang_filled :
    ∃ b r b₁, new 32 = .ok (.ok b) ∧ b.seq (7 : UInt32).toNat [1] = .ok (r, b₁) ∧
      Meets (step 2) Progresses b₁ [.addData 9 [3, 4], .addData 8 [2], .readData [0, 0, 0, 0]] ∧
      runOps (step 2) b₁ [.addData 9 [3, 4], .addData 8 [2], .readData [0, 0, 0, 0]] ≠
        .timeout := by
  have hnew : ∃ b, new 32 = .ok (.ok b) := ⟨_, rfl⟩
  obtain ⟨b, hnew⟩ := hnew
  obtain ⟨r, b₁, hseq, hrun⟩ := reorderedBuffer_no_hang hnew (Nat.le_refl 2) 7 [1]
  have hmeets := meets_filled (C := Progresses) (fun _ _ _ h => h.mono fun _ _ _ => False.elim)
    (fun _ _ h => Or.inl h) hnew hseq
  exact ⟨b, r, b₁, hnew, hseq, hmeets, hrun _ hmeets⟩

/-- Five bytes at 10, then five at 0: the second insertion never returns. -/
theorem reorderedBuffer_add_hangs :
    ∃ b r b₁, new 32 = .ok (.ok b) ∧ b.seq (0 : UInt32).toNat [] = .ok (r, b₁) ∧
      ∀ fuel, runOps (step fuel) b₁
        [.addData 10 [1, 2, 3, 4, 5], .addData 0 [1, 2, 3, 4, 5]] = .timeout := by
  refine ⟨_, _,
    { data := ⟨0, 0, 32, 31, List.replicate 32 0⟩, segmentList := ⟨[], [], -1, -1⟩,
      bufferSize := 32, state := .connected, headSeq := 0, tailSeq := 0 }, rfl, rfl, fun fuel => ?_⟩
  cases fuel with
  | zero => rfl
  | succ fuel =>
    -- the state after the first call: one segment, ten bytes ahead
    have hfirst : step (fuel + 1)
        { data := ⟨0, 0, 32, 31, List.replicate 32 0⟩, segmentList := ⟨[], [], -1, -1⟩,
          bufferSize := 32, state := .connected, headSeq := 0, tailSeq := 0 }
        (.addData 10 [1, 2, 3, 4, 5]) =
        .ok (.insertion (.inserted 5 0),
          { data := ⟨0, 0, 32, 31,
              List.replicate 10 0 ++ [1, 2, 3, 4, 5] ++ List.replicate 17 0⟩,
            segmentList := ⟨[⟨-1, 10, 5, -1, 0⟩], [], 0, 0⟩,
            bufferSize := 32, state := .connectedOutOfOrder, headSeq := 0, tailSeq := 0 }) := rfl
    have hl : Holds ⟨[⟨-1, 10, 5, -1, 0⟩], [], 0, 0⟩ (some (10, 5)) :=
      ⟨⟨nofun, List.nodup_nil⟩, _, ⟨rfl, List.not_mem_nil⟩, rfl, rfl, rfl, rfl⟩
    have hgap := SegmentList.insertSegment_leavesGap hl (show 10 + 5 < 2 ^ 32 by decide)
      (show LeavesGap (some (10, 5)) 0 5 from ⟨by decide, by decide⟩) (fuel + 1)
    rw [runOps, hfirst, bind_ok]
    show ((((SegmentList.insertSegment (fuel + 1) ⟨[⟨-1, 10, 5, -1, 0⟩], [], 0, 0⟩ 0 5 >>= _)
      >>= _) >>= _) >>= _) = _
    rw [hgap]
    rfl

end NetBricks.State.ReorderedBuffer
