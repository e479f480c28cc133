import NetBricks.State.ReorderedSafety
import NetBricks.State.ReorderedSync

/-!
# `ReorderedBuffer`: data that should leave no trace

A segment that was received before, and one the buffer has no room for, should both
leave the buffer as it was: what follows goes on as if they had never arrived. Neither
holds.

`slow_path_insert` returns early for data that ends before `tail_seq`. Data that ends
exactly there, the retransmission of the last segment, is inserted out of order: nothing
is written, but the buffer changes to `ConnectedOutOfOrder`, where an insertion at the
tail reports `Inserted` however little of it was written (`duplicate_changes_result`), and
where a read of an empty buffer panics.

`out_of_order_insert` hands a segment to the list even when the ring took nothing of it.
`insert_segment` then stretches the first segment up to it, and with the next data at the
tail the gap between them counts as received (`rejection_overfills`).

What is left is said with the state itself: the call returns it unchanged
(`duplicate_leaves_no_trace`, `rejection_leaves_no_trace`). Both are about any state that
can be reached, with more bytes in the ring than it has cells or not, which is what
`Counted` is for.
-/

namespace NetBricks.State

open Lib
open Lib.Outcome

/-! ## Writes of nothing -/

namespace RingBuffer.Counted

variable {k : Nat} {rb rb' : RingBuffer}

/-- What writes no byte changes no cell. -/
theorem eq_of_wrappedWrite {p : Nat} {data : List UInt8} (hc : Counted k rb)
    (h : rb.wrappedWrite (p % 2 ^ k) data = .ok (0, rb')) : rb' = rb := by
  rw [wrappedWrite_of_geom hc.toGeom] at h
  split at h
  · injection h with h
    injection h with hlen hrb
    rw [List.length_eq_zero_iff.mp hlen, blit_nil] at hrb
    exact hrb.symm
  · cases h

theorem eq_of_writeAtTail {data : List UInt8} (hc : Counted k rb)
    (h : rb.writeAtTail data = .ok (0, rb')) : rb' = rb := by
  have htail : wrappingAdd 64 rb.tail 0 = rb.tail := wrappingAdd_of_lt hc.tail_lt
  have hmoved := (hc.of_writeAtTail h).2.2
  unfold writeAtTail at h
  dsimp only at h
  rw [hc.and_mask, sliceTo_of_le (Nat.min_le_left _ _), bind_ok] at h
  have hseek := (hc.seekTail _).eq_of_wrappedWrite h
  rw [htail, hseek] at hmoved
  rw [hseek]
  unfold RingBuffer.seekTail at hmoved ⊢
  dsimp only at hmoved
  rw [hmoved]

theorem eq_of_writeAtOffset {offset : Nat} {data : List UInt8} (hc : Counted k rb)
    (h : rb.writeAtOffsetFromTail offset data = .ok (0, rb')) : rb' = rb := by
  unfold writeAtOffsetFromTail at h
  dsimp only at h
  split at h
  · cases h
    rfl
  · rw [hc.and_mask, sliceTo_of_le (Nat.min_le_left _ _), bind_ok] at h
    exact hc.eq_of_wrappedWrite h

/-- Nothing is written without a problem. -/
theorem writeAtTail_nil (hc : Counted k rb) : rb.writeAtTail [] = .ok (0, rb) := by
  have hwrite : ∃ rb', rb.writeAtTail [] = .ok (0, rb') := by
    unfold writeAtTail
    dsimp only
    rw [hc.and_mask, List.length_nil, Nat.zero_min, sliceTo_of_le (Nat.le_refl 0), bind_ok,
      wrappedWrite_of_geom (hc.seekTail 0).toGeom]
    exact ⟨_, if_pos (Nat.zero_le _)⟩
  obtain ⟨rb', hwrite⟩ := hwrite
  rw [hwrite, hc.eq_of_writeAtTail hwrite]

end RingBuffer.Counted

namespace ReorderedBuffer

variable {k fuel : Nat} {b b' : ReorderedBuffer} {data : List UInt8}

theorem fastPathInsert_nil (hc : b.data.Counted k) (htail : b.tailSeq < 2 ^ 32) :
    b.fastPathInsert [] = .ok (.inserted 0 b.available, b) := by
  have hseq : wrappingAdd 32 b.tailSeq (truncate 32 0) = b.tailSeq := wrappingAdd_of_lt htail
  unfold fastPathInsert
  rw [hc.writeAtTail_nil, bind_ok]
  dsimp only
  rw [hseq]
  rfl

/-- Data for which there is no room at all. -/
theorem eq_of_fastPathInsert {available : Nat} (hc : b.data.Counted k) (htail : b.tailSeq < 2 ^ 32)
    (h : b.fastPathInsert data = .ok (.outOfMemory 0 available, b')) : b' = b := by
  have hseq : wrappingAdd 32 b.tailSeq (truncate 32 0) = b.tailSeq := wrappingAdd_of_lt htail
  obtain ⟨n, ring, hw, hr, hb⟩ := fastPathInsert_eq_ok h
  unfold report at hr
  split at hr
  · cases hr
  · cases hr
    rw [hb, hc.eq_of_writeAtTail hw, hseq]

/-- What holds in every state that can be reached, whatever the calls were: the size is the one
asked for, and the tail is a number of 32 bits. -/
structure Framed (n : Nat) (b : ReorderedBuffer) : Prop where
  size : b.bufferSize = n
  tailSeq_lt : b.tailSeq < 2 ^ 32

theorem Framed.move {n : Nat} (h : Framed n b) (hmove : Move b b') : Framed n b' := by
  cases hmove with
  | list l => exact ⟨h.size, h.tailSeq_lt⟩
  | turn _ s _ => exact ⟨h.size, h.tailSeq_lt⟩
  | write _ _ => exact ⟨h.size, wrappingAdd_lt _ _ _⟩
  | seek _ hstop => exact ⟨h.size, hstop⟩
  | ahead _ _ => exact ⟨h.size, h.tailSeq_lt⟩
  | read _ _ => exact ⟨h.size, h.tailSeq_lt⟩
  | start _ hseq => exact ⟨h.size, hseq⟩
  | reset l => exact ⟨h.size, h.tailSeq_lt⟩

theorem framed_of_new {size segs : Nat} (h : newWithSegments size segs = .ok (.ok b)) :
    Framed (roundToPowerOf2 size) b := by
  obtain ⟨ring, -, rfl⟩ := newWithSegments_eq_ok h
  exact ⟨rfl, Nat.two_pow_pos 32⟩

/-- The ring is as large as the buffer says, and its counters are words. -/
theorem counted_of_moves {size segs : Nat} {b₀ : ReorderedBuffer}
    (hnew : newWithSegments size segs = .ok (.ok b₀)) (hmoves : Moves b₀ b) :
    ∃ k, b.data.Counted k ∧ Framed (2 ^ k) b := by
  obtain ⟨k, hk, hsynced⟩ := synced_of_new hnew
  have hframed := framed_of_new hnew
  rw [hk] at hframed
  exact ⟨k, (hmoves.keeps (fun _ _ h hmove => h.move hmove) hsynced).counted,
    hmoves.keeps (fun _ _ h hmove => h.move hmove) hframed⟩

/-! ## A segment that was received before -/

/-- A duplicate leaves no trace, unless it ends exactly at the tail. In any connected
state that can be reached, data that was received before is reported as inserted with
nothing written, and what follows is as if it had not arrived. -/
theorem duplicate_leaves_no_trace {size segs : Nat} {b₀ : ReorderedBuffer} {uses : List BufferUse}
    {rs : List (Option BufferResult)} {seq : UInt32}
    (hnew : newWithSegments size segs = .ok (.ok b₀))
    (hrun : runOps (use fuel) b₀ uses = .ok (rs, b)) (hconn : b.state = .connected)
    (hdup : seq.toNat + data.length ≤ b.tailSeq)
    (hend : seq.toNat + data.length ≠ b.tailSeq ∨ data = []) :
    b.addData fuel seq.toNat data = .ok (.inserted 0 b.available, b) ∧
      ∀ later, runOps (step fuel) b (.addData seq data :: later) =
        runOps (step fuel) b later >>=
          fun x => .ok (.insertion (.inserted 0 b.available) :: x.1, x.2) := by
  obtain ⟨k, hc, -, htail⟩ := counted_of_moves hnew (run_moves hrun)
  have hadd : b.addData fuel seq.toNat data = .ok (.inserted 0 b.available, b) := by
    have hstop : wrappingAdd 32 seq.toNat (truncate 32 data.length) = seq.toNat + data.length := by
      rw [truncate_of_lt (by omega), wrappingAdd_of_lt (by omega)]
    unfold addData
    rw [hconn]
    dsimp only
    by_cases hseq : seq.toNat = b.tailSeq
    · have hnil : data = [] := List.length_eq_zero_iff.mp (by omega)
      rw [if_pos hseq, hnil]
      exact fastPathInsert_nil hc htail
    · have hlt : seq.toNat + data.length < b.tailSeq := by
        rcases hend with hne | rfl
        · omega
        · rw [List.length_nil] at hdup ⊢
          omega
      rw [if_neg hseq, slowPathInsert, hstop, if_neg (by omega), if_pos hlt]
  refine ⟨hadd, fun later => ?_⟩
  rw [runOps, step, hadd]
  rfl

/-- The first two of five bytes once more, after all five were read. -/
theorem duplicate_leaves_no_trace_old :
    ∃ b₀ rs b, newWithSegments 8 0 = .ok (.ok b₀) ∧
      runOps (use 4) b₀ [.call (.seq 0 [1, 2, 3, 4, 5]),
        .call (.op (.readData [0, 0, 0, 0, 0]))] = .ok (rs, b) ∧
      b.addData 4 (0 : UInt32).toNat [1, 2] = .ok (.inserted 0 b.available, b) ∧
      ∀ later, runOps (step 4) b (.addData 0 [1, 2] :: later) = runOps (step 4) b later >>=
        fun x => .ok (.insertion (.inserted 0 b.available) :: x.1, x.2) := by
  have hrun : ∃ b₀ rs b, newWithSegments 8 0 = .ok (.ok b₀) ∧
      runOps (use 4) b₀ [.call (.seq 0 [1, 2, 3, 4, 5]),
        .call (.op (.readData [0, 0, 0, 0, 0]))] = .ok (rs, b) ∧
      b.state = .connected ∧ b.tailSeq = 5 := by
    refine ⟨_, _, _, rfl, rfl, rfl, ?_⟩
    rfl
  obtain ⟨b₀, rs, b, hnew, hrun, hconn, htail⟩ := hrun
  refine ⟨b₀, rs, b, hnew, hrun, duplicate_leaves_no_trace hnew hrun hconn ?_ (Or.inl ?_)⟩
  · rw [htail]
    decide
  · rw [htail]
    decide

/-- Five bytes in a ring of eight, and the same five again. Four more are then all reported
as inserted, where without the duplicate there is no room for two of them. -/
theorem duplicate_changes_result :
    ∃ b₀ rs b, newWithSegments 8 0 = .ok (.ok b₀) ∧
      runOps (use 4) b₀ [.call (.seq 0 [1, 2, 3, 4, 5])] = .ok (rs, b) ∧
      b.state = .connected ∧ b.tailSeq = 5 ∧
      (∃ b', runOps (step 4) b [.addData 0 [1, 2, 3, 4, 5], .addData 5 [6, 7, 8, 9]] =
        .ok ([.insertion (.inserted 0 5), .insertion (.inserted 2 7)], b')) ∧
      ∃ b', runOps (step 4) b [.addData 5 [6, 7, 8, 9]] =
        .ok ([.insertion (.outOfMemory 2 7)], b') := by
  refine ⟨_, _, _, rfl, rfl, rfl, rfl, ?_, ?_⟩
  · exact ⟨_, rfl⟩
  · exact ⟨_, rfl⟩

/-! ## A segment for which there is no room -/

/-- In order, `out_of_order_insert` reports all as inserted. -/
theorem insertAtTail_inserted {r : InsertionResult} (h : b.insertAtTail fuel data = .ok (r, b')) :
    ∃ written, r = .inserted written b'.available := by
  obtain ⟨n, ring, segment, l, -, -, h⟩ := insertAtTail_eq_ok h
  obtain ⟨seg, l', s, written, -, -, -, hr, -⟩ := advanceTail_eq_ok h
  exact ⟨written, hr⟩

theorem outOfOrderInsert_inserted {seq : Nat} {r : InsertionResult} (hle : seq ≤ b.tailSeq)
    (h : b.outOfOrderInsert fuel seq data = .ok (r, b')) :
    ∃ written, r = .inserted written b'.available := by
  cases outOfOrderInsert_eq_ok h with
  | atTail _ _ h => exact insertAtTail_inserted h
  | old _ _ hr hb =>
    rw [hb]
    exact ⟨0, hr⟩
  | ahead hlt => exact absurd hle (Nat.not_le_of_lt hlt)

/-- Data that starts at the tail or before it: it is refused on the fast path only. -/
theorem eq_of_addData_behind {seq available : Nat} (hc : b.data.Counted k)
    (htail : b.tailSeq < 2 ^ 32) (hle : seq ≤ b.tailSeq)
    (h : b.addData fuel seq data = .ok (.outOfMemory 0 available, b')) : b' = b := by
  unfold addData at h
  split at h
  · split at h
    · exact eq_of_fastPathInsert hc htail h
    · cases slowPathInsert_eq_ok h with
      | overlap _ _ h => exact eq_of_fastPathInsert hc htail h
      | old _ hr _ => cases hr
      | outOfOrder _ _ l h =>
        have hle₁ : seq ≤ ReorderedBuffer.tailSeq
            { b with state := .connectedOutOfOrder, segmentList := l } := hle
        obtain ⟨written, hr⟩ := outOfOrderInsert_inserted hle₁ h
        cases hr
  · obtain ⟨written, hr⟩ := outOfOrderInsert_inserted hle h
    cases hr
  · cases h

/-- The list is one segment that starts before the number and reaches it, with an end that has
not wrapped and a length of 16 bits: what is inserted at the number stretches this segment. -/
def OneReaches (l : SegmentList) (seq : Nat) : Prop :=
  ∃ s, l.get? l.head = some s ∧ s.next = -1 ∧ s.seq < seq ∧ seq ≤ s.seq + s.length ∧
    s.seq + s.length < 2 ^ 32 ∧ s.length ≤ u16Max

/-- An empty segment that the one segment reaches changes nothing. -/
theorem insertSegment_reached {seq : Nat} {l l' : SegmentList} {idx : Option Int}
    (hl : OneReaches l seq) (h : l.insertSegment fuel seq 0 = .ok (idx, l')) : l' = l := by
  obtain ⟨s, hs, hnext, hlt, hle, hend, hlen⟩ := hl
  have hne : l.head ≠ -1 := by
    intro hhead
    rw [hhead, SegmentList.get?_neg_one] at hs
    cases hs
  have hsame : l.modify l.head (fun s' => { s' with length := s.length }) = .ok l := by
    rw [SegmentList.modify_of_get? hs, SegmentList.update_self hs]
  have hstop : s.stop = s.seq + s.length := wrappingAdd_of_lt hend
  have hempty : wrappingAdd 32 seq 0 = seq := wrappingAdd_of_lt (by omega)
  cases fuel with
  | zero =>
    unfold SegmentList.insertSegment at h
    rw [if_neg hne] at h
    cases h
  | succ fuel =>
    have hwalk : SegmentList.walk (fuel + 1) l l.head seq 0 = .ok (l.head, l) := by
      unfold SegmentList.walk
      rw [if_neg hne, SegmentList.seg_of_get? hs, bind_ok, hstop, hempty]
      by_cases heq : s.seq + s.length = seq
      · rw [if_pos heq, SegmentList.extend, Nat.add_zero, if_pos hlen, hsame, bind_ok]
      · rw [if_neg heq, if_neg (by omega), if_pos (by omega), SegmentList.stretch,
          checkedSub_of_le (by omega), bind_ok, Nat.max_eq_left hle, Nat.add_sub_cancel_left,
          truncate_of_lt (by unfold u16Max at hlen; omega), hsame, bind_ok]
    unfold SegmentList.insertSegment at h
    rw [if_neg hne, hwalk, bind_ok] at h
    dsimp only at h
    rw [if_neg hne, SegmentList.mergeAtIdx, SegmentList.seg_of_get? hs, bind_ok, hnext,
      SegmentList.mergeLoop, if_pos rfl, bind_ok] at h
    cases h
    rfl

/-- Data ahead of the tail, where the list reaches already. -/
theorem eq_of_addData_reached {seq available : Nat} (hc : b.data.Counted k)
    (hstate : b.state = .connectedOutOfOrder) (hl : OneReaches b.segmentList seq)
    (h : b.addData fuel seq data = .ok (.outOfMemory 0 available, b')) : b' = b := by
  unfold addData at h
  rw [hstate] at h
  cases outOfOrderInsert_eq_ok h with
  | atTail _ _ h =>
    obtain ⟨written, hr⟩ := insertAtTail_inserted h
    cases hr
  | old _ _ hr _ => cases hr
  | ahead _ hw hins hr hb =>
    unfold report at hr
    split at hr
    · cases hr
    · cases hr
      rw [hb, hc.eq_of_writeAtOffset hw, insertSegment_reached hl hins]

/-- The data starts at the tail or before it, or where the list reaches. -/
def ReachedBefore (b : ReorderedBuffer) (seq : Nat) : Prop :=
  seq ≤ b.tailSeq ∨ (b.state = .connectedOutOfOrder ∧ OneReaches b.segmentList seq)

/-! ## How much there is to read -/

/-- A call on a closed buffer, or one that meets a condition for not panicking or not
hanging; `seq` and `reset` without a condition. -/
def Contained (b : ReorderedBuffer) : BufferUse → Prop
  | .call (.op op) => b.state = .closed ∨ b.Tame op ∨ b.Progresses op
  | _ => True

/-- The buffer is closed and empty, or keeps the invariant of an established one. Calls that are
`Contained` lead from such states to such states, `reset` and `seq` from one kind to the
other. -/
def Kept (b : ReorderedBuffer) : Prop := b.Resting ∨ b.Sound

theorem sound_of_step {op : BufferOp} {r : BufferResult} (hs : b.Sound) (hfuel : 2 ≤ fuel)
    (hcond : b.Tame op ∨ b.Progresses op) (h : b.step fuel op = .ok (r, b')) : b'.Sound := by
  rcases hcond with htame | hprog
  · rcases step_tame hs hfuel htame with ⟨r₁, b₁, hok, hs₁⟩ | hto
    · rw [hok] at h
      cases h
      exact hs₁
    · rw [hto] at h
      cases h
  · rcases step_progresses hs hfuel hprog with ⟨r₁, b₁, hok, hs₁⟩ | ⟨f, hpanic⟩
    · rw [hok] at h
      cases h
      exact hs₁
    · rw [hpanic] at h
      cases h

/-- Closed, `add_data` panics and `read_data` reads nothing. -/
theorem eq_of_step_closed {op : BufferOp} {r : BufferResult} (hclosed : b.state = .closed)
    (h : b.step fuel op = .ok (r, b')) : b' = b := by
  cases op with
  | addData seq data =>
    unfold step addData at h
    rw [hclosed] at h
    cases h
  | readData data =>
    obtain ⟨n, out, hread, -⟩ := step_readData_eq_ok h
    cases readData_eq_ok hread with
    | closed _ _ hb => exact hb
    | opened hopen => exact absurd hclosed hopen

theorem Sound.open (hs : b.Sound) : b.state ≠ .closed := by
  obtain ⟨k, h, t, blk, hsingle⟩ := hs
  exact hsingle.established

theorem Kept.ring (hk : b.Kept) : ∃ k h t, RingBuffer.At k h t b.data := by
  rcases hk with hrest | ⟨k, h, t, blk, hsingle⟩
  · obtain ⟨k, hat⟩ := hrest.ring
    exact ⟨k, 0, 0, hat⟩
  · exact ⟨k, h, t, hsingle.ring⟩

/-- `reset` empties the ring and the list. -/
theorem Kept.reset (hk : b.Kept) (hfuel : 2 ≤ fuel) (h : b.reset fuel = .ok b') : b'.Resting := by
  have hlist : ∃ l, b.segmentList.clear fuel = .ok l ∧ l.Holds none := by
    rcases hk with hrest | ⟨k, h, t, blk, hsingle⟩
    · exact SegmentList.clear_holds hrest.list hfuel
    · exact SegmentList.clear_holds hsingle.list hfuel
  obtain ⟨k, _, _, hat⟩ := hk.ring
  obtain ⟨l, hclear, hl⟩ := hlist
  unfold ReorderedBuffer.reset at h
  rw [hclear, bind_ok] at h
  cases h
  exact ⟨⟨k, hat.clear⟩, rfl, hl⟩

theorem Kept.seq {seq0 : UInt32} {r : InsertionResult} (hk : b.Kept)
    (h : b.seq seq0.toNat data = .ok (r, b')) : b'.Sound := by
  rcases hk with hrest | hs
  · obtain ⟨r₁, b₁, hok, hs₁⟩ := hrest.seq seq0 data
    rw [hok] at h
    cases h
    exact hs₁
  · -- an established buffer cannot be given a sequence number
    unfold ReorderedBuffer.seq at h
    split at h
    · next hclosed => exact absurd hclosed hs.open
    · cases h

theorem Kept.use {use : BufferUse} {r : Option BufferResult} (hk : b.Kept) (hfuel : 2 ≤ fuel)
    (hcond : b.Contained use) (h : b.use fuel use = .ok (r, b')) : b'.Kept := by
  cases use with
  | reset =>
    unfold ReorderedBuffer.use at h
    rw [bind_eq_ok] at h
    obtain ⟨b₁, hreset, h⟩ := h
    cases h
    exact Or.inl (hk.reset hfuel hreset)
  | call call =>
    obtain ⟨r₁, hcall, -⟩ := use_call_eq_ok h
    cases call with
    | seq seq0 data =>
      obtain ⟨i, hseq, -⟩ := call_seq_eq_ok hcall
      exact Or.inr (hk.seq hseq)
    | op op =>
      rcases hk with hrest | hs
      · rw [eq_of_step_closed hrest.closed hcall]
        exact Or.inl hrest
      · exact Or.inr (sound_of_step hs hfuel (hcond.resolve_left hs.open) hcall)

/-- There are fewer bytes to read than the ring has cells. -/
theorem Kept.available_le (hk : b.Kept) (hc : b.data.Counted k) : b.available ≤ 2 ^ k - 1 := by
  obtain ⟨k', h, t, hat⟩ := hk.ring
  have hsize : 2 ^ k' = 2 ^ k := hat.size_eq.symm.trans hc.size_eq
  have havailable : b.available = t - h := RingBuffer.available_eq hat
  rw [havailable, ← hsize]
  exact hat.room

/-- **A rejection leaves no trace**, where the data starts at the tail or before it, or
where the one segment of the list reaches it. In any state that can be reached, an
insertion of nothing for want of room returns the buffer as it was, and what follows is
as if it had not been tried. And in a run whose calls stay contained there are never more
bytes to read than the buffer has room for. -/
theorem rejection_leaves_no_trace {size segs : Nat} {b₀ : ReorderedBuffer}
    (hnew : newWithSegments size segs = .ok (.ok b₀)) (hfuel : 2 ≤ fuel) :
    (∀ uses rs b, runOps (use fuel) b₀ uses = .ok (rs, b) →
      ∀ (seq : UInt32) data available b', b.ReachedBefore seq.toNat →
        b.addData fuel seq.toNat data = .ok (.outOfMemory 0 available, b') →
        b' = b ∧ ∀ later, runOps (step fuel) b (.addData seq data :: later) =
          runOps (step fuel) b later >>=
            fun x => .ok (.insertion (.outOfMemory 0 available) :: x.1, x.2)) ∧
    (∀ uses rs b, Meets (use fuel) Contained b₀ uses → runOps (use fuel) b₀ uses = .ok (rs, b) →
      b.available ≤ b.bufferSize - 1) := by
  refine ⟨?_, ?_⟩
  · intro uses rs b hrun seq data available b' hreached hadd
    obtain ⟨k, hc, -, htail⟩ := counted_of_moves hnew (run_moves hrun)
    have hsame : b' = b := by
      rcases hreached with hle | ⟨hstate, hl⟩
      · exact eq_of_addData_behind hc htail hle hadd
      · exact eq_of_addData_reached hc hstate hl hadd
    refine ⟨hsame, fun later => ?_⟩
    rw [hsame] at hadd
    rw [runOps, step, hadd]
    rfl
  · intro uses rs b hmeets hrun
    have hkept : b.Kept := runOps_invariant
      (fun _ _ _ _ hk hcond hok => hk.use hfuel hcond hok) uses (Or.inl (resting_of_new hnew))
      hmeets hrun
    obtain ⟨k, hc, hsize, -⟩ := counted_of_moves hnew (run_moves hrun)
    rw [hsize]
    exact hkept.available_le hc

/-- Four bytes ahead of a gap, which fill the ring, and one more for which there is no
cell; and a life of two connections. -/
theorem rejection_leaves_no_trace_full :
    (∃ b₀ rs b b', newWithSegments 8 0 = .ok (.ok b₀) ∧
      runOps (use 2) b₀ [.call (.seq 0 []), .call (.op (.addData 3 [4, 5, 6, 7]))] = .ok (rs, b) ∧
      b.addData 2 (7 : UInt32).toNat [9] = .ok (.outOfMemory 0 0, b') ∧ b' = b) ∧
    ∃ b₀ rs b, newWithSegments 8 0 = .ok (.ok b₀) ∧
      runOps (use 2) b₀ [.call (.seq 7 [1, 2]), .reset, .call (.seq 9 [3]),
        .call (.op (.addData 10 [4, 5])), .call (.op (.readData [0]))] = .ok (rs, b) ∧
      b.available = 2 ∧ b.available ≤ b.bufferSize - 1 := by
  refine ⟨?_, ?_⟩
  · have hrun : ∃ b₀ rs b b', newWithSegments 8 0 = .ok (.ok b₀) ∧
        runOps (use 2) b₀ [.call (.seq 0 []), .call (.op (.addData 3 [4, 5, 6, 7]))] =
          .ok (rs, b) ∧
        b.addData 2 (7 : UInt32).toNat [9] = .ok (.outOfMemory 0 0, b') ∧
        b.ReachedBefore (7 : UInt32).toNat := by
      refine ⟨_, _, _, _, rfl, rfl, rfl, Or.inr ⟨rfl, ⟨-1, 3, 4, -1, 0⟩, rfl, rfl, ?_⟩⟩
      exact ⟨by decide, by decide, by decide, by decide⟩
    obtain ⟨b₀, rs, b, b', hnew, hrun, hadd, hreached⟩ := hrun
    obtain ⟨hrejected, -⟩ := rejection_leaves_no_trace hnew (Nat.le_refl 2)
    obtain ⟨hsame, -⟩ := hrejected _ _ _ hrun _ _ _ _ hreached hadd
    exact ⟨b₀, rs, b, b', hnew, hrun, hadd, hsame⟩
  · have hrun : ∃ b₀ rs b, newWithSegments 8 0 = .ok (.ok b₀) ∧
        runOps (use 2) b₀ [.call (.seq 7 [1, 2]), .reset, .call (.seq 9 [3]),
          .call (.op (.addData 10 [4, 5])), .call (.op (.readData [0]))] = .ok (rs, b) ∧
        b.available = 2 ∧
        Meets (use 2) Contained b₀ [.call (.seq 7 [1, 2]), .reset, .call (.seq 9 [3]),
          .call (.op (.addData 10 [4, 5])), .call (.op (.readData [0]))] := by
      refine ⟨_, _, _, rfl, rfl, rfl, Meets.cons trivial rfl (Meets.cons trivial rfl
        (Meets.cons trivial rfl (Meets.cons (Or.inr (Or.inl (Or.inl ⟨rfl, rfl⟩))) rfl
          (Meets.cons (Or.inr (Or.inl (Or.inl rfl))) rfl ?_))))⟩
      trivial
    obtain ⟨b₀, rs, b, hnew, hrun, havailable, hmeets⟩ := hrun
    obtain ⟨-, hroom⟩ := rejection_leaves_no_trace hnew (Nat.le_refl 2)
    exact ⟨b₀, rs, b, hnew, hrun, havailable, hroom _ _ _ hmeets hrun⟩

/-- Three bytes in a ring of eight and one refused at 100. The next byte at the tail is
then taken for 96 of them, where without the refused one it is taken for one. -/
theorem rejection_overfills :
    ∃ b₀ rs b, newWithSegments 8 0 = .ok (.ok b₀) ∧
      runOps (use 4) b₀ [.call (.seq 0 [1, 2, 3])] = .ok (rs, b) ∧
      (∃ b', runOps (step 4) b [.addData 100 [9], .addData 3 [4]] =
        .ok ([.insertion (.outOfMemory 0 3), .insertion (.inserted 96 100)], b') ∧
        b'.bufferSize - 1 < b'.available) ∧
      ∃ b', runOps (step 4) b [.addData 3 [4]] = .ok ([.insertion (.inserted 1 4)], b') := by
  refine ⟨_, _, _, rfl, rfl, ?_, ?_⟩
  · refine ⟨_, rfl, ?_⟩
    decide
  · exact ⟨_, rfl⟩

end ReorderedBuffer

end NetBricks.State
