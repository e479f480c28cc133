import NetBricks.State.ReorderedMirror

/-!
# `ReorderedBuffer` and the origin of the sequence numbers

The buffer adds to sequence numbers with `wrapping_add`, as TCP does, and compares
them with plain `<`, `>=` and `==`. A run in which all sequence numbers are
shifted by a constant `k` modulo `2 ^ 32` should return the same results. It does
as long as no call compares a number that the shift carries past `2 ^ 32` with one
that it does not (`Unbroken`); `reorderedBuffer_shift_changes` is a run of two
calls in which that happens.

The numbers that a call compares are those of its data, of the unread data, the
tail, and those of the segments; data that arrives in order while there are no
segments is compared with nothing.
-/

namespace NetBricks.State

open Lib
open Lib.Outcome

/-- The call with all sequence numbers shifted by `k`. -/
def BufferCall.shift (k : UInt32) : BufferCall → BufferCall
  | .seq s data => .seq (s + k) data
  | .op (.addData s data) => .op (.addData (s + k) data)
  | .op (.readData data) => .op (.readData data)

/-- The data of the call lies within `n` bytes from `seq0` on, counting around `2 ^ 32`. A read
has no data of its own. -/
def BufferCall.Spans (seq0 : UInt32) (n : Nat) : BufferCall → Prop
  | .seq s data => (s - seq0).toNat + data.length < n
  | .op (.addData s data) => (s - seq0).toNat + data.length < n
  | .op (.readData _) => True

/-- The segments that the list reaches start and end in `C`: these are the numbers of the list
that a call may compare. -/
def ReorderedBuffer.SegmentsWithin (C : Nat → Prop) (b : ReorderedBuffer) : Prop :=
  ∀ i s, b.segmentList.Reaches i → b.segmentList.get? i = some s →
    C s.seq ∧ C (s.seq + s.length)

/-- Of the numbers that the call compares, the shift by `k` carries all past `2 ^ 32` or none,
so that their order is the same before and after. Nothing is compared by `seq`, on a closed
buffer, and for data at the tail of a connected one, which takes the fast path. Other data is
compared with the ends of the buffer (`CallWithin`) and with the segments, a read out of order
only with `head_seq` and the segments. -/
def Unbroken (k : UInt32) (b : ReorderedBuffer) : BufferCall → Prop
  | .seq _ _ => True
  | .op (.addData seq data) =>
    b.state = .closed ∨ (b.state = .connected ∧ seq.toNat = b.tailSeq) ∨
      ∃ c, CallWithin (Carried 32 k.toNat c) b seq.toNat data.length ∧
        b.SegmentsWithin (Carried 32 k.toNat c)
  | .op (.readData _) =>
    b.state = .connectedOutOfOrder →
      ∃ c, Carried 32 k.toNat c b.headSeq ∧ b.SegmentsWithin (Carried 32 k.toNat c)

theorem toNat_shift (s k : UInt32) : (s + k).toNat = shift 32 k.toNat s.toNat := by
  unfold shift
  rw [UInt32.toNat_add]

/-- A shifted `add_data` on the shifted buffer. -/
theorem addData_shift {k : UInt32} {b b' : ReorderedBuffer} {fuel : Nat} {seq : UInt32}
    {data : List UInt8} (h : Mirrored (shift 32 k.toNat) Eq b b')
    (hu : Unbroken k b (.op (.addData seq data))) :
    Sim (fun x y => x.1 = y.1 ∧ Mirrored (shift 32 k.toNat) Eq x.2 y.2)
      (b.addData fuel seq.toNat data) (b'.addData fuel (seq + k).toNat data) := by
  rw [toNat_shift]
  rcases hu with hclosed | ⟨hstate, hseq⟩ | ⟨c, hw, hs⟩
  · unfold ReorderedBuffer.addData
    rw [h.state, hclosed]
    exact rfl
  · rw [hseq]
    exact h.addData_inOrder ringPeers_eq (Recoding.shift 32 k.toNat 0).add fuel hstate data
  · by_cases hclosed : b.state = .closed
    · unfold ReorderedBuffer.addData
      rw [h.state, hclosed]
      exact rfl
    · obtain ⟨m, hm⟩ := h.focus hclosed hs
      exact (hm.addData ringPeers_eq (Recoding.shift 32 k.toNat c) fuel hw).mono
        (fun _ _ h => h.mirrored)

theorem readData_shift {k : UInt32} {b b' : ReorderedBuffer} {fuel : Nat} {data : List UInt8}
    (h : Mirrored (shift 32 k.toNat) Eq b b') (hu : Unbroken k b (.op (.readData data))) :
    Sim (fun x y => x.1 = y.1 ∧ Mirrored (shift 32 k.toNat) Eq x.2 y.2)
      (b.readData fuel data) (b'.readData fuel data) := by
  by_cases hstate : b.state = .connectedOutOfOrder
  · obtain ⟨c, hhead, hs⟩ := hu hstate
    obtain ⟨m, hm⟩ := h.focus (hstate ▸ nofun) hs
    exact (hm.readData_outOfOrder ringPeers_eq (Recoding.shift 32 k.toNat c) fuel hstate trivial
      hhead).mono (fun _ _ h => h.mirrored)
  · exact h.readData_inOrder ringPeers_eq (Recoding.shift 32 k.toNat 0).add fuel hstate trivial

/-- One call and its shifted counterpart. -/
theorem call_shift {k : UInt32} {fuel : Nat} (b b' : ReorderedBuffer) (call : BufferCall)
    (h : Mirrored (shift 32 k.toNat) Eq b b') (hu : Unbroken k b call) :
    Sim (fun x y => x.1 = y.1 ∧ Mirrored (shift 32 k.toNat) Eq x.2 y.2) (b.call fuel call)
      (b'.call fuel (call.shift k)) := by
  cases call with
  | seq seq data =>
    have hsim := h.seq ringPeers_eq (Recoding.shift 32 k.toNat 0).add seq.toNat data
    rw [← toNat_shift] at hsim
    exact sim_insertion hsim
  | op op =>
    cases op with
    | addData seq data => exact sim_insertion (addData_shift h hu)
    | readData data => exact sim_read (readData_shift h hu)

/-- In every run of which no call is broken by the shift, the shifted run returns
the same results; it panics or hangs where the run does. -/
theorem reorderedBuffer_shifted {size fuel : Nat} {b : ReorderedBuffer}
    (hnew : ReorderedBuffer.new size = .ok (.ok b)) (k : UInt32) (calls : List BufferCall)
    (hmeets : Meets (ReorderedBuffer.call fuel) (Unbroken k) b calls) :
    results (ReorderedBuffer.call fuel) b (calls.map (BufferCall.shift k)) =
      results (ReorderedBuffer.call fuel) b calls := by
  obtain ⟨_, -, -, hstate, hlist⟩ := ReorderedBuffer.of_new hnew
  have hholds : b.segmentList.Holds none := hlist ▸ SegmentList.holds_new _
  have htail : b.segmentList.tail = -1 := hlist ▸ rfl
  have hsame : Mirrored (shift 32 k.toNat) Eq b b :=
    ⟨rfl, ⟨_, .ofEmpty hholds htail hholds htail⟩, rfl, fun h => absurd hstate h,
      fun h => absurd hstate h⟩
  exact (results_eq call_shift calls hsame hmeets).symm

/-- Segments of which all nodes are in `C`, those in use and those not. -/
theorem segmentsWithin_of_storage {C : Nat → Prop} {b : ReorderedBuffer}
    (h : ∀ s ∈ b.segmentList.storage, C s.seq ∧ C (s.seq + s.length)) : b.SegmentsWithin C :=
  fun _ s _ hs => h s (List.mem_of_getElem? (SegmentList.get?_eq_some.mp hs).2)

/-- Data ahead of a gap and the gap, shifted by ten to just below `2 ^ 32`, then data
in order that the shift carries past it. -/
theorem reorderedBuffer_shifted_across :
    ∃ b, ReorderedBuffer.new 16 = .ok (.ok b) ∧
      Meets (ReorderedBuffer.call 4) (Unbroken 10) b
        [.seq 4294967280 [1, 2], .op (.addData 4294967283 [4]), .op (.addData 4294967282 [3]),
         .op (.addData 4294967284 [5, 6, 7, 8, 9]), .op (.readData [0, 0, 0, 0, 0, 0, 0, 0, 0])] ∧
      results (ReorderedBuffer.call 4) b ([.seq 4294967280 [1, 2],
          .op (.addData 4294967283 [4]), .op (.addData 4294967282 [3]),
          .op (.addData 4294967284 [5, 6, 7, 8, 9]),
          .op (.readData [0, 0, 0, 0, 0, 0, 0, 0, 0])].map (BufferCall.shift 10)) =
        .ok [.insertion (.inserted 2 2), .insertion (.inserted 1 2), .insertion (.inserted 1 4),
          .insertion (.inserted 5 9), .read 9 [1, 2, 3, 4, 5, 6, 7, 8, 9]] := by
  have hmeets : ∀ {b}, ReorderedBuffer.new 16 = .ok (.ok b) →
      Meets (ReorderedBuffer.call 4) (Unbroken 10) b
        [.seq 4294967280 [1, 2], .op (.addData 4294967283 [4]), .op (.addData 4294967282 [3]),
         .op (.addData 4294967284 [5, 6, 7, 8, 9]),
         .op (.readData [0, 0, 0, 0, 0, 0, 0, 0, 0])] := by
    intro b hnew
    cases hnew
    refine Meets.cons trivial rfl (Meets.cons ?_ rfl (Meets.cons ?_ rfl (Meets.cons ?_ rfl
      (Meets.cons nofun rfl trivial))))
    · refine .inr (.inr ⟨0, ⟨?_, ?_, ?_, ?_, ?_⟩, segmentsWithin_of_storage ?_⟩)
      all_goals unfold Carried
      all_goals decide
    · refine .inr (.inr ⟨0, ⟨?_, ?_, ?_, ?_, ?_⟩, segmentsWithin_of_storage ?_⟩)
      all_goals unfold Carried
      all_goals decide
    · exact .inr (.inl ⟨rfl, rfl⟩)
  have hnew : ∃ b, ReorderedBuffer.new 16 = .ok (.ok b) ∧
      results (ReorderedBuffer.call 4) b [.seq 4294967280 [1, 2],
          .op (.addData 4294967283 [4]), .op (.addData 4294967282 [3]),
          .op (.addData 4294967284 [5, 6, 7, 8, 9]),
          .op (.readData [0, 0, 0, 0, 0, 0, 0, 0, 0])] =
        .ok [.insertion (.inserted 2 2), .insertion (.inserted 1 2), .insertion (.inserted 1 4),
          .insertion (.inserted 5 9), .read 9 [1, 2, 3, 4, 5, 6, 7, 8, 9]] := ⟨_, rfl, rfl⟩
  obtain ⟨b, hnew, hrun⟩ := hnew
  exact ⟨b, hnew, hmeets hnew, (reorderedBuffer_shifted hnew 10 _ (hmeets hnew)).trans hrun⟩

/-- Two bytes, and a retransmission with one more: from 0 on the third byte is
appended; from `2 ^ 32 - 1` on the retransmission is taken for data far ahead and
dropped. -/
theorem reorderedBuffer_shift_changes :
    ∃ b, ReorderedBuffer.new 32 = .ok (.ok b) ∧
      (∀ call ∈ [BufferCall.seq 0 [1, 2], .op (.addData 0 [1, 2, 3])], call.Spans 0 (2 ^ 31)) ∧
      results (ReorderedBuffer.call 4) b [.seq 0 [1, 2], .op (.addData 0 [1, 2, 3])] =
        .ok [.insertion (.inserted 2 2), .insertion (.inserted 1 3)] ∧
      results (ReorderedBuffer.call 4) b
          ([.seq 0 [1, 2], .op (.addData 0 [1, 2, 3])].map (BufferCall.shift 4294967295)) =
        .ok [.insertion (.inserted 2 2), .insertion (.outOfMemory 0 2)] := by
  refine ⟨_, rfl, ?_, rfl, rfl⟩
  simp [BufferCall.Spans]

end NetBricks.State
