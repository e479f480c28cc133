import Mathlib.Data.Nat.ModEq
import NetBricks.State.ReorderedMoves
import NetBricks.State.ReorderedRing

/-!
# `ReorderedBuffer`: sequence numbers and the counters of the ring

A buffer counts the same bytes twice: in the `usize` counters of its ring, and in
the `u32` sequence numbers of the bytes at the head and at the tail. The two
counts move together, whatever the segment list makes of the data: a write at the
tail moves both by what was written, `advance` moves the ring by the distance from
`tail_seq` to the end of the segment it then takes for `tail_seq`, and a read moves
both heads by what was read.

`InStep` says so with differences modulo `2 ^ 32` only. It holds through states in
which the ring counts more bytes than it has cells, so there is no hypothesis on
the data; what `seq` needs is that a closed buffer is empty (`Synced`).
-/

namespace NetBricks.State

open Lib
open Lib.Outcome

namespace ReorderedBuffer

/-- The sequence numbers are as far apart as the counters of the ring. Both are taken modulo
`2 ^ 32`, since the first are `u32`s and the second `usize`s, and all of them wrap. -/
def InStep (b : ReorderedBuffer) : Prop :=
  b.tailSeq + b.data.head ≡ b.headSeq + b.data.tail [MOD 2 ^ 32]

variable {k : Nat} {b b' : ReorderedBuffer}

theorem InStep.tailSeq_modEq (h : b.InStep) :
    b.tailSeq ≡ b.headSeq + b.available [MOD 2 ^ 32] := by
  have hsub := wrappingAdd_wrappingSub 64 b.data.tail b.data.head
  unfold InStep Nat.ModEq at h
  unfold Nat.ModEq available RingBuffer.available
  unfold wrappingAdd at hsub
  omega

/-! ## Moves -/

theorem InStep.moveTail (h : b.InStep) {n : Nat} (hhead : b'.data.head = b.data.head)
    (htail : b'.data.tail = wrappingAdd 64 b.data.tail n) (hheadSeq : b'.headSeq = b.headSeq)
    (htailSeq : b'.tailSeq = wrappingAdd 32 b.tailSeq (truncate 32 n)) : b'.InStep := by
  unfold InStep Nat.ModEq at *
  rw [hhead, htail, hheadSeq, htailSeq]
  unfold wrappingAdd truncate
  omega

theorem InStep.moveHead (h : b.InStep) {n : Nat} (htail : b'.data.tail = b.data.tail)
    (hhead : b'.data.head = wrappingAdd 64 b.data.head n) (htailSeq : b'.tailSeq = b.tailSeq)
    (hheadSeq : b'.headSeq = wrappingAdd 32 b.headSeq (truncate 32 n)) : b'.InStep := by
  unfold InStep Nat.ModEq at *
  rw [hhead, htail, hheadSeq, htailSeq]
  unfold wrappingAdd truncate
  omega

/-! ## Calls -/

/-- A buffer in use, with its counts in step. -/
structure Counting (k : Nat) (b : ReorderedBuffer) : Prop where
  counted : b.data.Counted k
  opened : b.state ≠ .closed
  inStep : b.InStep

/-- What holds between calls: the ring keeps its size and its counters their width (`counted`);
a closed buffer is empty, so that `seq` may set both sequence numbers to the same value; and an
open one counts in step. -/
structure Synced (k : Nat) (b : ReorderedBuffer) : Prop where
  counted : b.data.Counted k
  empty : b.state = .closed → b.data.head = b.data.tail
  counting : b.state ≠ .closed → Counting k b

theorem Counting.synced (h : Counting k b) : Synced k b :=
  ⟨h.counted, fun hs => absurd hs h.opened, fun _ => h⟩

theorem Synced.move (h : Synced k b) (hmove : Move b b') : Synced k b' := by
  cases hmove with
  | list l =>
    exact ⟨h.counted, h.empty, fun hs => ⟨h.counted, hs, (h.counting hs).inStep⟩⟩
  | turn hopen s hs =>
    have hstep := (h.counting hopen).inStep
    exact Counting.synced ⟨h.counted, hs, hstep⟩
  | write hopen hw =>
    obtain ⟨hcount, hhead, htail⟩ := h.counted.of_writeAtTail hw
    have hstep := (h.counting hopen).inStep
    exact Counting.synced ⟨hcount, hopen, hstep.moveTail hhead htail rfl rfl⟩
  | @seek hopen stop hstop =>
    have hstep := (h.counting hopen).inStep
    have hlt : wrappingSub 32 stop b.tailSeq < 2 ^ 32 := Nat.mod_lt _ (Nat.two_pow_pos 32)
    refine Counting.synced ⟨h.counted.seekTail _, hopen,
      hstep.moveTail (n := wrappingSub 32 stop b.tailSeq) rfl rfl rfl ?_⟩
    rw [truncate_of_lt hlt, wrappingAdd_wrappingSub, Nat.mod_eq_of_lt hstop]
  | ahead hopen hw =>
    -- the data is ahead of the tail, which stays
    obtain ⟨hcount, hhead, htail⟩ := h.counted.of_writeAtOffset hw
    have hstep := (h.counting hopen).inStep
    unfold InStep at hstep
    rw [← hhead, ← htail] at hstep
    exact Counting.synced ⟨hcount, hopen, hstep⟩
  | read hopen hr =>
    obtain ⟨hcount, hhead, htail⟩ := h.counted.of_readFromHead hr
    have hstep := (h.counting hopen).inStep
    exact Counting.synced ⟨hcount, hopen, hstep.moveHead htail hhead rfl rfl⟩
  | @start hclosed seq hseq =>
    -- both counts start at the same number
    have hstart : seq + b.data.head ≡ seq + b.data.tail [MOD 2 ^ 32] := by
      rw [h.empty hclosed]
    exact Counting.synced ⟨h.counted, nofun, hstart⟩
  | reset l =>
    exact ⟨⟨h.counted.counters 0 0, Nat.two_pow_pos 64, Nat.two_pow_pos 64⟩, fun _ => rfl,
      fun hs => absurd rfl hs⟩

theorem synced_of_new {size segs : Nat} (h : newWithSegments size segs = .ok (.ok b)) :
    ∃ k, roundToPowerOf2 size = 2 ^ k ∧ Synced k b := by
  obtain ⟨k, hat, hk, hstate, -⟩ := of_newWithSegments h
  refine ⟨k, hk, hat.counted, fun _ => ?_, fun hs => absurd hstate hs⟩
  rw [hat.head_eq, hat.tail_eq]

/-- In every established state of every run, `tail_seq` is `available()` bytes
behind `head_seq`, modulo `2 ^ 32`. -/
theorem tailSeq_modEq_headSeq {size segs fuel : Nat} {b₀ b : ReorderedBuffer}
    {uses : List BufferUse} {rs : List (Option BufferResult)}
    (hnew : newWithSegments size segs = .ok (.ok b₀))
    (hrun : runOps (ReorderedBuffer.use fuel) b₀ uses = .ok (rs, b))
    (hest : b.isEstablished = true) : b.tailSeq ≡ b.headSeq + b.available [MOD 2 ^ 32] := by
  obtain ⟨k, -, hnew⟩ := synced_of_new hnew
  have hsync : Synced k b := (run_moves hrun).keeps (fun _ _ h hmove => h.move hmove) hnew
  have hopen : b.state ≠ .closed := by
    intro hs
    unfold isEstablished at hest
    rw [hs] at hest
    cases hest
  exact (hsync.counting hopen).inStep.tailSeq_modEq

/-- After a reset, a connection across the wrap with data ahead of a gap. -/
theorem tailSeq_modEq_headSeq_wrapped :
    ∃ b₀ rs b, newWithSegments 16 0 = .ok (.ok b₀) ∧
      runOps (ReorderedBuffer.use 4) b₀
        [.call (.seq 7 [9, 9]), .reset, .call (.seq 4294967294 [1, 2, 3, 4]),
         .call (.op (.readData [0, 0, 0])), .call (.op (.addData 5 [8]))] = .ok (rs, b) ∧
      b.isEstablished = true ∧ b.state = .connectedOutOfOrder ∧ b.headSeq = 1 ∧ b.tailSeq = 2 ∧
      b.tailSeq ≡ b.headSeq + b.available [MOD 2 ^ 32] := by
  have hrun : ∃ b₀ rs b, newWithSegments 16 0 = .ok (.ok b₀) ∧
      runOps (ReorderedBuffer.use 4) b₀
        [.call (.seq 7 [9, 9]), .reset, .call (.seq 4294967294 [1, 2, 3, 4]),
         .call (.op (.readData [0, 0, 0])), .call (.op (.addData 5 [8]))] = .ok (rs, b) ∧
      b.isEstablished = true ∧ b.state = .connectedOutOfOrder ∧ b.headSeq = 1 ∧ b.tailSeq = 2 := by
    refine ⟨_, _, _, rfl, rfl, rfl, rfl, rfl, ?_⟩
    rfl
  obtain ⟨b₀, rs, b, hnew, hrun, hest, hstate, hhead, htail⟩ := hrun
  exact ⟨b₀, rs, b, hnew, hrun, hest, hstate, hhead, htail,
    tailSeq_modEq_headSeq hnew hrun hest⟩

end ReorderedBuffer

end NetBricks.State
