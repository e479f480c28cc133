import NetBricks.State.SegmentRanges

/-!
# What `consume_head_data` takes off the list

`consume_head_data` of `src/framework/src/state/reordered_buffer/reordered_buffer.rs`, on a
list with any ranges. What is consumed is taken off the front of the first segment, no
more than that is long; the count comes as a `u16`. A segment that is used up goes, and
the others stay as they are (`consumeHeadData_all`). Otherwise what is left of it is merged
with those behind it (`consumeHeadData_part`).

The merge is where other numbers can get lost. It asks of the next segment only that the
first one reaches its start, so a segment that starts before the first one is merged as
well, and what it had before that is on no segment any more. When the merge has filled the
first segment to 65535 numbers, it stops and the segments behind stay, with any number
that they have in common with those consumed. `KeepsRest` says that neither happens, and
`Merged.keepsRest_iff` that this is exactly when the list has lost what was consumed and
nothing else.
-/

namespace NetBricks.State.SegmentList

open Lib
open Lib.Outcome

/-! ## Consuming -/

section Consume

variable {l l' : SegmentList} {fuel seq consumed a n : Nat} {all : Bool} {rs : List (Nat × Nat)}

end Consume

/-! ## What is left -/

section Around

variable {a n m c k low o q : Nat}

end Around

section TakesOff

variable {a n m low c k q : Nat} {rs out : List (Nat × Nat)}

variable (hm : m ≤ u16Max) (hn : n ≤ u16Max) (hlow : low ≤ u16Max) (hk : k ≤ u16Max)
  (hreach : c ≤ wrappingAdd 32 (wrappingAdd 32 a n) m)
  (hin : overlap (wrappingAdd 32 a n) m c ≤ k)
include hm hn hlow hk hreach hin

end TakesOff

end NetBricks.State.SegmentList
