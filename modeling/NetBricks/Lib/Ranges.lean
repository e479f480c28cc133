import Mathlib.Data.Nat.Basic
import Mathlib.Data.List.Pairwise
import Mathlib.Order.Basic

/-!
# Lists of ranges

A range is its first number and its length. What a list of ranges covers, when it is sorted, and
what a range is that grows up to the end of one that overlaps or touches it.
-/

namespace NetBricks.Lib

/-- The number lies in the range. -/
def InRange (x : Nat) (r : Nat × Nat) : Prop := r.1 ≤ x ∧ x < r.1 + r.2

/-- The number lies in one of the ranges. -/
def Covered (rs : List (Nat × Nat)) (x : Nat) : Prop := ∃ r ∈ rs, InRange x r

/-- No range starts before one in front of it. Empty ranges and ranges that overlap may stand
in any order of their ends. -/
def SortedByStart (rs : List (Nat × Nat)) : Prop := rs.Pairwise fun r r' => r.1 ≤ r'.1

theorem covered_cons {r : Nat × Nat} {rs : List (Nat × Nat)} {x : Nat} :
    Covered (r :: rs) x ↔ InRange x r ∨ Covered rs x := by
  unfold Covered
  simp only [List.mem_cons, exists_eq_or_imp]

/-- The second range begins in the first or right behind it: up to the end of both. -/
theorem inRange_grow {a n b k x : Nat} (hab : a ≤ b) (hb : b ≤ a + n) :
    InRange x (a, max (a + n) (b + k) - a) ↔ InRange x (a, n) ∨ InRange x (b, k) := by
  unfold InRange
  dsimp only
  omega

end NetBricks.Lib
