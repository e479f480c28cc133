import Mathlib.Data.Nat.Bitwise
import NetBricks.Lib.Outcome

/-!
# Fixed-width unsigned integers as bit vectors

A `w`-bit unsigned integer is a `BitVec w`. Plain `+` and `-` panic where the result does
not fit (`plus`, `minus`), and `BitVec.setWidth` is an `as` cast, to a wider type or to a
narrower one. What they do is read off the values: under the bound that excludes the panic,
an operation returns the vector with the value of the sum or the difference.
-/

namespace NetBricks.Lib

variable {w : Nat}

/-- `a + b` under overflow checks. -/
def plus (a b : BitVec w) : Outcome (BitVec w) :=
  if a.uaddOverflow b then .panic .overflow else .ok (a + b)

/-- `a - b` under overflow checks. -/
def minus (a b : BitVec w) : Outcome (BitVec w) :=
  if a.usubOverflow b then .panic .overflow else .ok (a - b)

theorem plus_of_lt {a b : BitVec w} (h : a.toNat + b.toNat < 2 ^ w) :
    ∃ c, plus a b = .ok c ∧ c.toNat = a.toNat + b.toNat := by
  have hfits : a.uaddOverflow b = false := by simp [BitVec.uaddOverflow, h]
  exact ⟨a + b, by simp [plus, hfits], BitVec.toNat_add_of_lt h⟩

theorem minus_of_le {a b : BitVec w} (h : b.toNat ≤ a.toNat) :
    ∃ c, minus a b = .ok c ∧ c.toNat = a.toNat - b.toNat := by
  have hfits : a.usubOverflow b = false := by simp [BitVec.usubOverflow, h]
  exact ⟨a - b, by simp [minus, hfits], BitVec.toNat_sub_of_le (BitVec.le_def.mpr h)⟩

theorem toNat_setWidth_of_lt {u : Nat} {a : BitVec w} (h : a.toNat < 2 ^ u) :
    (a.setWidth u).toNat = a.toNat := by
  rw [BitVec.toNat_setWidth, Nat.mod_eq_of_lt h]

end NetBricks.Lib
