import NetBricks.Lib.Ranges
import NetBricks.Lib.Word

/-!
# Ranges of wrapping numbers

The numbers of `w` bits lie on a circle, and a range on it is its first number and its
length. Measured from a number `b`, the circle is cut open: a range that starts `o` behind the
base and does not reach around to it is the range of the distances from `o` on
(`inSerial_at`). Everything about a few ranges next to each other is then arithmetic of
distances, and that is how the lemmas about joining two ranges are proved.

Two ranges are found to touch by a comparison of plain numbers: the second starts at or
before the number behind the first, by no more than it is long. On the circle that puts
it where it is expected (`start_at`), so that joining them covers both (`inSerial_join`),
and so does filling the first up from the second (`inSerial_fill`).
-/

namespace NetBricks.Lib

/-- One of the `r.2` numbers from `r.1` on. -/
def InSerial (w q : Nat) (r : Nat × Nat) : Prop := wrappingSub w q r.1 < r.2

instance (w q : Nat) (r : Nat × Nat) : Decidable (InSerial w q r) :=
  inferInstanceAs (Decidable (_ < _))

def CoveredSerial (w : Nat) (rs : List (Nat × Nat)) (q : Nat) : Prop := ∃ r ∈ rs, InSerial w q r

/-- No two of the ranges have a number of `w` bits in common. -/
def ApartSerial (w : Nat) (rs : List (Nat × Nat)) : Prop :=
  rs.Pairwise fun r r' => ∀ q, q < 2 ^ w → InSerial w q r → ¬ InSerial w q r'

variable {w b a n c k m o q x : Nat} {r : Nat × Nat} {rs : List (Nat × Nat)}

theorem coveredSerial_cons :
    CoveredSerial w (r :: rs) q ↔ InSerial w q r ∨ CoveredSerial w rs q := by
  unfold CoveredSerial
  simp only [List.mem_cons, exists_eq_or_imp]

/-- A range by its distance from `b`. -/
theorem inSerial_at (hq : q < 2 ^ w) (hend : o + k ≤ 2 ^ w) :
    InSerial w q (wrappingAdd w b o, k) ↔ InRange (wrappingSub w q b) (o, k) := by
  have hq' := wrappingAdd_wrappingSub w q b
  rw [Nat.mod_eq_of_lt hq, wrappingAdd] at hq'
  have hlt := wrappingSub_lt w q b
  generalize wrappingSub w q b = y at *
  unfold InSerial InRange wrappingAdd
  dsimp only
  by_cases hle : o ≤ y
  · have hsub : wrappingSub w q ((b + o) % 2 ^ w) = b + y - (b + o) := by
      rw [← hq']
      exact wrappingSub_mod (by omega) (by omega)
    omega
  · -- the number comes before the range: all the way around
    have hsub : wrappingSub w q ((b + o) % 2 ^ w) = b + y + 2 ^ w - (b + o) := by
      rw [← hq', ← Nat.add_mod_right (b + y)]
      exact wrappingSub_mod (by omega) (by omega)
    omega

/-- The range of `m` numbers that starts `o` behind `b` ends at or behind `c`, as plain
numbers: `c` is as far before that end as the difference says. -/
theorem start_at (hreach : c ≤ wrappingAdd w (wrappingAdd w b o) m)
    (hback : wrappingAdd w (wrappingAdd w b o) m - c ≤ o + m) :
    c = wrappingAdd w b (o + m - (wrappingAdd w (wrappingAdd w b o) m - c)) := by
  have hstop : wrappingAdd w (wrappingAdd w b o) m = (b + (o + m)) % 2 ^ w := by
    unfold wrappingAdd
    rw [Nat.mod_add_mod, Nat.add_assoc]
  rw [hstop] at hreach hback ⊢
  have hdiv := Nat.div_add_mod (b + (o + m)) (2 ^ w)
  have hlt := Nat.mod_lt (b + (o + m)) (Nat.two_pow_pos w)
  generalize (b + (o + m)) % 2 ^ w = e at *
  have hsum : b + (o + m - (e - c)) = 2 ^ w * ((b + (o + m)) / 2 ^ w) + c := by omega
  rw [wrappingAdd, hsum, Nat.mul_add_mod, Nat.mod_eq_of_lt (by omega)]

section Touching

variable (hreach : c ≤ wrappingAdd w a m) (hback : wrappingAdd w a m - c ≤ m) (ha : a < 2 ^ w)
include hreach hback ha

/-- The second range starts no more than `m` before the end of the first. -/
theorem inSerial_second (hq : q < 2 ^ w) (hsize : m + k ≤ 2 ^ w) :
    InSerial w q (c, k) ↔
      InRange (wrappingSub w q a) (m - (wrappingAdd w a m - c), k) := by
  have hbase : wrappingAdd w a 0 = a := wrappingAdd_of_lt (by omega)
  have hstart := start_at (b := a) (o := 0) (m := m) (c := c)
    (by rw [hbase]; exact hreach) (by rw [hbase, Nat.zero_add]; exact hback)
  rw [hbase, Nat.zero_add] at hstart
  generalize wrappingAdd w a m - c = v at *
  rw [hstart]
  exact inSerial_at hq (by omega)

/-- The first range grows up to the end of the second. -/
theorem inSerial_join (hin : wrappingAdd w a m - c ≤ k) (hq : q < 2 ^ w)
    (hsize : m + k ≤ 2 ^ w) :
    InSerial w q (a, m + (k - (wrappingAdd w a m - c))) ↔
      InSerial w q (a, m) ∨ InSerial w q (c, k) := by
  rw [inSerial_second hreach hback ha hq hsize]
  unfold InSerial InRange
  dsimp only
  omega

/-- The first range is filled up to `n` numbers, and the second loses as many as the first
gets. -/
theorem inSerial_fill (hn : m ≤ n) (hlarge : n < m + (k - (wrappingAdd w a m - c)))
    (hq : q < 2 ^ w) (hsize : n + k ≤ 2 ^ w) :
    InSerial w q (a, n) ∨ InSerial w q (wrappingAdd w c (n - m), k - (n - m)) ↔
      InSerial w q (a, m) ∨ InSerial w q (c, k) := by
  have hsecond : InSerial w q (wrappingAdd w c (n - m), k - (n - m)) ↔
      InRange (wrappingSub w q a) (m - (wrappingAdd w a m - c) + (n - m), k - (n - m)) := by
    have hbase : wrappingAdd w a 0 = a := wrappingAdd_of_lt (by omega)
    have hstart := start_at (b := a) (o := 0) (m := m) (c := c)
      (by rw [hbase]; exact hreach) (by rw [hbase, Nat.zero_add]; exact hback)
    rw [hbase, Nat.zero_add] at hstart
    generalize wrappingAdd w a m - c = v at *
    have hmoved : wrappingAdd w c (n - m) = wrappingAdd w a (m - v + (n - m)) := by
      rw [hstart, wrappingAdd, wrappingAdd, wrappingAdd, Nat.mod_add_mod, Nat.add_assoc]
    rw [hmoved]
    exact inSerial_at hq (by omega)
  rw [hsecond, inSerial_second hreach hback ha hq (by omega)]
  unfold InSerial InRange
  dsimp only
  omega

end Touching

end NetBricks.Lib
