import Mathlib.Data.Nat.Bitwise
import NetBricks.Lib.Outcome

/-!
# Fixed-width unsigned arithmetic over `Nat`

A `w`-bit unsigned integer is a `Nat` below `2 ^ w`. The `wrapping` operations
reduce modulo `2 ^ w`; the `checked` ones panic where the result does not fit,
which is what plain `+` and `-` do under overflow checks; `truncate` is an `as`
cast to a narrower type.

Counters that only ever grow are reasoned about through their true, unbounded
values: a counter holding `n % 2 ^ w` stands for `n`. The three facts below are
all the clients need — adding to the counter adds to the true value
(`wrappingAdd_mod`), the wrapped difference of two counters is the true
difference as long as that fits (`wrappingSub_mod`), and masking a counter by
`2 ^ k - 1` is reduction modulo `2 ^ k` of the true value (`mod_and_mask`).
-/

namespace NetBricks.Lib

/-- `a.wrapping_add(b)` at width `w`. -/
def wrappingAdd (w a b : Nat) : Nat := (a + b) % 2 ^ w

/-- `a.wrapping_sub(b)` at width `w`. -/
def wrappingSub (w a b : Nat) : Nat := (a + (2 ^ w - b % 2 ^ w)) % 2 ^ w

/-- `a as uw`. -/
def truncate (w a : Nat) : Nat := a % 2 ^ w

/-- `!a` at width `w`. -/
def complement (w a : Nat) : Nat := 2 ^ w - (a + 1)

/-- `a - b` under overflow checks. -/
def checkedSub (a b : Nat) : Outcome Nat :=
  if b ≤ a then .ok (a - b) else .panic .overflow

/-- `a + b` at width `w` under overflow checks. -/
def checkedAdd (w a b : Nat) : Outcome Nat :=
  if a + b < 2 ^ w then .ok (a + b) else .panic .overflow

/-- `a * b` at width `w` under overflow checks. -/
def checkedMul (w a b : Nat) : Outcome Nat :=
  if a * b < 2 ^ w then .ok (a * b) else .panic .overflow

/-- `a % b`, which panics on a zero divisor. -/
def checkedRem (a b : Nat) : Outcome Nat :=
  if b = 0 then
    .panic (.explicit "attempt to calculate the remainder with a divisor of zero")
  else .ok (a % b)

theorem wrappingAdd_lt (w a b : Nat) : wrappingAdd w a b < 2 ^ w :=
  Nat.mod_lt _ (Nat.two_pow_pos w)

theorem wrappingSub_lt (w a b : Nat) : wrappingSub w a b < 2 ^ w :=
  Nat.mod_lt _ (Nat.two_pow_pos w)

theorem truncate_of_lt {w a : Nat} (h : a < 2 ^ w) : truncate w a = a :=
  Nat.mod_eq_of_lt h

theorem checkedSub_of_le {a b : Nat} (h : b ≤ a) : checkedSub a b = .ok (a - b) := if_pos h

theorem checkedSub_eq_ok {a b c : Nat} : checkedSub a b = .ok c ↔ b ≤ a ∧ c = a - b := by
  unfold checkedSub
  split
  · next h => exact ⟨fun hc => ⟨h, (Outcome.ok.inj hc).symm⟩, fun hc => congrArg _ hc.2.symm⟩
  · next h => exact ⟨fun hc => (nomatch hc), fun hc => absurd hc.1 h⟩

theorem checkedAdd_of_lt {w a b : Nat} (h : a + b < 2 ^ w) :
    checkedAdd w a b = .ok (a + b) := if_pos h

theorem checkedMul_of_lt {w a b : Nat} (h : a * b < 2 ^ w) :
    checkedMul w a b = .ok (a * b) := if_pos h

theorem checkedRem_of_pos {a b : Nat} (h : 0 < b) : checkedRem a b = .ok (a % b) :=
  if_neg (Nat.pos_iff_ne_zero.mp h)

/-- Adding to a counter adds to its true value. -/
theorem wrappingAdd_mod (w n b : Nat) : wrappingAdd w (n % 2 ^ w) b = (n + b) % 2 ^ w :=
  Nat.mod_add_mod n (2 ^ w) b

/-- Without a wrap, `wrapping_add` is addition. -/
theorem wrappingAdd_of_lt {w a b : Nat} (h : a + b < 2 ^ w) : wrappingAdd w a b = a + b :=
  Nat.mod_eq_of_lt h

/-- The wrapped difference of two counters depends on the true values only
through the difference modulo `2 ^ w`. -/
theorem wrappingSub_add (w n d : Nat) :
    wrappingSub w ((n + d) % 2 ^ w) (n % 2 ^ w) = d % 2 ^ w := by
  have hM : 0 < 2 ^ w := Nat.two_pow_pos w
  have hr : n % 2 ^ w < 2 ^ w := Nat.mod_lt _ hM
  unfold wrappingSub
  rw [Nat.mod_mod, Nat.mod_add_mod]
  -- the true value of `n` is a whole number of turns plus its residue
  have hn : n + d + (2 ^ w - n % 2 ^ w) = d + 2 ^ w * (n / 2 ^ w + 1) := by
    have := Nat.div_add_mod n (2 ^ w)
    rw [Nat.mul_add]
    omega
  rw [hn, Nat.add_mul_mod_self_left]

/-- The wrapped difference of two counters is the true difference when it fits. -/
theorem wrappingSub_mod {w n m : Nat} (hle : n ≤ m) (hlt : m - n < 2 ^ w) :
    wrappingSub w (m % 2 ^ w) (n % 2 ^ w) = m - n := by
  obtain ⟨d, rfl⟩ := Nat.exists_eq_add_of_le hle
  rw [wrappingSub_add, Nat.add_sub_cancel_left]
  exact Nat.mod_eq_of_lt (by omega)

/-- The wrapped difference is the plain one when it does not go below zero. -/
theorem wrappingSub_of_le {w a b : Nat} (hle : b ≤ a) (ha : a < 2 ^ w) :
    wrappingSub w a b = a - b := by
  have h := wrappingSub_mod (w := w) hle (by omega)
  rwa [Nat.mod_eq_of_lt ha, Nat.mod_eq_of_lt (by omega)] at h

/-- Adding a wrapped difference back. -/
theorem wrappingAdd_wrappingSub (w e a : Nat) :
    wrappingAdd w a (wrappingSub w e a) = e % 2 ^ w := by
  have hM : 0 < 2 ^ w := Nat.two_pow_pos w
  have hr : a % 2 ^ w < 2 ^ w := Nat.mod_lt _ hM
  unfold wrappingAdd wrappingSub
  rw [Nat.add_mod_mod]
  have ha : a + (e + (2 ^ w - a % 2 ^ w)) = e + 2 ^ w * (a / 2 ^ w + 1) := by
    have := Nat.div_add_mod a (2 ^ w)
    rw [Nat.mul_add]
    omega
  rw [ha, Nat.add_mul_mod_self_left]

/-- The rest of a range after a point in it: from the wrapped distance of the
point to the range's start. -/
theorem wrappingSub_of_reach {w a n e : Nat} (he : e < 2 ^ w) (hn : n < 2 ^ w)
    (h : wrappingSub w e a ≤ n) :
    wrappingSub w (wrappingAdd w a n) e = n - wrappingSub w e a := by
  have hpoint : (a + wrappingSub w e a) % 2 ^ w = e := by
    have := wrappingAdd_wrappingSub w e a
    rw [Nat.mod_eq_of_lt he] at this
    exact this
  have hsum : wrappingAdd w a n =
      (a + wrappingSub w e a + (n - wrappingSub w e a)) % 2 ^ w := by
    unfold wrappingAdd
    rw [Nat.add_assoc, Nat.add_sub_cancel' h]
  have := wrappingSub_add w (a + wrappingSub w e a) (n - wrappingSub w e a)
  rw [hpoint, ← hsum, Nat.mod_eq_of_lt (by omega)] at this
  exact this

/-- Masking a counter by `2 ^ k - 1` reduces its true value modulo `2 ^ k`. -/
theorem mod_and_mask {w k : Nat} (hk : k ≤ w) (n : Nat) :
    (n % 2 ^ w) &&& (2 ^ k - 1) = n % 2 ^ k := by
  rw [Nat.and_two_pow_sub_one_eq_mod]
  exact Nat.mod_mod_of_dvd n (Nat.pow_dvd_pow 2 hk)

/-! ## Masks -/

theorem and_complement_low {w k x : Nat} (hk : k ≤ w) (hx : x < 2 ^ w) :
    x &&& complement w (2 ^ k - 1) = x / 2 ^ k * 2 ^ k := by
  have hpos := Nat.two_pow_pos k
  have hlt : 2 ^ k - 1 < 2 ^ w := by
    have := Nat.pow_le_pow_right (by decide : 0 < 2) hk
    omega
  apply Nat.eq_of_testBit_eq
  intro i
  rw [complement, Nat.testBit_and, Nat.testBit_two_pow_sub_succ hlt, Nat.testBit_two_pow_sub_one,
    Nat.testBit_mul_two_pow, Nat.testBit_div_two_pow]
  by_cases hi : k ≤ i
  · rw [Nat.sub_add_cancel hi]
    by_cases hiw : i < w
    · simp [hi, hiw]
    · rw [Nat.testBit_lt_two_pow
        (Nat.lt_of_lt_of_le hx (Nat.pow_le_pow_right (by decide) (by omega)))]
      simp
  · have hlow : i < k := by omega
    simp [hi, hlow]

/-- Only zero and the bit itself have no bit outside of one bit. -/
theorem and_complement_two_pow {w k x : Nat} (hk : k < w) (hx : x < 2 ^ w) :
    x &&& complement w (2 ^ k) = 0 ↔ x = 0 ∨ x = 2 ^ k := by
  have hlt : 2 ^ k < 2 ^ w := Nat.pow_lt_pow_right (by decide) hk
  have hbits : ∀ i, (x &&& complement w (2 ^ k)).testBit i = (x.testBit i && !decide (k = i)) := by
    intro i
    rw [complement, Nat.testBit_and, Nat.testBit_two_pow_sub_succ hlt, Nat.testBit_two_pow]
    by_cases hiw : i < w
    · simp [hiw]
    · rw [Nat.testBit_lt_two_pow
        (Nat.lt_of_lt_of_le hx (Nat.pow_le_pow_right (by decide) (by omega)))]
      simp
  constructor
  · intro hzero
    have hother : ∀ i, k ≠ i → x.testBit i = false := by
      intro i hi
      have hbit := hbits i
      rw [hzero, Nat.zero_testBit] at hbit
      simpa [hi] using hbit.symm
    cases htop : x.testBit k with
    | false =>
      left
      apply Nat.eq_of_testBit_eq
      intro i
      rw [Nat.zero_testBit]
      by_cases hi : k = i
      · rw [← hi, htop]
      · exact hother i hi
    | true =>
      right
      apply Nat.eq_of_testBit_eq
      intro i
      rw [Nat.testBit_two_pow]
      by_cases hi : k = i
      · rw [← hi, htop]
        simp
      · rw [hother i hi]
        simp [hi]
  · intro hor
    apply Nat.eq_of_testBit_eq
    intro i
    rw [hbits, Nat.zero_testBit]
    rcases hor with rfl | rfl
    · simp
    · simp [Nat.testBit_two_pow]

end NetBricks.Lib
