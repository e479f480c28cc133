import NetBricks.Lib.Judgment
import NetBricks.Lib.Word

/-!
# Recoded counters

A program that keeps `w`-bit counters, adds to them with `wrapping_add`, and
otherwise only compares and subtracts them, cannot tell a run from one in which
every counter is recoded, as long as the recoding keeps the order and the
distances of the numbers that meet in a comparison. `Recoding w τ C` says that of
a recoding `τ` and a set `C` of numbers: wrapping additions and wrapped
differences go through `τ` whatever the numbers are, comparisons and plain
differences do for numbers in `C`.

Two recodings: nothing changes, for all numbers (`Recoding.refl`); and adding a
constant modulo `2 ^ w`, for numbers that the constant carries past `2 ^ w`
equally often (`Recoding.shift`).

Ranges of `n` numbers from `x` on come with both ends in `C`; the lemmas at the
end say that cutting, joining and appending ranges stays in `C`.
-/

namespace NetBricks.Lib

/-- A checked difference against itself, with what it is when there is one. -/
theorem sim_checkedSub (x y : Nat) :
    Outcome.Sim (fun a b => a = b ∧ y ≤ x ∧ a = x - y) (checkedSub x y) (checkedSub x y) :=
  Outcome.Sim.self (fun _ h => ⟨rfl, checkedSub_eq_ok.mp h⟩)

structure Recoding (w : Nat) (τ : Nat → Nat) (C : Nat → Prop) : Prop where
  add : ∀ x n, wrappingAdd w (τ x) n = τ (wrappingAdd w x n)
  wrapped : ∀ x y, wrappingSub w (τ x) (τ y) = wrappingSub w x y
  le_iff : ∀ {x y}, C x → C y → (τ x ≤ τ y ↔ x ≤ y)
  sub : ∀ {x y}, C x → C y → x ≤ y → τ y - τ x = y - x
  between : ∀ {x y z}, C x → C z → x ≤ y → y ≤ z → C y
  /-- Either all numbers are meant, or `w`-bit ones. -/
  proper : (∀ x, C x) ∨ ∀ x, C x → x < 2 ^ w

/-- The numbers of `w` bits to which adding `k` carries `c` times past `2 ^ w`. -/
def Carried (w k c x : Nat) : Prop := x < 2 ^ w ∧ (x + k) / 2 ^ w = c

/-- Adding `k` modulo `2 ^ w`. -/
def shift (w k x : Nat) : Nat := (x + k) % 2 ^ w

namespace Recoding

theorem refl (w : Nat) : Recoding w id (fun _ => True) where
  add _ _ := rfl
  wrapped _ _ := rfl
  le_iff _ _ := Iff.rfl
  sub _ _ _ := rfl
  between _ _ _ _ := trivial
  proper := .inl (fun _ => trivial)

/-- The shifted number, for numbers that carry alike. -/
theorem shift_eq {w k c x : Nat} (hx : Carried w k c x) : shift w k x = x + k - 2 ^ w * c := by
  have := Nat.div_add_mod (x + k) (2 ^ w)
  rw [hx.2] at this
  unfold Lib.shift
  omega

theorem carry_le {w k c x : Nat} (hx : Carried w k c x) : 2 ^ w * c ≤ x + k := by
  have := Nat.div_add_mod (x + k) (2 ^ w)
  rw [hx.2] at this
  omega

theorem wrappingSub_shift (w k x y : Nat) :
    wrappingSub w (Lib.shift w k x) (Lib.shift w k y) = wrappingSub w x y := by
  have hM : 0 < 2 ^ w := Nat.two_pow_pos w
  -- `x` is `y` plus the wrapped difference, so both sides are that difference
  have hx : (y + wrappingSub w x y) % 2 ^ w = x % 2 ^ w := wrappingAdd_wrappingSub w x y
  have hshift : Lib.shift w k x = (y + k + wrappingSub w x y) % 2 ^ w := by
    unfold Lib.shift
    rw [Nat.add_right_comm, ← Nat.mod_add_mod (y + wrappingSub w x y), hx, Nat.mod_add_mod]
  rw [hshift]
  unfold Lib.shift
  rw [wrappingSub_add]
  exact Nat.mod_eq_of_lt (Nat.mod_lt _ hM)

theorem shift (w k c : Nat) : Recoding w (Lib.shift w k) (Carried w k c) where
  add x n := by
    unfold Lib.shift wrappingAdd
    rw [Nat.mod_add_mod, Nat.mod_add_mod, Nat.add_right_comm]
  wrapped := wrappingSub_shift w k
  le_iff {x y} hx hy := by
    have := carry_le hx
    have := carry_le hy
    rw [shift_eq hx, shift_eq hy]
    omega
  sub {x y} hx hy hle := by
    have := carry_le hx
    rw [shift_eq hx, shift_eq hy]
    omega
  between {x y z} hx hz hxy hyz := by
    refine ⟨Nat.lt_of_le_of_lt hyz hz.1, Nat.le_antisymm ?_ ?_⟩
    · rw [← hz.2]
      exact Nat.div_le_div_right (by omega)
    · rw [← hx.2]
      exact Nat.div_le_div_right (by omega)
  proper := .inr (fun _ hx => hx.1)

variable {w : Nat} {τ : Nat → Nat} {C : Nat → Prop} (hτ : Recoding w τ C) {x y n m : Nat}
include hτ

/-! ## Comparisons -/

theorem lt_iff (hx : C x) (hy : C y) : τ x < τ y ↔ x < y := by
  have := hτ.le_iff hy hx
  omega

theorem eq_iff (hx : C x) (hy : C y) : τ x = τ y ↔ x = y := by
  have := hτ.le_iff hx hy
  have := hτ.le_iff hy hx
  omega

theorem max_eq (hx : C x) (hy : C y) : max (τ x) (τ y) = τ (max x y) := by
  rcases Nat.le_total x y with h | h
  · rw [Nat.max_eq_right h, Nat.max_eq_right ((hτ.le_iff hx hy).mpr h)]
  · rw [Nat.max_eq_left h, Nat.max_eq_left ((hτ.le_iff hy hx).mpr h)]

/-- A checked difference is the same, or panics in both. -/
theorem checkedSub_eq (hx : C x) (hy : C y) : checkedSub (τ x) (τ y) = checkedSub x y := by
  unfold checkedSub
  by_cases h : y ≤ x
  · rw [if_pos h, if_pos ((hτ.le_iff hy hx).mpr h), hτ.sub hy hx h]
  · rw [if_neg h, if_neg (fun h' => h ((hτ.le_iff hy hx).mp h'))]

/-! ## Ranges -/

theorem stop (h : C (x + n)) : C (wrappingAdd w x n) := by
  rcases hτ.proper with hall | hlt
  · exact hall _
  · rw [wrappingAdd_of_lt (hlt _ h)]
    exact h

theorem take (hx : C x) (h : C (x + n)) (hm : m ≤ n) : C (x + m) :=
  hτ.between hx h (by omega) (by omega)

theorem drop (h : C (x + n)) (hm : m ≤ n) : C (wrappingAdd w x m + (n - m)) := by
  rcases hτ.proper with hall | hlt
  · exact hall _
  · have := hlt _ h
    rw [wrappingAdd_of_lt (by omega), Nat.add_assoc, Nat.add_sub_cancel' hm]
    exact h

/-- A range and one that starts where it ends. -/
theorem append (h : C (x + n)) (hy : wrappingAdd w x n = y) (hym : C (y + m)) :
    C (x + (n + m)) := by
  rcases hτ.proper with hall | hlt
  · exact hall _
  · rw [wrappingAdd_of_lt (hlt _ h)] at hy
    subst hy
    rw [← Nat.add_assoc]
    exact hym

/-- A range and one that starts in it and ends behind it. -/
theorem join (h : C (x + n)) (hym : C (y + m)) (hle : y ≤ wrappingAdd w x n)
    (hover : wrappingAdd w x n - y ≤ m) : C (x + (m - (wrappingAdd w x n - y) + n)) := by
  rcases hτ.proper with hall | hlt
  · exact hall _
  · rw [wrappingAdd_of_lt (hlt _ h)] at hle hover ⊢
    have : x + (m - (x + n - y) + n) = y + m := by omega
    rw [this]
    exact hym

/-- From a number in `C` up to another. -/
theorem upTo (hx : C x) (hy : C y) (hle : x ≤ y) (hn : n ≤ y - x) : C (x + n) :=
  hτ.between hx hy (by omega) (by omega)

end Recoding

end NetBricks.Lib
