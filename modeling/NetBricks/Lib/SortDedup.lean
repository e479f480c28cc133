import Mathlib.Data.List.Destutter
import Mathlib.Data.List.Sort

/-!
# `sort()` and `dedup()` on a vector of numbers

`dedup` removes a number that is equal to the one before it. On a sorted vector
that leaves every number once, in ascending order.
-/

namespace NetBricks.Lib

/-- `v.sort(); v.dedup();` -/
def sortDedup (v : List Nat) : List Nat := (v.mergeSort).destutter (· ≠ ·)

/-- Removing repetitions loses no element. -/
theorem mem_destutter'_ne {a b : Nat} : ∀ {l : List Nat},
    a ∈ l.destutter' (· ≠ ·) b ↔ a ∈ b :: l := by
  intro l
  induction l generalizing b with
  | nil => rfl
  | cons c l ih =>
    by_cases hc : b = c
    · subst hc
      rw [List.destutter'_cons_neg _ (not_not.mpr rfl), ih]
      simp
    · rw [List.destutter'_cons_pos _ hc, List.mem_cons, ih, List.mem_cons (a := a) (b := b)]

theorem mem_sortDedup {a : Nat} {v : List Nat} : a ∈ sortDedup v ↔ a ∈ v := by
  unfold sortDedup
  rw [← List.mem_mergeSort (l := v)]
  cases v.mergeSort with
  | nil => rfl
  | cons b l => exact mem_destutter'_ne

theorem sortDedup_pairwise (v : List Nat) : (sortDedup v).Pairwise (· < ·) := by
  have hsorted : (sortDedup v).Pairwise (· ≤ ·) := by
    apply List.Pairwise.sublist (List.destutter_sublist _ _)
    simpa using List.pairwise_mergeSort' (· ≤ ·) v
  have hne : (sortDedup v).IsChain (· ≠ ·) := List.isChain_destutter _ _
  rw [← List.isChain_iff_pairwise, List.isChain_iff_getElem]
  rw [← List.isChain_iff_pairwise, List.isChain_iff_getElem] at hsorted
  rw [List.isChain_iff_getElem] at hne
  intro i hi
  exact Nat.lt_of_le_of_ne (hsorted i hi) (hne i hi)

end NetBricks.Lib
