import Mathlib.Logic.Function.Basic

/-!
# Spans of positions, held by parties

A party holds a span of positions, its first one and their number, or none. The spans are
apart when no position is in two of them (`Apart`), and tile the positions from `lo` to
`hi` when each of these is in one (`Tiled`). Both are kept when a party takes the span
behind all others, which moves `hi`, and when the party at the front gives its span back,
which moves `lo`.
-/

namespace NetBricks.Lib

variable {ι : Type} {f : ι → Option (Nat × Nat)} {p : ι} {a n : Nat}

def Apart (f : ι → Option (Nat × Nat)) : Prop :=
  ∀ p p', p ≠ p' → ∀ a n b m, f p = some (a, n) → f p' = some (b, m) → a + n ≤ b ∨ b + m ≤ a

def Tiled (f : ι → Option (Nat × Nat)) (lo hi : Nat) : Prop :=
  ∀ i, lo ≤ i → i < hi → ∃ p a n, f p = some (a, n) ∧ a ≤ i ∧ i < a + n

variable [DecidableEq ι]

theorem Apart.take (h : Apart f) (hbefore : ∀ p' b m, f p' = some (b, m) → b + m ≤ a) :
    Apart (Function.update f p (some (a, n))) := by
  intro p₁ p₂ hne b m c l h₁ h₂
  by_cases hp₁ : p₁ = p
  · rw [hp₁, Function.update_self] at h₁
    rw [Function.update_of_ne (fun h => hne (hp₁.trans h.symm))] at h₂
    cases h₁
    exact Or.inr (hbefore p₂ c l h₂)
  · rw [Function.update_of_ne hp₁] at h₁
    by_cases hp₂ : p₂ = p
    · rw [hp₂, Function.update_self] at h₂
      cases h₂
      exact Or.inl (hbefore p₁ b m h₁)
    · rw [Function.update_of_ne hp₂] at h₂
      exact h p₁ p₂ hne b m c l h₁ h₂

theorem Apart.giveBack (h : Apart f) : Apart (Function.update f p none) := by
  have hold : ∀ {p' : ι} {b m : Nat}, Function.update f p none p' = some (b, m) →
      f p' = some (b, m) := by
    intro p' b m hs
    by_cases hp : p' = p
    · rw [hp, Function.update_self] at hs
      cases hs
    · rwa [Function.update_of_ne hp] at hs
  exact fun p₁ p₂ hne b m c l h₁ h₂ => h p₁ p₂ hne b m c l (hold h₁) (hold h₂)

theorem Tiled.take {lo : Nat} (h : Tiled f lo a) (hp : f p = none) :
    Tiled (Function.update f p (some (a, n))) lo (a + n) := by
  intro i hi hlt
  by_cases hnew : i < a
  · obtain ⟨p', b, m, hs, hin⟩ := h i hi hnew
    have hne : p' ≠ p := by
      rintro rfl
      rw [hp] at hs
      cases hs
    exact ⟨p', b, m, (Function.update_of_ne hne _ _).trans hs, hin⟩
  · exact ⟨p, a, n, Function.update_self _ _ _, Nat.le_of_not_lt hnew, hlt⟩

theorem Tiled.giveBack {hi : Nat} (h : Tiled f a hi) (hp : f p = some (a, n)) :
    Tiled (Function.update f p none) (a + n) hi := by
  intro i hge hlt
  obtain ⟨p', b, m, hs, hin⟩ := h i (Nat.le_trans (Nat.le_add_right a n) hge) hlt
  have hne : p' ≠ p := by
    rintro rfl
    rw [hp] at hs
    cases hs
    omega
  exact ⟨p', b, m, (Function.update_of_ne hne _ _).trans hs, hin⟩

end NetBricks.Lib
