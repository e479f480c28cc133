import Mathlib.Data.List.Forall2

/-!
# Computations that may fail

`Except` read backwards: what a sequence of computations, or one computation for every
element of a list, has seen when it succeeds (`bind_eq_ok`, `mapM_eq_ok`), and which
errors it can end with (`FailsOnly`).
-/

namespace NetBricks.Lib.Fallible

variable {ε α β : Type}

theorem bind_eq_ok {x : Except ε α} {f : α → Except ε β} {b : β} :
    (x >>= f) = .ok b ↔ ∃ a, x = .ok a ∧ f a = .ok b := by
  cases x with
  | error e => simp [bind, Except.bind]
  | ok a => simp [bind, Except.bind]

/-- A list is mapped when each element is. -/
theorem mapM_eq_ok {f : α → Except ε β} {xs : List α} {ys : List β} :
    xs.mapM f = .ok ys ↔ List.Forall₂ (fun x y => f x = .ok y) xs ys := by
  induction xs generalizing ys with
  | nil =>
    rw [List.mapM_nil, List.forall₂_nil_left_iff]
    exact ⟨fun h => (Except.ok.inj h).symm, fun h => congrArg Except.ok h.symm⟩
  | cons x xs ih =>
    rw [List.mapM_cons, bind_eq_ok, List.forall₂_cons_left_iff]
    constructor
    · intro h
      obtain ⟨y, hy, h⟩ := h
      obtain ⟨rest, hrest, h⟩ := bind_eq_ok.mp h
      exact ⟨y, rest, hy, ih.mp hrest, (Except.ok.inj h).symm⟩
    · intro h
      obtain ⟨y, rest, hy, hrest, rfl⟩ := h
      exact ⟨y, hy, bind_eq_ok.mpr ⟨rest, ih.mpr hrest, rfl⟩⟩

/-! ## Which errors -/

/-- If `x` fails, then with an error that satisfies `p`. -/
def FailsOnly (p : ε → Prop) (x : Except ε α) : Prop := ∀ e, x = .error e → p e

variable {p : ε → Prop}

@[simp] theorem failsOnly_ok {a : α} : FailsOnly p (.ok a : Except ε α) := by
  intro e h
  cases h

@[simp] theorem failsOnly_error {e : ε} : FailsOnly p (.error e : Except ε α) ↔ p e := by
  refine ⟨fun h => h e rfl, fun h e' he' => ?_⟩
  cases he'
  exact h

theorem FailsOnly.bind {x : Except ε α} {f : α → Except ε β} (hx : FailsOnly p x)
    (hf : ∀ a, FailsOnly p (f a)) : FailsOnly p (x >>= f) := by
  cases x with
  | error e => exact failsOnly_error.mpr (hx e rfl)
  | ok a => exact hf a

theorem FailsOnly.mapM {f : α → Except ε β} {xs : List α} (hf : ∀ x, FailsOnly p (f x)) :
    FailsOnly p (xs.mapM f) := by
  induction xs with
  | nil => exact failsOnly_ok
  | cons x xs ih =>
    rw [List.mapM_cons]
    exact (hf x).bind fun y => ih.bind fun ys => failsOnly_ok

end NetBricks.Lib.Fallible
