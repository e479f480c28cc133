import NetBricks.Lib.Outcome

/-!
# Postconditions and simulations of outcomes

Two ways to state what a program does, each with a rule for sequencing, so that
a proof about a program follows its text:

* `Ends F Q x` — `x` comes to an end: it returns a value in `Q` or panics with a
  fault in `F`, and does not run out of fuel.
* `Sim R x y` — `x` and `y` end the same way: both return, and the values are
  related by `R`, or both panic with the same fault, or both run out of fuel.
-/

namespace NetBricks.Lib.Outcome

variable {α β γ δ : Type}

/-! ## Postconditions -/

/-- `x` returns a value in `Q` or panics with a fault in `F`. -/
def Ends (F : Fault → Prop) (Q : α → Prop) : Outcome α → Prop
  | ok a => Q a
  | panic f => F f
  | timeout => False

theorem Ends.bind {F : Fault → Prop} {Q : α → Prop} {R : β → Prop} {x : Outcome α}
    {f : α → Outcome β} (h : Ends F Q x) (hf : ∀ a, Q a → Ends F R (f a)) :
    Ends F R (x >>= f) := by
  cases x with
  | ok a => exact hf a h
  | panic w => exact h
  | timeout => exact h

theorem Ends.mono {F : Fault → Prop} {Q R : α → Prop} {x : Outcome α} (h : Ends F Q x)
    (hQ : ∀ a, Q a → R a) : Ends F R x := by
  cases x with
  | ok a => exact hQ a h
  | panic w => exact h
  | timeout => exact h

/-- What every round keeps holds after any number of rounds. -/
theorem Ends.iterate {F : Fault → Prop} {Q : α → Prop} {f : α → Outcome α}
    (h : ∀ a, Q a → Ends F Q (f a)) : ∀ (n : Nat) {a : α}, Q a → Ends F Q (iterate f n a) := by
  intro n
  induction n with
  | zero => intro a ha; exact ha
  | succ n ih => intro a ha; exact (h a ha).bind (fun b hb => ih hb)

/-- A fact about what is returned, added to a postcondition. -/
theorem Ends.and {F : Fault → Prop} {P Q : α → Prop} {x : Outcome α} (h : Ends F Q x)
    (hP : ∀ a, x = ok a → P a) : Ends F (fun a => P a ∧ Q a) x := by
  cases x with
  | ok a => exact ⟨hP a rfl, h⟩
  | panic w => exact h
  | timeout => exact h

/-- Without a fault to end in, a program returns. -/
theorem Ends.exists_ok {Q : α → Prop} {x : Outcome α} (h : Ends (fun _ => False) Q x) :
    ∃ a, x = ok a ∧ Q a := by
  cases x with
  | ok a => exact ⟨a, rfl, h⟩
  | panic w => exact absurd h id
  | timeout => exact absurd h id

/-! ## Simulations -/

/-- `x` and `y` return related values, or end alike. -/
def Sim (R : α → β → Prop) : Outcome α → Outcome β → Prop
  | ok a, ok b => R a b
  | panic f, panic g => f = g
  | timeout, timeout => True
  | _, _ => False

/-- The ways in which two programs that simulate each other end. -/
theorem Sim.cases {R : α → β → Prop} {x : Outcome α} {y : Outcome β} (h : Sim R x y) :
    (∃ a b, x = ok a ∧ y = ok b ∧ R a b) ∨ (∃ f, x = panic f ∧ y = panic f) ∨
      (x = timeout ∧ y = timeout) := by
  cases x with
  | ok a =>
    cases y with
    | ok b => exact .inl ⟨a, b, rfl, rfl, h⟩
    | panic g => exact absurd h id
    | timeout => exact absurd h id
  | panic f =>
    cases y with
    | ok b => exact absurd h id
    | panic g => exact .inr (.inl ⟨f, rfl, congrArg panic (Eq.symm h)⟩)
    | timeout => exact absurd h id
  | timeout =>
    cases y with
    | ok b => exact absurd h id
    | panic g => exact absurd h id
    | timeout => exact .inr (.inr ⟨rfl, rfl⟩)

theorem Sim.self {R : α → α → Prop} {x : Outcome α} (h : ∀ a, x = ok a → R a a) : Sim R x x := by
  cases x with
  | ok a => exact h a rfl
  | panic f => exact rfl
  | timeout => exact trivial

theorem Sim.mono {R S : α → β → Prop} {x : Outcome α} {y : Outcome β} (h : Sim R x y)
    (hRS : ∀ a b, R a b → S a b) : Sim S x y := by
  rcases h.cases with ⟨a, b, rfl, rfl, hab⟩ | ⟨w, rfl, rfl⟩ | ⟨rfl, rfl⟩
  · exact hRS a b hab
  · exact rfl
  · exact trivial

theorem Sim.bind {R : α → β → Prop} {S : γ → δ → Prop} {x : Outcome α} {y : Outcome β}
    {f : α → Outcome γ} {g : β → Outcome δ} (h : Sim R x y)
    (hf : ∀ a b, R a b → Sim S (f a) (g b)) : Sim S (x >>= f) (y >>= g) := by
  rcases h.cases with ⟨a, b, rfl, rfl, hab⟩ | ⟨w, rfl, rfl⟩ | ⟨rfl, rfl⟩
  · exact hf a b hab
  · exact rfl
  · exact trivial

/-- Likewise, with what the first programs returned. -/
theorem Sim.bind_ok {R : α → β → Prop} {S : γ → δ → Prop} {x : Outcome α} {y : Outcome β}
    {f : α → Outcome γ} {g : β → Outcome δ} (h : Sim R x y)
    (hf : ∀ a b, x = ok a → y = ok b → R a b → Sim S (f a) (g b)) :
    Sim S (x >>= f) (y >>= g) := by
  rcases h.cases with ⟨a, b, rfl, rfl, hab⟩ | ⟨w, rfl, rfl⟩ | ⟨rfl, rfl⟩
  · exact hf a b rfl rfl hab
  · exact rfl
  · exact trivial

/-- Programs that simulate each other round by round. -/
theorem Sim.iterate {R : α → β → Prop} {f : α → Outcome α} {g : β → Outcome β}
    (h : ∀ a b, R a b → Sim R (f a) (g b)) :
    ∀ (n : Nat) {a : α} {b : β}, R a b → Sim R (iterate f n a) (iterate g n b) := by
  intro n
  induction n with
  | zero => intro a b hab; exact hab
  | succ n ih => intro a b hab; exact (h a b hab).bind (fun a' b' hab' => ih hab')

/-- The results of related programs, seen through functions that agree. -/
theorem Sim.eq {R : α → β → Prop} {x : Outcome α} {y : Outcome β} (h : Sim R x y)
    {f : α → γ} {g : β → γ} (hfg : ∀ a b, R a b → f a = g b) :
    (x >>= fun a => ok (f a)) = (y >>= fun b => ok (g b)) := by
  rcases h.cases with ⟨a, b, rfl, rfl, hab⟩ | ⟨w, rfl, rfl⟩ | ⟨rfl, rfl⟩
  · exact congrArg ok (hfg a b hab)
  · rfl
  · rfl

end NetBricks.Lib.Outcome
