import NetBricks.Lib.Outcome

/-!
# Computations that leave a trace

`Traced ε α` is a computation that performs events of type `ε` and ends like an
`Outcome`: with a value, a panic or out of fuel. The events performed before a
panic, or before the fuel ran out, are kept, so that a statement about the events
covers runs that never return.

A property of event sequences is given by a monitor: a state machine `δ` that
reads the events one by one and refuses (`none`) what must not happen.
`Obeys δ E m x Q` says that the monitor, started in state `m`, accepts the events
of `x`, that a value returned and the monitor's state then are in `Q`, and that
otherwise the fault (`none`: out of fuel) and the monitor's state are in `E`. The
rules follow the text of a program: one for each way to build a computation.
-/

namespace NetBricks.Lib

variable {ε α β μ : Type}

/-- The events of a computation, and how it ended. -/
structure Traced (ε α : Type) where
  events : List ε
  outcome : Outcome α

namespace Traced

/-- Sequencing: a panic or a timeout ends the computation and keeps its events. -/
protected def bind (x : Traced ε α) (f : α → Traced ε β) : Traced ε β :=
  match x.outcome with
  | .ok a => ⟨x.events ++ (f a).events, (f a).outcome⟩
  | .panic w => ⟨x.events, .panic w⟩
  | .timeout => ⟨x.events, .timeout⟩

/-- A computation without events. -/
def lift (x : Outcome α) : Traced ε α := ⟨[], x⟩

instance : Monad (Traced ε) where
  pure a := lift (.ok a)
  bind := Traced.bind

/-- Perform an event. -/
def emit (e : ε) : Traced ε Unit := ⟨[e], .ok ()⟩

/-- Out of fuel. -/
def timeout : Traced ε α := lift .timeout

theorem bind_of_ok {x : Traced ε α} {a : α} (h : x.outcome = .ok a) (f : α → Traced ε β) :
    x >>= f = ⟨x.events ++ (f a).events, (f a).outcome⟩ := by
  show Traced.bind x f = _
  unfold Traced.bind
  rw [h]

@[simp] theorem lift_bind (a : α) (f : α → Traced ε β) : lift (.ok a) >>= f = f a := rfl

/-! ## Monitors -/

/-- How a computation may end, in view of a monitor's state. -/
def Ending (E : Option Fault → μ → Prop) (Q : α → μ → Prop) : Outcome α → μ → Prop
  | .ok a, m => Q a m
  | .panic w, m => E (some w) m
  | .timeout, m => E none m

/-- The monitor accepts the events of `x`, and the end is one of those allowed. -/
def Obeys (δ : μ → ε → Option μ) (E : Option Fault → μ → Prop) (m : μ) (x : Traced ε α)
    (Q : α → μ → Prop) : Prop :=
  ∃ m', x.events.foldlM δ m = some m' ∧ Ending E Q x.outcome m'

namespace Obeys

variable {δ : μ → ε → Option μ} {E : Option Fault → μ → Prop} {m : μ}

theorem lift {x : Outcome α} {Q : α → μ → Prop} (h : Ending E Q x m) :
    Obeys δ E m (lift x) Q :=
  ⟨m, rfl, h⟩

theorem pure {a : α} {Q : α → μ → Prop} (h : Q a m) : Obeys δ E m (pure a) Q :=
  ⟨m, rfl, h⟩

theorem emit {e : ε} {m' : μ} (h : δ m e = some m') {Q : Unit → μ → Prop} (hQ : Q () m') :
    Obeys δ E m (emit e) Q := by
  refine ⟨m', ?_, hQ⟩
  show (do let m₁ ← δ m e; some m₁) = some m'
  rw [h]
  rfl

theorem bind {x : Traced ε α} {f : α → Traced ε β} {Q : α → μ → Prop} {R : β → μ → Prop}
    (h : Obeys δ E m x Q) (hf : ∀ a m', Q a m' → Obeys δ E m' (f a) R) :
    Obeys δ E m (x >>= f) R := by
  obtain ⟨m₁, hm₁, hend⟩ := h
  obtain ⟨events, outcome⟩ := x
  cases outcome with
  | ok a =>
    obtain ⟨m₂, hm₂, hend₂⟩ := hf a m₁ hend
    refine ⟨m₂, ?_, hend₂⟩
    show (events ++ (f a).events).foldlM δ m = some m₂
    rw [List.foldlM_append, hm₁]
    exact hm₂
  | panic w => exact ⟨m₁, hm₁, hend⟩
  | timeout => exact ⟨m₁, hm₁, hend⟩

theorem emit_bind {e : ε} {m' : μ} (he : δ m e = some m') {f : Unit → Traced ε β}
    {R : β → μ → Prop} (h : Obeys δ E m' (f ()) R) : Obeys δ E m (Traced.emit e >>= f) R := by
  refine (emit (Q := fun _ m₁ => m₁ = m') he rfl).bind ?_
  rintro _ _ rfl
  exact h

/-- A computation without events leaves the monitor where it is. -/
theorem lift_bind {x : Outcome α} {f : α → Traced ε β} {R : β → μ → Prop}
    (hend : Ending E (fun _ _ => True) x m) (h : ∀ a, x = .ok a → Obeys δ E m (f a) R) :
    Obeys δ E m (Traced.lift x >>= f) R := by
  cases x with
  | ok a => exact h a rfl
  | panic w => exact ⟨m, rfl, hend⟩
  | timeout => exact ⟨m, rfl, hend⟩

theorem mono {x : Traced ε α} {Q R : α → μ → Prop} (h : Obeys δ E m x Q)
    (hQ : ∀ a m', Q a m' → R a m') : Obeys δ E m x R := by
  obtain ⟨m₁, hm₁, hend⟩ := h
  refine ⟨m₁, hm₁, ?_⟩
  cases hx : x.outcome with
  | ok a =>
    rw [hx] at hend
    exact hQ a m₁ hend
  | panic w =>
    rw [hx] at hend
    exact hend
  | timeout =>
    rw [hx] at hend
    exact hend

/-- What every step keeps, a sequence of steps keeps. -/
theorem foldlM {ι : Type} {f : α → ι → Traced ε α} {I : α → μ → Prop}
    (hf : ∀ a i m', I a m' → Obeys δ E m' (f a i) I) :
    ∀ (is : List ι) {a : α} {m : μ}, I a m → Obeys δ E m (is.foldlM f a) I := by
  intro is
  induction is with
  | nil =>
    intro a m ha
    exact Obeys.pure ha
  | cons i is ih =>
    intro a m ha
    rw [List.foldlM_cons]
    exact (hf a i m ha).bind (fun b m' hb => ih hb)

end Obeys

end Traced

end NetBricks.Lib
