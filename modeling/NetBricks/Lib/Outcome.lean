/-!
# Outcomes: values, panics and running out of fuel

Imperative code that may stop with a panic or loop forever is modelled as a
function into `Outcome`. A loop takes an explicit fuel argument; `timeout` is
what it returns when the fuel is gone, so "the loop terminates" is "some fuel
gives something other than `timeout`", and "the loop runs forever" is "every
fuel gives `timeout`".
-/

namespace NetBricks.Lib

/-- Why a computation stopped without a value. -/
inductive Fault where
  | index
  | slice
  | overflow
  | assertion (msg : String)
  | explicit (msg : String)
  deriving DecidableEq, Repr

/-- The outcome of running imperative code. -/
inductive Outcome (α : Type) where
  | ok (a : α)
  | panic (why : Fault)
  | timeout
  deriving DecidableEq, Repr

namespace Outcome

variable {α β γ : Type}

/-- Sequencing: a panic or a timeout ends the computation. -/
protected def bind : Outcome α → (α → Outcome β) → Outcome β
  | ok a, f => f a
  | panic w, _ => panic w
  | timeout, _ => timeout

instance : Monad Outcome where
  pure := ok
  bind := Outcome.bind

@[simp] theorem pure_eq (a : α) : (pure a : Outcome α) = ok a := rfl

@[simp] theorem bind_ok (a : α) (f : α → Outcome β) : (ok a >>= f) = f a := rfl

@[simp] theorem bind_panic (w : Fault) (f : α → Outcome β) :
    ((panic w : Outcome α) >>= f) = panic w := rfl

@[simp] theorem bind_timeout (f : α → Outcome β) :
    ((timeout : Outcome α) >>= f) = timeout := rfl

instance : LawfulMonad Outcome :=
  LawfulMonad.mk' Outcome
    (by intro α x; cases x <;> rfl)
    (by intro α β x f; rfl)
    (by intro α β γ x f g; cases x <;> rfl)

/-- A sequence returns exactly when both halves do. -/
theorem bind_eq_ok {x : Outcome α} {f : α → Outcome β} {b : β} :
    x >>= f = ok b ↔ ∃ a, x = ok a ∧ f a = ok b := by
  cases x with
  | ok a => simp
  | panic w => simp
  | timeout => simp

/-- A sequence runs out of fuel in its first half or in its second. -/
theorem bind_eq_timeout {x : Outcome α} {f : α → Outcome β} :
    x >>= f = timeout ↔ x = timeout ∨ ∃ a, x = ok a ∧ f a = timeout := by
  cases x with
  | ok a => simp
  | panic w => simp
  | timeout => simp

/-- A sequence panics in its first half or in its second. -/
theorem bind_eq_panic {x : Outcome α} {f : α → Outcome β} {w : Fault} :
    x >>= f = panic w ↔ x = panic w ∨ ∃ a, x = ok a ∧ f a = panic w := by
  cases x with
  | ok a => simp
  | panic w => simp
  | timeout => simp

/-- A computation on the value that is there, if there is one. -/
def mapSome (f : α → Outcome β) : Option α → Outcome (Option β)
  | none => ok none
  | some a => do
    let b ← f a
    ok (some b)

/-- `n` rounds of a step. -/
def iterate (f : α → Outcome α) : Nat → α → Outcome α
  | 0, a => ok a
  | n + 1, a => do
    let a ← f a
    iterate f n a

/-! ## Checks -/

/-- `assert!`: continue when the condition holds, panic otherwise. -/
def check (c : Prop) [Decidable c] (msg : String) : Outcome Unit :=
  if c then ok () else panic (.assertion msg)

@[simp] theorem check_true {c : Prop} [Decidable c] (h : c) (msg : String) :
    check c msg = ok () := if_pos h

@[simp] theorem check_false {c : Prop} [Decidable c] (h : ¬ c) (msg : String) :
    check c msg = panic (.assertion msg) := if_neg h

theorem check_eq_ok {c : Prop} [Decidable c] {msg : String} {u : Unit} :
    check c msg = ok u ↔ c := by
  by_cases h : c
  · simp [h]
  · simp [h]

/-- `v[i]`: the element, or a panic when the index is out of range. -/
def index (v : List α) (i : Nat) : Outcome α :=
  match v[i]? with
  | some a => ok a
  | none => panic .index

theorem index_eq_ok {v : List α} {i : Nat} {a : α} :
    index v i = ok a ↔ v[i]? = some a := by
  unfold index
  cases h : v[i]? with
  | none => simp
  | some b => simp

theorem index_of_some {v : List α} {i : Nat} {a : α} (h : v[i]? = some a) :
    index v i = ok a := index_eq_ok.mpr h

/-- `&v[i..]`. -/
def sliceFrom (v : List α) (i : Nat) : Outcome (List α) :=
  if i ≤ v.length then ok (v.drop i) else panic .slice

theorem sliceFrom_of_le {v : List α} {i : Nat} (h : i ≤ v.length) :
    sliceFrom v i = ok (v.drop i) := if_pos h

/-- `&v[..i]`. -/
def sliceTo (v : List α) (i : Nat) : Outcome (List α) :=
  if i ≤ v.length then ok (v.take i) else panic .slice

theorem sliceTo_of_le {v : List α} {i : Nat} (h : i ≤ v.length) :
    sliceTo v i = ok (v.take i) := if_pos h

/-- `&v[i..j]`. -/
def sliceRange (v : List α) (i j : Nat) : Outcome (List α) :=
  if i ≤ j ∧ j ≤ v.length then ok ((v.drop i).take (j - i)) else panic .slice

theorem sliceRange_of_le {v : List α} {i j : Nat} (hi : i ≤ j) (hj : j ≤ v.length) :
    sliceRange v i j = ok ((v.drop i).take (j - i)) := if_pos ⟨hi, hj⟩

theorem sliceRange_eq_ok {v s : List α} {i j : Nat} (h : sliceRange v i j = ok s) :
    i ≤ j ∧ j ≤ v.length := by
  unfold sliceRange at h
  split at h
  next hij => exact hij
  next hij => cases h

end Outcome

end NetBricks.Lib
