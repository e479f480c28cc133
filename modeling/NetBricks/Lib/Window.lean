import Mathlib.Data.Nat.Basic

/-!
# Windows into a buffer

A window is the part of a buffer that counts: the places from `start` up to `stop`. Either
edge can be moved outwards, as far as the buffer goes, and inwards, as far as the other
edge. A move by more than that is refused. Moving an edge outwards and then back inwards by
the same amount gives the window again (`narrow_of_widen`).
-/

namespace NetBricks.Lib

/-- The places from `start` up to `stop` of a buffer. -/
structure Window where
  capacity : Nat
  start : Nat
  stop : Nat
  start_le : start ≤ stop
  stop_le : stop ≤ capacity

/-- The two edges of a window. -/
inductive Edge where
  | front
  | back
  deriving DecidableEq, Repr

namespace Window

/-- Move an edge outwards. -/
def widen (v : Window) (n : Nat) : Edge → Option Window
  | .front =>
    if n ≤ v.start then
      some { v with
        start := v.start - n
        start_le := Nat.le_trans (Nat.sub_le _ _) v.start_le }
    else none
  | .back =>
    if h : n ≤ v.capacity - v.stop then
      some { v with
        stop := v.stop + n
        start_le := Nat.le_trans v.start_le (Nat.le_add_right _ _)
        stop_le := by
          have := v.stop_le
          omega }
    else none

/-- Move an edge inwards. -/
def narrow (v : Window) (n : Nat) : Edge → Option Window
  | .front =>
    if h : n ≤ v.stop - v.start then
      some { v with
        start := v.start + n
        start_le := by
          have := v.start_le
          omega }
    else none
  | .back =>
    if h : n ≤ v.stop - v.start then
      some { v with
        stop := v.stop - n
        start_le := by
          have := v.start_le
          omega
        stop_le := Nat.le_trans (Nat.sub_le _ _) v.stop_le }
    else none

/-- An edge that was moved outwards can be moved back. -/
theorem narrow_of_widen {v v' : Window} {n : Nat} {e : Edge} (h : v.widen n e = some v') :
    v'.narrow n e = some v := by
  have hle := v.start_le
  cases e with
  | front =>
    simp only [widen, Option.ite_none_right_eq_some, Option.some.injEq] at h
    obtain ⟨hn, rfl⟩ := h
    simp only [narrow]
    rw [dif_pos (by omega)]
    simp [Nat.sub_add_cancel hn]
  | back =>
    simp only [widen, Option.dite_none_right_eq_some, Option.some.injEq] at h
    obtain ⟨hn, rfl⟩ := h
    simp only [narrow]
    rw [dif_pos (by omega)]
    simp

end Window

end NetBricks.Lib
