import NetBricks.Lib.Circular

/-!
# Several writes to one buffer

`scatter v writes` does the writes one after another, each at its own position. Where
the writes are apart from each other their order does not matter, and what a reader sees
has three rules: each write is read back (`take_drop_scatter`), what lies outside of all
of them stays (`getElem?_scatter`), and writing what is there already changes nothing
(`scatter_self`).
-/

namespace NetBricks.Lib

variable {α : Type}

/-- The writes, from the first to the last. -/
def scatter (v : List α) (writes : List (Nat × List α)) : List α :=
  writes.foldl (fun v w => overwrite v w.1 w.2) v

theorem scatter_cons (v : List α) (w : Nat × List α) (ws : List (Nat × List α)) :
    scatter v (w :: ws) = scatter (overwrite v w.1 w.2) ws := rfl

/-- The write is inside the buffer. -/
def InBuffer (v : List α) (w : Nat × List α) : Prop := w.1 + w.2.length ≤ v.length

/-- The two writes have no element in common. -/
def NoOverlap (w w' : Nat × List α) : Prop := w.1 + w.2.length ≤ w'.1 ∨ w'.1 + w'.2.length ≤ w.1

theorem inBuffer_overwrite {v : List α} {w w' : Nat × List α} (hw : InBuffer v w)
    (hw' : InBuffer v w') :
    InBuffer (overwrite v w.1 w.2) w' := by
  unfold InBuffer
  rw [length_overwrite hw]
  exact hw'

theorem length_scatter {writes : List (Nat × List α)} {v : List α}
    (h : ∀ w ∈ writes, InBuffer v w) : (scatter v writes).length = v.length := by
  induction writes generalizing v with
  | nil => rfl
  | cons w ws ih =>
    have hw := h w List.mem_cons_self
    rw [scatter_cons, ih fun w' hw' => inBuffer_overwrite hw (h w' (List.mem_cons_of_mem _ hw')),
      length_overwrite hw]

/-- What lies outside of all the writes stays. -/
theorem getElem?_scatter {writes : List (Nat × List α)} {v : List α} {i : Nat}
    (h : ∀ w ∈ writes, InBuffer v w) (hi : ∀ w ∈ writes, i < w.1 ∨ w.1 + w.2.length ≤ i) :
    (scatter v writes)[i]? = v[i]? := by
  induction writes generalizing v with
  | nil => rfl
  | cons w ws ih =>
    have hw := h w List.mem_cons_self
    rw [scatter_cons, ih (fun w' hw' => inBuffer_overwrite hw (h w' (List.mem_cons_of_mem _ hw')))
      (fun w' hw' => hi w' (List.mem_cons_of_mem _ hw')), getElem?_overwrite hw]
    rcases hi w List.mem_cons_self with hlt | hge
    · rw [if_pos hlt]
    · rw [if_neg (by omega), if_neg (by omega)]

/-- A range that is apart from all the writes stays. -/
theorem take_drop_scatter_of_apart {writes : List (Nat × List α)} {v : List α} {o n : Nat}
    (h : ∀ w ∈ writes, InBuffer v w) (hapart : ∀ w ∈ writes, o + n ≤ w.1 ∨ w.1 + w.2.length ≤ o) :
    ((scatter v writes).drop o).take n = (v.drop o).take n := by
  induction writes generalizing v with
  | nil => rfl
  | cons w ws ih =>
    have hw := h w List.mem_cons_self
    rw [scatter_cons, ih (fun w' hw' => inBuffer_overwrite hw (h w' (List.mem_cons_of_mem _ hw')))
      (fun w' hw' => hapart w' (List.mem_cons_of_mem _ hw')),
      take_drop_overwrite_of_disjoint hw (hapart w List.mem_cons_self)]

theorem take_drop_scatter {writes : List (Nat × List α)} {v : List α}
    (h : ∀ w ∈ writes, InBuffer v w) (hapart : writes.Pairwise NoOverlap) {w : Nat × List α}
    (hw : w ∈ writes) : ((scatter v writes).drop w.1).take w.2.length = w.2 := by
  induction writes generalizing v with
  | nil => cases hw
  | cons w₀ ws ih =>
    have hw₀ := h w₀ List.mem_cons_self
    have hrest : ∀ w' ∈ ws, InBuffer (overwrite v w₀.1 w₀.2) w' := fun w' hw' =>
      inBuffer_overwrite hw₀ (h w' (List.mem_cons_of_mem _ hw'))
    obtain ⟨hfirst, hpairs⟩ := List.pairwise_cons.mp hapart
    rw [scatter_cons]
    rcases List.mem_cons.mp hw with heq | hmem
    · -- the writes behind it leave it alone
      rw [heq, take_drop_scatter_of_apart hrest hfirst, take_drop_overwrite hw₀]
    · exact ih hrest hpairs hmem

theorem overwrite_self {v : List α} {o n : Nat} (h : o + n ≤ v.length) :
    overwrite v o ((v.drop o).take n) = v := by
  have hlen : ((v.drop o).take n).length = n := by
    rw [List.length_take, List.length_drop]
    omega
  rw [overwrite, hlen, ← List.drop_drop, List.take_append_drop, List.take_append_drop]

/-- A write over another one of the same length. -/
theorem overwrite_overwrite {v data data' : List α} {o : Nat} (h : o + data.length ≤ v.length)
    (hlen : data'.length = data.length) :
    overwrite (overwrite v o data) o data' = overwrite v o data' := by
  have htake : (v.take o).length = o := by
    rw [List.length_take]
    omega
  have hfront : (overwrite v o data).take o = v.take o := by
    rw [overwrite, List.take_left' htake]
  have hback : (overwrite v o data).drop (o + data.length) = v.drop (o + data.length) := by
    rw [overwrite, ← List.append_assoc, List.drop_left' (by rw [List.length_append, htake])]
  rw [overwrite, hfront, hlen, hback, overwrite, hlen]

/-- Writing what is there already changes nothing. -/
theorem scatter_self {writes : List (Nat × List α)} {v : List α} (h : ∀ w ∈ writes, InBuffer v w)
    (hsame : ∀ w ∈ writes, w.2 = (v.drop w.1).take w.2.length) : scatter v writes = v := by
  induction writes with
  | nil => rfl
  | cons w ws ih =>
    have hw : overwrite v w.1 w.2 = v := by
      rw [hsame w List.mem_cons_self]
      exact overwrite_self (h w List.mem_cons_self)
    rw [scatter_cons, hw]
    exact ih (fun w' hw' => h w' (List.mem_cons_of_mem _ hw'))
      (fun w' hw' => hsame w' (List.mem_cons_of_mem _ hw'))

end NetBricks.Lib
