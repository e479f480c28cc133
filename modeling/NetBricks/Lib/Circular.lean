import Mathlib.Data.List.Rotate

/-!
# Circular arrays

A vector of `n` cells read circularly: position `p`, which may grow without
bound, lives in cell `p % n`. Everything a bounded queue needs from its storage
is said here once, in terms of positions:

* `cell v p` is the content of position `p`;
* `window v p len` is what `len` consecutive positions from `p` hold, in order;
* `blit v o data` is the two-part copy that wraps around the end of the vector.

Two positions less than `n` apart never share a cell (`mod_ne_of_lt`), so a
block write shows up at exactly the positions it was meant for and nowhere else
in the window of `n` positions around it (`cell_blit`, `cell_blit_before`).
-/

namespace NetBricks.Lib

variable {α : Type}

/-- Where position `p + j` lands, from where `p` lands. -/
theorem add_mod_cases {n p j : Nat} (hj : j < n) :
    (p + j) % n = if p % n + j < n then p % n + j else p % n + j - n := by
  have hp : p % n < n := Nat.mod_lt _ (by omega)
  rw [Nat.add_mod, Nat.mod_eq_of_lt hj]
  split
  next h => exact Nat.mod_eq_of_lt h
  next h =>
    rw [Nat.mod_eq_sub_mod (by omega)]
    exact Nat.mod_eq_of_lt (by omega)

/-- Positions less than one turn apart live in different cells. -/
theorem mod_ne_of_lt {n p q : Nat} (h : p < q) (hq : q < p + n) : p % n ≠ q % n := by
  obtain ⟨j, rfl⟩ := Nat.exists_eq_add_of_lt h
  have hp : p % n < n := Nat.mod_lt _ (by omega)
  rw [Nat.add_assoc p j 1, add_mod_cases (show j + 1 < n by omega)]
  split <;> omega

/-! ## Cells and windows -/

/-- The content of position `p`. -/
def cell (v : List α) (p : Nat) : Option α := v[p % v.length]?

/-- What the `len` positions from `p` hold. -/
def window (v : List α) (p len : Nat) : List α := (v.rotate p).take len

theorem cell_isSome {v : List α} (hv : 0 < v.length) (p : Nat) : ∃ a, cell v p = some a :=
  ⟨v.get ⟨p % v.length, Nat.mod_lt _ hv⟩, List.getElem?_eq_getElem _⟩

/-- A full turn later the same cell is read. -/
theorem cell_add_length (v : List α) (p : Nat) : cell v (p + v.length) = cell v p := by
  unfold cell
  rw [Nat.add_mod_right]

theorem length_window {v : List α} {len : Nat} (h : len ≤ v.length) (p : Nat) :
    (window v p len).length = len := by
  rw [window, List.length_take, List.length_rotate]
  omega

theorem getElem?_window {v : List α} {len i : Nat} (hi : i < len) (hlen : len ≤ v.length)
    (p : Nat) : (window v p len)[i]? = cell v (p + i) := by
  rw [window, List.getElem?_take_of_lt hi, List.getElem?_rotate (by omega), cell, Nat.add_comm]

/-- A list is the window at `p` when its elements are the window's cells. -/
theorem eq_window {v l : List α} {p : Nat} (hl : l.length ≤ v.length)
    (h : ∀ i, i < l.length → l[i]? = cell v (p + i)) : l = window v p l.length := by
  apply List.ext_getElem?
  intro i
  by_cases hi : i < l.length
  · rw [h i hi, getElem?_window hi hl]
  · rw [List.getElem?_eq_none (by omega),
      List.getElem?_eq_none (by rw [length_window hl]; omega)]

/-- A window only depends on the cells it shows. -/
theorem window_congr {v w : List α} {p len : Nat} (hv : len ≤ v.length) (hw : len ≤ w.length)
    (h : ∀ i, i < len → cell v (p + i) = cell w (p + i)) : window v p len = window w p len := by
  have hlen := length_window hv p
  have := eq_window (v := w) (l := window v p len) (p := p) (by omega) (by
    intro i hi
    rw [getElem?_window (by omega) hv]
    exact h i (by omega))
  rwa [hlen] at this

/-- Vectors that agree in every cell of a turn are equal. -/
theorem eq_of_cells {v w : List α} (hlen : v.length = w.length) (p : Nat)
    (h : ∀ j, j < v.length → cell v (p + j) = cell w (p + j)) : v = w := by
  have hwin := window_congr (v := v) (w := w) (p := p) (Nat.le_refl _)
    (Nat.le_of_eq hlen) h
  have hv : window v p v.length = v.rotate p :=
    List.take_of_length_le (Nat.le_of_eq (List.length_rotate _ _))
  have hw : window w p v.length = w.rotate p :=
    List.take_of_length_le (Nat.le_of_eq ((List.length_rotate _ _).trans hlen.symm))
  rw [hv, hw] at hwin
  exact List.rotate_injective p hwin

theorem window_take {v : List α} {k len : Nat} (h : k ≤ len) (p : Nat) :
    (window v p len).take k = window v p k := by
  rw [window, window, List.take_take, Nat.min_eq_left h]

theorem window_drop {v : List α} {k len : Nat} (hlen : len ≤ v.length) (hk : k ≤ len) (p : Nat) :
    (window v p len).drop k = window v (p + k) (len - k) := by
  have hl : ((window v p len).drop k).length = len - k := by
    rw [List.length_drop, length_window hlen]
  have := eq_window (v := v) (l := (window v p len).drop k) (p := p + k) (by omega) (by
    intro i hi
    rw [List.getElem?_drop, getElem?_window (by omega) hlen, Nat.add_assoc])
  rwa [hl] at this

theorem window_append {v : List α} {k len : Nat} (h : k + len ≤ v.length) (p : Nat) :
    window v p k ++ window v (p + k) len = window v p (k + len) := by
  have h₁ := window_take (v := v) (show k ≤ k + len by omega) p
  have h₂ := window_drop (v := v) (k := k) h (by omega) p
  rw [Nat.add_sub_cancel_left] at h₂
  rw [← h₁, ← h₂, List.take_append_drop]

/-- A window that grows by what was stored behind it. -/
theorem window_extend {v w data : List α} {p k : Nat} (hv : k ≤ v.length)
    (hw : k + data.length ≤ w.length) (hold : ∀ i, i < k → cell w (p + i) = cell v (p + i))
    (hnew : ∀ i, i < data.length → cell w (p + k + i) = data[i]?) :
    window w p (k + data.length) = window v p k ++ data := by
  have hdata : data = window w (p + k) data.length :=
    eq_window (by omega) fun i hi => (hnew i hi).symm
  rw [← window_append hw p, ← hdata, window_congr (by omega) hv hold]

/-- Positions that agree modulo a whole number of turns show the same window. -/
theorem window_mod {v : List α} {m : Nat} (h : v.length ∣ m) (p len : Nat) :
    window v (p % m) len = window v p len := by
  rw [window, window, ← List.rotate_mod v (p % m), Nat.mod_mod_of_dvd p h, List.rotate_mod]

/-! ## Single writes -/

theorem cell_set_self {v : List α} (hv : 0 < v.length) (p : Nat) (a : α) :
    cell (v.set (p % v.length) a) p = some a := by
  unfold cell
  rw [List.length_set, List.getElem?_set_self (Nat.mod_lt _ hv)]

/-- A write leaves the other positions within one turn alone. -/
theorem cell_set_ne {v : List α} {p q : Nat} (hne : p ≠ q) (hp : p < q + v.length)
    (hq : q < p + v.length) (a : α) : cell (v.set (p % v.length) a) q = cell v q := by
  have hmod : p % v.length ≠ q % v.length := by
    rcases Nat.lt_or_gt_of_ne hne with h | h
    · exact mod_ne_of_lt h hq
    · exact (mod_ne_of_lt h hp).symm
  unfold cell
  rw [List.length_set, List.getElem?_set_ne hmod]

/-! ## Block writes -/

/-- Replace the elements from `o` on by `data` (which has to fit). -/
def overwrite (v : List α) (o : Nat) (data : List α) : List α :=
  v.take o ++ (data ++ v.drop (o + data.length))

theorem length_overwrite {v data : List α} {o : Nat} (h : o + data.length ≤ v.length) :
    (overwrite v o data).length = v.length := by
  simp only [overwrite, List.length_append, List.length_take, List.length_drop]
  omega

/-- The first `k` elements of a list, others, and a rest of the list. -/
theorem getElem?_spliced {l data : List α} {k : Nat} (hk : k ≤ l.length) (m i : Nat) :
    (l.take k ++ (data ++ l.drop m))[i]? =
      if i < k then l[i]? else if i < k + data.length then data[i - k]?
      else l[m + (i - k - data.length)]? := by
  have hlen : (l.take k).length = k := by rw [List.length_take]; omega
  split
  next hi => rw [List.getElem?_append_left (by omega), List.getElem?_take_of_lt hi]
  next hi =>
    rw [List.getElem?_append_right (by omega), hlen]
    split
    next hid => rw [List.getElem?_append_left (by omega)]
    next hid => rw [List.getElem?_append_right (by omega), List.getElem?_drop]

theorem getElem?_overwrite {v data : List α} {o : Nat} (h : o + data.length ≤ v.length) (i : Nat) :
    (overwrite v o data)[i]? =
      if i < o then v[i]? else if i < o + data.length then data[i - o]? else v[i]? := by
  rw [overwrite, getElem?_spliced (by omega)]
  split
  · rfl
  split
  · rfl
  · congr 1
    omega

theorem getElem?_inserted {l data : List α} {k : Nat} (hk : k ≤ l.length) (i : Nat) :
    (l.take k ++ (data ++ l.drop k))[i]? =
      if i < k then l[i]? else if i < k + data.length then data[i - k]?
      else l[i - data.length]? := by
  rw [getElem?_spliced hk]
  split
  · rfl
  split
  · rfl
  · congr 1
    omega

theorem take_drop_overwrite {v data : List α} {o : Nat} (h : o + data.length ≤ v.length) :
    ((overwrite v o data).drop o).take data.length = data := by
  have hlen : (v.take o).length = o := by rw [List.length_take]; omega
  rw [overwrite, List.drop_left' hlen, List.take_left]

/-- Apart from the written range nothing changes. -/
theorem take_drop_overwrite_of_disjoint {v data : List α} {o o' n : Nat}
    (h : o + data.length ≤ v.length) (hdisj : o' + n ≤ o ∨ o + data.length ≤ o') :
    ((overwrite v o data).drop o').take n = (v.drop o').take n := by
  apply List.ext_getElem?
  intro i
  rw [List.getElem?_take, List.getElem?_take]
  by_cases hi : i < n
  · rw [if_pos hi, if_pos hi, List.getElem?_drop, List.getElem?_drop, getElem?_overwrite h]
    rcases hdisj with hbefore | hbehind
    · rw [if_pos (by omega)]
    · rw [if_neg (by omega), if_neg (by omega)]
  · rw [if_neg hi, if_neg hi]

/-- The two-part copy: up to the end of the vector, the rest at its front. -/
def blit (v : List α) (o : Nat) (data : List α) : List α :=
  if v.length < o + data.length then
    overwrite (overwrite v o (data.take (v.length - o))) 0 (data.drop (v.length - o))
  else overwrite v o data

theorem blit_nil (v : List α) (o : Nat) : blit v o [] = v := by
  have hnil : ∀ o, overwrite v o [] = v := fun o => List.take_append_drop o v
  unfold blit
  rw [List.take_nil, List.drop_nil, hnil, hnil, ite_self]

theorem length_blit {v data : List α} {o : Nat} (ho : o ≤ v.length)
    (hd : data.length ≤ v.length) : (blit v o data).length = v.length := by
  unfold blit
  split
  next h =>
    have htake : (data.take (v.length - o)).length = v.length - o := by
      rw [List.length_take]; omega
    have h₁ : (overwrite v o (data.take (v.length - o))).length = v.length :=
      length_overwrite (by omega)
    rw [length_overwrite, h₁]
    rw [h₁, List.length_drop]
    omega
  next h => exact length_overwrite (by omega)

/-- What the cells hold after a block write, relative to its first position. -/
theorem cell_blit {v data : List α} (hd : data.length ≤ v.length) (p : Nat) {j : Nat}
    (hj : j < v.length) :
    cell (blit v (p % v.length) data) (p + j) =
      if j < data.length then data[j]? else cell v (p + j) := by
  have ho : p % v.length < v.length := Nat.mod_lt _ (by omega)
  unfold cell
  rw [length_blit (by omega) hd, add_mod_cases hj]
  generalize p % v.length = o at ho
  unfold blit
  by_cases hwrap : v.length < o + data.length
  · -- the block wraps: its first `v.length - o` bytes end the vector, the rest start it
    have htake : (data.take (v.length - o)).length = v.length - o := by
      rw [List.length_take]; omega
    have h₁ : (overwrite v o (data.take (v.length - o))).length = v.length :=
      length_overwrite (by omega)
    have hdrop : (data.drop (v.length - o)).length = data.length - (v.length - o) := by
      rw [List.length_drop]
    rw [if_pos hwrap, getElem?_overwrite (by omega), hdrop,
      getElem?_overwrite (v := v) (by omega), htake]
    by_cases hjo : o + j < v.length
    · rw [if_pos hjo, if_neg (by omega), if_neg (by omega), if_neg (by omega), if_pos (by omega),
        if_pos (by omega), List.getElem?_take_of_lt (by omega), Nat.add_sub_cancel_left]
    · rw [if_neg hjo, if_neg (by omega)]
      by_cases hjd : j < data.length
      · rw [if_pos (by omega), if_pos hjd, List.getElem?_drop]
        congr 1
        omega
      · rw [if_neg (by omega), if_pos (by omega), if_neg hjd]
  · rw [if_neg hwrap, getElem?_overwrite (by omega)]
    by_cases hjo : o + j < v.length
    · rw [if_pos hjo, if_neg (by omega)]
      by_cases hjd : j < data.length
      · rw [if_pos (by omega), if_pos hjd, Nat.add_sub_cancel_left]
      · rw [if_neg (by omega), if_neg hjd]
    · rw [if_neg hjo, if_pos (by omega), if_neg (by omega)]

/-- The same block written to two vectors: where they agreed, they still do. -/
theorem cell_blit_congr {v w data : List α} (hvw : v.length = w.length)
    (hd : data.length ≤ v.length) (p : Nat) {q : Nat} (hq : cell v q = cell w q) :
    cell (blit v (p % v.length) data) q = cell (blit w (p % w.length) data) q := by
  by_cases hpos : 0 < v.length
  · -- `q` is `j` cells behind `p`, some turns later
    have hp := Nat.mod_lt p hpos
    obtain ⟨j, hj, hjq⟩ : ∃ j < v.length, (p + j) % v.length = q % v.length := by
      refine ⟨(q + (v.length - p % v.length)) % v.length, Nat.mod_lt _ hpos, ?_⟩
      rw [Nat.add_mod_mod, ← Nat.mod_add_mod,
        show p % v.length + (q + (v.length - p % v.length)) = q + v.length by omega,
        Nat.add_mod_right]
    have hlen := length_blit (v := v) (o := p % v.length) (by omega) hd
    have hlen' := length_blit (v := w) (Nat.le_of_lt (Nat.mod_lt p (hvw ▸ hpos))) (hvw ▸ hd)
    have hcell : ∀ {u : List α}, u.length = v.length → cell u q = cell u (p + j) := by
      intro u hu
      unfold cell
      rw [hu, hjq]
    rw [hcell hlen, hcell (hlen'.trans hvw.symm), cell_blit hd p hj,
      cell_blit (hvw ▸ hd) p (hvw ▸ hj), ← hcell rfl, ← hcell hvw.symm, hq]
  · have hv : v = [] := List.length_eq_zero_iff.mp (by omega)
    have hw : w = [] := List.length_eq_zero_iff.mp (by omega)
    rw [hv, hw]

/-- A block write leaves the positions of the same turn that precede it alone. -/
theorem cell_blit_before {v data : List α} {p q : Nat} (hq : q < p)
    (h : p + data.length ≤ q + v.length) :
    cell (blit v (p % v.length) data) q = cell v q := by
  have hd : data.length ≤ v.length := by omega
  have hpos : 0 < v.length := by omega
  have hlen : (blit v (p % v.length) data).length = v.length :=
    length_blit (Nat.le_of_lt (Nat.mod_lt _ hpos)) hd
  -- one turn later the position is past the block
  obtain ⟨j, hj⟩ := Nat.exists_eq_add_of_le (show p ≤ q + v.length by omega)
  have hcell : cell (blit v (p % v.length) data) (p + j) =
      if j < data.length then data[j]? else cell v (p + j) := cell_blit hd p (by omega)
  rw [if_neg (by omega), ← hj, cell_add_length] at hcell
  rw [← hcell, ← cell_add_length (blit v (p % v.length) data) q, hlen]

/-- A block write inside a window of one turn: its own positions change, the
others of the window do not. -/
theorem cell_blit_window {v data : List α} {h p q : Nat} (hp : h ≤ p)
    (hfit : p + data.length ≤ h + v.length) (hq : h ≤ q) (hlt : q < h + v.length) :
    cell (blit v (p % v.length) data) q =
      if p ≤ q ∧ q < p + data.length then data[q - p]? else cell v q := by
  by_cases hpq : p ≤ q
  · obtain ⟨j, rfl⟩ := Nat.exists_eq_add_of_le hpq
    rw [cell_blit (by omega) p (by omega), Nat.add_sub_cancel_left]
    by_cases hj : j < data.length
    · rw [if_pos hj, if_pos ⟨hpq, by omega⟩]
    · rw [if_neg hj, if_neg (fun h => hj (by omega))]
  · rw [if_neg (fun h => hpq h.1), cell_blit_before (by omega) (by omega)]

end NetBricks.Lib
