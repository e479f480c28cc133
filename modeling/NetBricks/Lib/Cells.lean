import NetBricks.Lib.Outcome

/-!
# Vectors of a fixed length, and loops over lists

A vector that is allocated once and from then on only read and written at
indices is its length and the value at each index. A table of millions of
entries is then no larger a term than a table of three, and a read after a write
is one `if`: `get_of_lt` reads, `set_eq` writes one cell and `fillWith_eq` is the
loop that writes a range of them, panic included.

A loop over a list whose body may panic is `List.foldlM`. `foldlM_invariant` is
the rule for what such a loop keeps (`foldlM_keeps` where nothing is folded
along), and `foldlM_simulates` the one for a loop that follows a fold which cannot
fail, as long as the fold stays inside its bounds.
-/

namespace NetBricks.Lib

open Outcome

/-- A vector of `size` elements. -/
structure Cells (α : Type) where
  size : Nat
  cell : Nat → α

namespace Cells

variable {α : Type}

/-- `vec![a; size]`. -/
def replicate (size : Nat) (a : α) : Cells α := ⟨size, fun _ => a⟩

/-- `v[i]`. -/
def get (v : Cells α) (i : Nat) : Outcome α :=
  if i < v.size then .ok (v.cell i) else .panic .index

/-- The vector with the cells from `lo` on, `n` of them, replaced. -/
def overwrite (v : Cells α) (lo n : Nat) (f : Nat → α) : Cells α :=
  ⟨v.size, fun i => if lo ≤ i ∧ i < lo + n then f i else v.cell i⟩

/-- `v[i] = a`. -/
def set (v : Cells α) (i : Nat) (a : α) : Outcome (Cells α) :=
  if i < v.size then .ok (v.overwrite i 1 fun _ => a) else .panic .index

/-- `for j in lo..(lo + n) { v[j] = f(j); }`. -/
def fillWith (f : Nat → α) : Nat → Nat → Cells α → Outcome (Cells α)
  | 0, _, v => .ok v
  | n + 1, lo, v => do
    let v ← v.set lo (f lo)
    fillWith f n (lo + 1) v

@[simp] theorem replicate_size (size : Nat) (a : α) : (replicate size a).size = size := rfl

@[simp] theorem replicate_cell (size i : Nat) (a : α) : (replicate size a).cell i = a := rfl

@[simp] theorem overwrite_size (v : Cells α) (lo n : Nat) (f : Nat → α) :
    (v.overwrite lo n f).size = v.size := rfl

@[simp] theorem overwrite_cell (v : Cells α) (lo n i : Nat) (f : Nat → α) :
    (v.overwrite lo n f).cell i = if lo ≤ i ∧ i < lo + n then f i else v.cell i := rfl

theorem get_of_lt {v : Cells α} {i : Nat} (h : i < v.size) : v.get i = .ok (v.cell i) := if_pos h

theorem set_of_lt {v : Cells α} {i : Nat} {a : α} (h : i < v.size) :
    v.set i a = .ok (v.overwrite i 1 fun _ => a) := if_pos h

@[simp] theorem overwrite_zero (v : Cells α) (lo : Nat) (f : Nat → α) :
    v.overwrite lo 0 f = v := by
  unfold overwrite
  congr 1
  funext i
  rw [if_neg (by omega)]

/-- The later of two writes to one range counts. -/
theorem overwrite_overwrite (v : Cells α) (lo n : Nat) (f g : Nat → α) :
    (v.overwrite lo n f).overwrite lo n g = v.overwrite lo n g := by
  unfold overwrite
  congr 1
  funext i
  dsimp only
  split
  · rfl
  · rfl

/-- One cell and then the range after it. -/
theorem overwrite_succ (v : Cells α) (lo n : Nat) (f : Nat → α) :
    (v.overwrite lo 1 fun _ => f lo).overwrite (lo + 1) n f = v.overwrite lo (n + 1) f := by
  unfold overwrite
  congr 1
  funext i
  dsimp only
  by_cases hrest : lo + 1 ≤ i ∧ i < lo + 1 + n
  · rw [if_pos hrest, if_pos (by omega)]
  · rw [if_neg hrest]
    by_cases hlo : i = lo
    · subst hlo
      rw [if_pos (by omega), if_pos (by omega)]
    · rw [if_neg (by omega), if_neg (by omega)]

/-- The loop overwrites the range, or panics at the first index outside. -/
theorem fillWith_eq (f : Nat → α) (n lo : Nat) (v : Cells α) :
    fillWith f n lo v =
      if n = 0 ∨ lo + n ≤ v.size then .ok (v.overwrite lo n f) else .panic .index := by
  induction n generalizing lo v with
  | zero => simp [fillWith]
  | succ n ih =>
    rw [fillWith]
    by_cases hlo : lo < v.size
    · rw [set_of_lt hlo, bind_ok, ih, overwrite_size, overwrite_succ]
      by_cases hn : n = 0 ∨ lo + 1 + n ≤ v.size
      · rw [if_pos hn, if_pos (by omega)]
      · rw [if_neg hn, if_neg (by omega)]
    · rw [set, if_neg hlo, bind_panic, if_neg (by omega)]

end Cells

/-! ## Loops over lists -/

section Loops

variable {σ ι α : Type}

/-- What every round of a loop keeps, relative to a value folded along, the loop
keeps. -/
theorem foldlM_invariant {f : σ → ι → Outcome σ} (spec : α → ι → α) {R : σ → α → Prop}
    {l : List ι} (hstep : ∀ i ∈ l, ∀ s a s', R s a → f s i = .ok s' → R s' (spec a i))
    {s s' : σ} {a : α} (hR : R s a) (h : l.foldlM f s = .ok s') : R s' (l.foldl spec a) := by
  induction l generalizing s a with
  | nil =>
    cases h
    exact hR
  | cons i l ih =>
    rw [List.foldlM_cons, bind_eq_ok] at h
    obtain ⟨s₁, h₁, h⟩ := h
    rw [List.foldl_cons]
    exact ih (fun j hj => hstep j (List.mem_cons_of_mem i hj))
      (hstep i List.mem_cons_self s a s₁ hR h₁) h

theorem foldlM_keeps {step : σ → ι → Outcome σ} {I : σ → Prop} {is : List ι}
    (hstep : ∀ i ∈ is, ∀ s s', I s → step s i = .ok s' → I s') {s s' : σ} (hs : I s)
    (h : is.foldlM step s = .ok s') : I s' :=
  foldlM_invariant (fun u _ => u) (R := fun s (_ : Unit) => I s)
    (fun i hi s _ s' hs h => hstep i hi s s' hs h) (a := ()) hs h

/-- A bound that a fold keeps to the end was kept all along. -/
theorem good_of_foldl {spec : α → ι → α} {good : α → Prop}
    (hback : ∀ a i, good (spec a i) → good a) (is : List ι) {a : α}
    (h : good (is.foldl spec a)) : good a := by
  induction is generalizing a with
  | nil => exact h
  | cons i is ih => exact hback a i (ih h)

/-- A loop whose body succeeds, and follows a fold, as long as the fold is within
its bounds. -/
theorem foldlM_simulates {f : σ → ι → Outcome σ} (spec : α → ι → α) (good : α → Prop)
    {R : σ → α → Prop} {l : List ι} (hback : ∀ a i, good (spec a i) → good a)
    (hstep : ∀ i ∈ l, ∀ s a, R s a → good (spec a i) → ∃ s', f s i = .ok s' ∧ R s' (spec a i))
    {s : σ} {a : α} (hR : R s a) (hgood : good (l.foldl spec a)) :
    ∃ s', l.foldlM f s = .ok s' ∧ R s' (l.foldl spec a) := by
  induction l generalizing s a with
  | nil => exact ⟨s, rfl, hR⟩
  | cons i l ih =>
    rw [List.foldl_cons] at hgood
    obtain ⟨s₁, h₁, hR₁⟩ := hstep i List.mem_cons_self s a hR (good_of_foldl hback l hgood)
    obtain ⟨s₂, h₂, hR₂⟩ := ih (fun j hj => hstep j (List.mem_cons_of_mem i hj)) hR₁ hgood
    refine ⟨s₂, ?_, hR₂⟩
    rw [List.foldlM_cons, h₁, bind_ok]
    exact h₂

/-- Loops whose bodies agree where an invariant of the second holds. -/
theorem foldlM_congr {f g : σ → ι → Outcome σ} {I : σ → Prop} {is : List ι}
    (hI : ∀ i ∈ is, ∀ s s', I s → g s i = .ok s' → I s') (h : ∀ i ∈ is, ∀ s, I s → f s i = g s i)
    {s : σ} (hs : I s) : is.foldlM f s = is.foldlM g s := by
  induction is generalizing s with
  | nil => rfl
  | cons i is ih =>
    rw [List.foldlM_cons, List.foldlM_cons, h i List.mem_cons_self s hs]
    cases hg : g s i with
    | ok s₁ =>
      exact ih (fun j hj => hI j (List.mem_cons_of_mem i hj))
        (fun j hj => h j (List.mem_cons_of_mem i hj)) (hI i List.mem_cons_self s s₁ hs hg)
    | panic w => rfl
    | timeout => rfl

theorem foldlM_flatMap {κ : Type} {step : σ → ι → Outcome σ} (f : κ → List ι) (ks : List κ)
    (s : σ) : (ks.flatMap f).foldlM step s = ks.foldlM (fun s k => (f k).foldlM step s) s := by
  induction ks generalizing s with
  | nil => rfl
  | cons k ks ih =>
    rw [List.flatMap_cons, List.foldlM_append, List.foldlM_cons]
    congr 1
    funext s₁
    exact ih s₁

/-- A loop that collects what its body returns, where the body always returns. -/
theorem mapM_of_forall {κ : Type} {f : ι → Outcome κ} {g : ι → κ} {is : List ι}
    (h : ∀ i ∈ is, f i = .ok (g i)) : is.mapM f = .ok (is.map g) := by
  induction is with
  | nil => rfl
  | cons i is ih =>
    rw [List.mapM_cons, h i List.mem_cons_self, bind_ok,
      ih fun j hj => h j (List.mem_cons_of_mem i hj), bind_ok]
    rfl

end Loops

end NetBricks.Lib
