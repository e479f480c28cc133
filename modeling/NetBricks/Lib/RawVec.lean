import NetBricks.Lib.Outcome

/-!
# Vectors whose length is set by hand

A vector with its whole allocation in view: `slots` is the allocated memory, of
which the first `len` elements count. Unsafe code moves elements inside the
allocation and then sets the length; `setLen` beyond the allocation, which would
be undefined behaviour, is a fault here.

Code that compacts a vector in place copies elements from further up to further
down. `Split v front gap rest` is the state of such a copy: the elements of
`front` are in place, the next `gap` slots are garbage, and `rest` is still to be
looked at. `Split.move` and `Split.skip` are its two steps, and `Split.setLen`
ends it.
-/

namespace NetBricks.Lib

open Outcome

/-- A vector of `len` elements in an allocation. -/
structure RawVec (α : Type) where
  slots : List α
  len : Nat
  fits : len ≤ slots.length

namespace RawVec

variable {α : Type}

/-- A vector without elements. -/
def empty (slots : List α) : RawVec α := ⟨slots, 0, Nat.zero_le _⟩

def toList (v : RawVec α) : List α := v.slots.take v.len

def capacity (v : RawVec α) : Nat := v.slots.length

/-- `v[i]`. -/
def get (v : RawVec α) (i : Nat) : Outcome α :=
  if i < v.len then index v.slots i else .panic .index

/-- `v[i] = a`. -/
def set (v : RawVec α) (i : Nat) (a : α) : Outcome (RawVec α) :=
  if i < v.len then
    .ok ⟨v.slots.set i a, v.len, by rw [List.length_set]; exact v.fits⟩
  else .panic .index

/-- `v.set_len(n)`. -/
def setLen (v : RawVec α) (n : Nat) : Outcome (RawVec α) :=
  if h : n ≤ v.slots.length then .ok ⟨v.slots, n, h⟩
  else .panic (.explicit "set_len beyond the capacity")

/-- Elements written over the first slots by a callee that was given the slice. -/
def write (v : RawVec α) (as : List α) : RawVec α :=
  ⟨as ++ v.slots.drop as.length, v.len, by
    have := v.fits
    rw [List.length_append, List.length_drop]
    omega⟩

/-- Copy `n` elements, one by one, from `src` on to `dst` on. -/
def copyDown : Nat → RawVec α → Nat → Nat → Outcome (RawVec α)
  | 0, v, _, _ => .ok v
  | n + 1, v, src, dst => do
    let a ← v.get src
    let v ← v.set dst a
    copyDown n v (src + 1) (dst + 1)

/-! ## Contents -/

theorem eq_of_slots {v v' : RawVec α} (hslots : v.slots = v'.slots) (hlen : v.len = v'.len) :
    v = v' := by
  cases v
  cases v'
  cases hslots
  cases hlen
  rfl

theorem length_toList (v : RawVec α) : v.toList.length = v.len := by
  have := v.fits
  unfold toList
  rw [List.length_take]
  omega

theorem toList_eq_nil {v : RawVec α} : v.toList = [] ↔ v.len = 0 := by
  rw [← List.length_eq_zero_iff, length_toList]

theorem slots_eq (v : RawVec α) : v.slots = v.toList ++ v.slots.drop v.len :=
  (List.take_append_drop _ _).symm

theorem getElem?_toList (v : RawVec α) {i : Nat} (h : i < v.len) : v.toList[i]? = v.slots[i]? := by
  unfold toList
  rw [List.getElem?_take_of_lt h]

/-- Writing at most as many elements as the length leaves the capacity alone. -/
theorem capacity_write (v : RawVec α) {as : List α} (h : as.length ≤ v.capacity) :
    (v.write as).capacity = v.capacity := by
  unfold capacity at h ⊢
  unfold write
  rw [List.length_append, List.length_drop]
  omega

theorem setLen_capacity (v : RawVec α) :
    ∃ v', v.setLen v.capacity = .ok v' ∧ v'.len = v.capacity ∧ v'.capacity = v.capacity :=
  ⟨⟨v.slots, v.capacity, Nat.le_refl _⟩, dif_pos (Nat.le_refl _), rfl, rfl⟩

/-- Written elements counted, from the first on. -/
theorem setLen_write (v : RawVec α) {as : List α} {k : Nat} (h : as.length ≤ v.capacity)
    (hk : k ≤ as.length) :
    ∃ v', (v.write as).setLen k = .ok v' ∧ v'.toList = as.take k ∧ v'.capacity = v.capacity := by
  have hcap := capacity_write v h
  have hle : k ≤ (v.write as).slots.length := by
    unfold capacity at hcap h
    omega
  refine ⟨⟨(v.write as).slots, k, hle⟩, dif_pos hle, ?_, hcap⟩
  show (as ++ _).take k = as.take k
  exact List.take_append_of_le_length hk

/-! ## Compaction in place -/

/-- `front` is in place, then come `gap` slots of garbage, then `rest`. -/
def Split (v : RawVec α) (front : List α) (gap : Nat) (rest : List α) : Prop :=
  ∃ mid, v.slots = front ++ (mid ++ rest) ∧ mid.length = gap

theorem split_start (v : RawVec α) : v.Split [] 0 v.slots := ⟨[], rfl, rfl⟩

theorem Split.get {v : RawVec α} {front rest : List α} {gap : Nat} {a : α}
    (h : v.Split front gap (a :: rest)) (hlt : front.length + gap < v.len) :
    v.get (front.length + gap) = .ok a := by
  obtain ⟨mid, hslots, rfl⟩ := h
  unfold RawVec.get
  rw [if_pos hlt]
  refine index_of_some ?_
  rw [hslots, ← List.append_assoc, ← List.length_append, List.getElem?_append_right (Nat.le_refl _),
    Nat.sub_self]
  rfl

/-- The next element stays: it moves to the end of the front. -/
theorem Split.move {v : RawVec α} {front rest : List α} {gap : Nat} {a : α}
    (h : v.Split front gap (a :: rest)) (hlt : front.length + gap < v.len) :
    ∃ v', v.set front.length a = .ok v' ∧ v'.len = v.len ∧ v'.capacity = v.capacity ∧
      v'.Split (front ++ [a]) gap rest := by
  obtain ⟨mid, hslots, rfl⟩ := h
  refine ⟨_, if_pos (by omega), rfl, List.length_set, ?_⟩
  unfold Split
  dsimp only
  rw [hslots, List.set_append_right _ _ (Nat.le_refl _), Nat.sub_self]
  -- the slot behind the front is the first of the garbage, or the element itself
  cases mid with
  | nil => exact ⟨[], by simp, rfl⟩
  | cons g mid => exact ⟨mid ++ [a], by simp, by simp⟩

theorem Split.skip {v : RawVec α} {front rest : List α} {gap : Nat} {a : α}
    (h : v.Split front gap (a :: rest)) : v.Split front (gap + 1) rest := by
  obtain ⟨mid, hslots, rfl⟩ := h
  exact ⟨mid ++ [a], by rw [hslots]; simp, by simp⟩

theorem Split.copyDown {moved : List α} : ∀ {v : RawVec α} {front rest : List α} {gap : Nat},
    v.Split front gap (moved ++ rest) → front.length + gap + moved.length ≤ v.len →
    ∃ v', copyDown moved.length v (front.length + gap) front.length = .ok v' ∧ v'.len = v.len ∧
      v'.capacity = v.capacity ∧ v'.Split (front ++ moved) gap rest := by
  induction moved with
  | nil =>
    intro v front rest gap h _
    exact ⟨v, rfl, rfl, rfl, by rwa [List.append_nil]⟩
  | cons a moved ih =>
    intro v front rest gap h hle
    rw [List.length_cons] at hle
    obtain ⟨v₁, hset, hlen, hcap, h₁⟩ := Split.move h (by omega)
    obtain ⟨v₂, hcopy, hlen₂, hcap₂, h₂⟩ := ih h₁ (by rw [hlen, List.length_append]; simp; omega)
    refine ⟨v₂, ?_, hlen₂.trans hlen, hcap₂.trans hcap, by rwa [List.append_assoc] at h₂⟩
    rw [List.length_append, List.length_singleton] at hcopy
    rw [List.length_cons, RawVec.copyDown, Split.get h (by omega), bind_ok, hset, bind_ok, ← hcopy]
    congr 1
    omega

/-- The end of a compaction: the front is the vector. -/
theorem Split.setLen {v : RawVec α} {front rest : List α} {gap : Nat}
    (h : v.Split front gap rest) :
    ∃ v', v.setLen front.length = .ok v' ∧ v'.toList = front ∧ v'.capacity = v.capacity := by
  obtain ⟨mid, hslots, -⟩ := h
  have hle : front.length ≤ v.slots.length := by
    rw [hslots, List.length_append]
    omega
  refine ⟨⟨v.slots, front.length, hle⟩, dif_pos hle, ?_, rfl⟩
  show v.slots.take front.length = front
  rw [hslots]
  exact List.take_left

theorem setLen_zero (v : RawVec α) :
    ∃ v', v.setLen 0 = .ok v' ∧ v'.toList = [] ∧ v'.capacity = v.capacity :=
  Split.setLen (split_start v)

end RawVec

end NetBricks.Lib
