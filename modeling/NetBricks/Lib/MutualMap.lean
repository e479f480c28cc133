import Mathlib.Logic.Function.Basic

/-!
# Tables of translations that are each other's inverse

A table translates keys, and every key has a reverse. The table is mutual when the
reverse of a translation is translated back to the reverse of the key. Then no two
keys have the same translation (`Mutual.injective`).

`link` adds a key, its translation and the way back. It keeps a mutual table mutual
when neither of the two keys it writes is there (`Mutual.link_of_new`); when the way back
overwrites another key's translation, what was translated to the same place before
is lost (`Mutual.link_clash`).

`Inverse` is the same for two tables, one from keys to names and one from names to keys.
-/

namespace NetBricks.Lib

variable {K : Type} [DecidableEq K] {rev : K → K} {T : K → Option K} {f out k k' v w : K}

/-- What is translated to `v` from `k` is translated from the reverse of `v` to the
reverse of `k`. -/
def Mutual (rev : K → K) (T : K → Option K) : Prop :=
  ∀ k v, T k = some v → T (rev v) = some (rev k)

/-- The table with `f` translated to `out`, and then with the way back. -/
def link (rev : K → K) (T : K → Option K) (f out : K) : K → Option K := fun k =>
  if rev out = k then some (rev f) else if f = k then some out else T k

omit [DecidableEq K] in
/-- Different keys have different translations. -/
theorem Mutual.injective (hrev : Function.Involutive rev) (h : Mutual rev T) (hk : T k = some v)
    (hk' : T k' = some v) : k = k' := by
  have hback := h k v hk
  rw [h k' v hk'] at hback
  exact (hrev.injective (Option.some.inj hback)).symm

/-- New keys on both sides keep the table mutual. -/
theorem Mutual.link_of_new (hrev : Function.Involutive rev) (h : Mutual rev T) (hf : T f = none)
    (hout : T (rev out) = none) : Mutual rev (link rev T f out) := by
  intro k v hk
  unfold link at hk ⊢
  by_cases hback : rev out = k
  · -- the way back, whose own way back is `f`
    rw [if_pos hback] at hk
    obtain rfl := Option.some.inj hk
    rw [hrev f, ← hback, hrev out]
    by_cases hself : rev out = f
    · rw [if_pos hself, ← hself, hrev out]
    · rw [if_neg hself, if_pos rfl]
  · rw [if_neg hback] at hk
    by_cases hkey : f = k
    · rw [if_pos hkey] at hk
      obtain rfl := Option.some.inj hk
      rw [if_pos rfl, hkey]
    · -- a translation from before, and its way back was there before
      rw [if_neg hkey] at hk
      have hold := h k v hk
      have hne : rev out ≠ rev v := fun heq => by
        rw [← heq, hout] at hold
        cases hold
      have hne' : f ≠ rev v := fun heq => by
        rw [← heq, hf] at hold
        cases hold
      rw [if_neg hne, if_neg hne', hold]

/-- The way back overwrites a translation, to `w`: then `rev w`, which was translated
to `out` as well, has lost its way back. -/
theorem Mutual.link_clash (hrev : Function.Involutive rev) (h : Mutual rev T) (hf : T f = none)
    (hout : T (rev out) = some w) (hw : rev w ≠ rev out) :
    link rev T f out (rev w) = some out ∧ link rev T f out (rev out) = some (rev f) ∧
      rev f ≠ rev (rev w) := by
  have hlost : T (rev w) = some out := by
    have hback := h (rev out) w hout
    rwa [hrev out] at hback
  have hne : f ≠ rev w := fun heq => by
    rw [heq, hlost] at hf
    cases hf
  refine ⟨?_, if_pos rfl, fun heq => hne (hrev.injective heq)⟩
  unfold link
  rw [if_neg (Ne.symm hw), if_neg hne, hlost]

/-! ## Two tables -/

section Inverse

variable {α β : Type} {names : α → Option β} {keys : β → Option α} {a : α} {b : β}

/-- One table undoes the other. -/
def Inverse (names : α → Option β) (keys : β → Option α) : Prop :=
  ∀ a b, names a = some b ↔ keys b = some a

variable [DecidableEq α] [DecidableEq β]

theorem Inverse.insert (h : Inverse names keys) (ha : names a = none) (hb : keys b = none) :
    Inverse (Function.update names a (some b)) (Function.update keys b (some a)) := by
  intro a' b'
  have hold := h a' b'
  by_cases haa : a' = a
  · subst haa
    by_cases hbb : b' = b
    · simp [hbb]
    · simp [hbb, Ne.symm hbb, ← hold, ha]
  · by_cases hbb : b' = b
    · subst hbb
      simp [haa, Ne.symm haa, hold, hb]
    · simp [haa, hbb, hold]

theorem Inverse.erase (h : Inverse names keys) (ha : names a = some b) :
    Inverse (Function.update names a none) (Function.update keys b none) := by
  intro a' b'
  have hold := h a' b'
  have hb := (h a b).mp ha
  by_cases haa : a' = a
  · subst haa
    by_cases hbb : b' = b
    · simp [hbb]
    · simp [hbb, ← hold, ha, Ne.symm hbb]
  · by_cases hbb : b' = b
    · subst hbb
      simp [haa, hold, hb, Ne.symm haa]
    · simp [haa, hbb, hold]

end Inverse

end NetBricks.Lib
