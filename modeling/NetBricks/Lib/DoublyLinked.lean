import Mathlib.Data.List.Nodup
import Mathlib.Logic.Function.Basic

/-!
# Doubly linked lists in a pool of nodes

The nodes of a pool have a link back and a link ahead (`LinkMap`). `Linked m p nodes q` says
that these nodes, one after the other, are linked both ways: the link back of the first one
is `p` and the link ahead of the last one is `q`. Two such stretches that meet make one
(`linked_append`), and a change at a node outside of a stretch does not matter to it
(`Linked.update`).

From these the usual operations are put together, each given by the writes to the links it
makes: a new node at the end, at the front or between two others, and the node behind
another one taken out. A new node between two others without the link back to it is on no
list (`Linked.not_linked_of_skipped`).
-/

namespace NetBricks.Lib

variable {α : Type}

/-- The links of the nodes there are: the node before and the node behind. -/
abbrev LinkMap (α : Type) := α → Option (α × α)

/-- The nodes are linked both ways, from a first one with `p` before it to a last one with
`q` behind it. -/
def Linked (m : LinkMap α) : α → List α → α → Prop
  | _, [], _ => True
  | p, i :: rest, q => m i = some (p, rest.head?.getD q) ∧ Linked m i rest q

section Stretches

variable {m m' : LinkMap α} {p q : α} {xs ys : List α}

theorem linked_append :
    Linked m p (xs ++ ys) q ↔
      Linked m p xs (ys.head?.getD q) ∧ Linked m (xs.getLast?.getD p) ys q := by
  induction xs generalizing p with
  | nil => exact ⟨fun h => ⟨trivial, h⟩, fun h => h.2⟩
  | cons i xs ih =>
    have hnext : (xs ++ ys).head?.getD q = xs.head?.getD (ys.head?.getD q) := by
      cases xs <;> rfl
    have hlast : (i :: xs).getLast?.getD p = xs.getLast?.getD i := by
      rw [List.getLast?_cons]
      rfl
    rw [List.cons_append, Linked, Linked, ih, hnext, hlast, and_assoc]

theorem Linked.congr (h : Linked m p xs q) (hm : ∀ i ∈ xs, m' i = m i) : Linked m' p xs q := by
  induction xs generalizing p with
  | nil => trivial
  | cons i xs ih =>
    refine ⟨(hm i List.mem_cons_self).trans h.1, ih h.2 ?_⟩
    exact fun j hj => hm j (List.mem_cons_of_mem i hj)

/-- The links of a node of the stretch. -/
theorem Linked.links_eq {i : α} (h : Linked m p (xs ++ [i] ++ ys) q) :
    m i = some (xs.getLast?.getD p, ys.head?.getD q) :=
  (linked_append.mp (linked_append.mp h).1).2.1

/-- The node that a node of the stretch links to, unless it is the last one, links back. -/
theorem Linked.links_back (h : Linked m p xs q) {i a b : α} (hi : i ∈ xs)
    (hlinks : m i = some (a, b)) (hb : b ≠ q) : ∃ c, m b = some (i, c) := by
  induction xs generalizing p with
  | nil => cases hi
  | cons j xs ih =>
    rcases List.mem_cons.mp hi with rfl | hi
    · cases xs with
      | nil =>
        cases hlinks.symm.trans h.1
        exact absurd rfl hb
      | cons k xs =>
        cases hlinks.symm.trans h.1
        exact ⟨_, h.2.1⟩
    · exact ih h.2 hi

end Stretches

namespace LinkMap

variable [DecidableEq α]

/-- Write both links of a node. -/
def setLinks (m : LinkMap α) (i : α) (v : α × α) : LinkMap α := Function.update m i (some v)

/-- Write the link back of a node. -/
def setPrev (m : LinkMap α) (i p : α) : LinkMap α :=
  Function.update m i ((m i).map fun v => (p, v.2))

/-- Write the link ahead of a node. -/
def setNext (m : LinkMap α) (i q : α) : LinkMap α :=
  Function.update m i ((m i).map fun v => (v.1, q))

theorem setPrev_setLinks (m : LinkMap α) (i p : α) (v : α × α) :
    (m.setLinks i v).setPrev i p = m.setLinks i (p, v.2) := by
  rw [setPrev, setLinks, Function.update_self, Function.update_idem]
  rfl

theorem setNext_setLinks (m : LinkMap α) (i q : α) (v : α × α) :
    (m.setLinks i v).setNext i q = m.setLinks i (v.1, q) := by
  rw [setNext, setLinks, Function.update_self, Function.update_idem]
  rfl

end LinkMap

section Writes

open LinkMap

variable [DecidableEq α] {m : LinkMap α} {p q i j k : α} {pre rest : List α}

theorem Linked.update (h : Linked m p rest q) (hi : i ∉ rest) (v : Option (α × α)) :
    Linked (Function.update m i v) p rest q :=
  h.congr (fun j hj => Function.update_of_ne (fun he : j = i => hi (he ▸ hj)) v m)

theorem Linked.setPrev (h : Linked m p (i :: rest) q) (hi : i ∉ rest) (p' : α) :
    Linked (m.setPrev i p') p' (i :: rest) q := by
  refine ⟨?_, h.2.update hi _⟩
  rw [LinkMap.setPrev, Function.update_self, h.1]
  rfl

theorem Linked.setNext (h : Linked m p (pre ++ [i]) q) (hi : i ∉ pre) (q' : α) :
    Linked (m.setNext i q') p (pre ++ [i]) q' := by
  obtain ⟨hpre, hlast⟩ := linked_append.mp h
  refine linked_append.mpr ⟨hpre.update hi _, ?_, trivial⟩
  rw [LinkMap.setNext, Function.update_self, hlast.1]
  rfl

theorem Linked.push (h : Linked m p (pre ++ [i]) q) (hnodup : (pre ++ [i]).Nodup)
    (hk : k ∉ pre ++ [i]) :
    Linked ((m.setLinks k (i, q)).setNext i k) p (pre ++ [i] ++ [k]) q := by
  have hi : i ∉ pre := fun hmem => (List.nodup_append.mp hnodup).2.2 i hmem i (by simp) rfl
  have hki : k ≠ i := fun he => hk (by simp [he])
  refine linked_append.mpr ⟨(h.update hk _).setNext hi k, ?_, trivial⟩
  rw [LinkMap.setNext, Function.update_of_ne hki, LinkMap.setLinks, Function.update_self,
    List.getLast?_concat]
  rfl

theorem Linked.pushFront (h : Linked m p (i :: rest) q) (hi : i ∉ rest) (hk : k ∉ i :: rest) :
    Linked ((m.setLinks k (p, i)).setPrev i k) p (k :: i :: rest) q := by
  have hki : k ≠ i := fun he => hk (he ▸ List.mem_cons_self)
  refine ⟨?_, (h.update hk _).setPrev hi k⟩
  rw [LinkMap.setPrev, Function.update_of_ne hki, LinkMap.setLinks, Function.update_self]
  rfl

theorem Linked.insert (h : Linked m p (pre ++ [i] ++ j :: rest) q)
    (hnodup : (pre ++ [i] ++ j :: rest).Nodup) (hk : k ∉ pre ++ [i] ++ j :: rest) :
    Linked (((m.setLinks k (i, j)).setPrev j k).setNext i k) p
      (pre ++ [i] ++ k :: j :: rest) q := by
  obtain ⟨hfront, hback⟩ := linked_append.mp h
  obtain ⟨hnfront, hnback, hapart⟩ := List.nodup_append.mp hnodup
  have hi : i ∉ pre := fun hmem => (List.nodup_append.mp hnfront).2.2 i hmem i (by simp) rfl
  have hj : j ∉ rest := (List.nodup_cons.mp hnback).1
  have hjfront : j ∉ pre ++ [i] := fun hmem => hapart j hmem j List.mem_cons_self rfl
  have hiback : i ∉ j :: rest := fun hmem => hapart i (by simp) i hmem rfl
  have hkfront : k ∉ pre ++ [i] := fun hmem => hk (List.mem_append_left _ hmem)
  have hkback : k ∉ j :: rest := fun hmem => hk (List.mem_append_right _ hmem)
  have hik : i ∉ k :: j :: rest := by
    intro hmem
    rcases List.mem_cons.mp hmem with rfl | hmem
    · exact hkfront (by simp)
    · exact hiback hmem
  rw [List.getLast?_concat] at hback
  refine linked_append.mpr ⟨?_, ?_⟩
  · exact ((hfront.update hkfront _).update hjfront _).setNext hi k
  · rw [List.getLast?_concat]
    exact (hback.pushFront hj hkback).update hik _

/-- A new node behind `i` to which the node behind it, `j`, is not linked back: no stretch has
it. -/
theorem Linked.not_linked_of_skipped {m' : LinkMap α} {a p' : α} {xs ys : List α}
    (h : Linked m p xs q) (hi : i ∈ xs) (hlinks : m i = some (a, j)) (hj : j ≠ q) (hji : j ≠ i)
    (hk : k ∉ xs) (hjk : j ≠ k) (hm' : m' = (m.setLinks k (i, j)).setNext i k) (hkys : k ∈ ys) :
    ¬ Linked m' p' ys q := by
  have hki : k ≠ i := fun he => hk (he ▸ hi)
  have hlinks_k : m' k = some (i, j) := by
    rw [hm', LinkMap.setNext, Function.update_of_ne hki, LinkMap.setLinks, Function.update_self]
  have hlinks_j : m' j = m j := by
    rw [hm', LinkMap.setNext, Function.update_of_ne hji, LinkMap.setLinks,
      Function.update_of_ne hjk]
  intro h'
  -- `j` would be linked back to `k`, but it still is to `i`
  obtain ⟨c, hback⟩ := h.links_back hi hlinks hj
  obtain ⟨c', hback'⟩ := h'.links_back hkys hlinks_k hj
  rw [hlinks_j, hback] at hback'
  cases hback'
  exact hki rfl

theorem Linked.unlinkLast (h : Linked m p (pre ++ [i] ++ [j]) q) (hi : i ∉ pre) :
    Linked (m.setNext i q) p (pre ++ [i]) q :=
  (linked_append.mp h).1.setNext hi q

/-- A node between two others is taken out. -/
theorem Linked.unlink (h : Linked m p (pre ++ [i] ++ j :: k :: rest) q)
    (hnodup : (pre ++ [i] ++ j :: k :: rest).Nodup) :
    Linked ((m.setNext i k).setPrev k i) p (pre ++ [i] ++ k :: rest) q := by
  obtain ⟨hfront, hback⟩ := linked_append.mp h
  obtain ⟨hnfront, hnback, hapart⟩ := List.nodup_append.mp hnodup
  have hi : i ∉ pre := fun hmem => (List.nodup_append.mp hnfront).2.2 i hmem i (by simp) rfl
  have hk : k ∉ rest := (List.nodup_cons.mp (List.nodup_cons.mp hnback).2).1
  have hkfront : k ∉ pre ++ [i] := fun hmem => hapart k hmem k (by simp) rfl
  have hiback : i ∉ k :: rest :=
    fun hmem => hapart i (by simp) i (List.mem_cons_of_mem j hmem) rfl
  refine linked_append.mpr ⟨(hfront.setNext hi k).update hkfront _, ?_⟩
  rw [List.getLast?_concat]
  exact (hback.2.update hiback _).setPrev hk i

end Writes

end NetBricks.Lib
