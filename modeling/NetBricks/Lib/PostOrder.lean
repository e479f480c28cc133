import Mathlib.Logic.Relation
import Mathlib.Data.List.Basic

/-!
# Unfolding a graph of dependencies

`postOrder deps n a` visits what `a` depends on, each with all it depends on in
turn, in the order listed, and then `a` itself; `n` bounds the depth. Nothing is
visited only once: a node that two others depend on is visited for each of them.

Where every dependency has a smaller rank than what depends on it, a depth above
the rank of `a` is enough (`postOrder_eq`), and the order has the three properties
a client wants: it visits exactly what is reachable (`mem_postOrder`), `a` once and
last (`postOrder_last`), and right before every visit all dependencies of the node
visited (`postOrder_preceded`).
-/

namespace NetBricks.Lib

variable {α β : Type} {deps : α → List α}

/-- Everything `a` depends on, leaves first, then `a`. -/
def postOrder (deps : α → List α) : Nat → α → List α
  | 0, _ => []
  | n + 1, a => (deps a).flatMap (postOrder deps n) ++ [a]

/-- An element of a `flatMap` lies in one of the parts, behind all earlier ones. -/
theorem flatMap_eq_append_cons {f : α → List β} {b : β} {before after : List β} :
    ∀ {l : List α}, l.flatMap f = before ++ b :: after →
      ∃ left a right head tail, l = left ++ a :: right ∧ f a = head ++ b :: tail ∧
        before = left.flatMap f ++ head := by
  intro l
  induction l generalizing before with
  | nil =>
    intro h
    simp at h
  | cons a l ih =>
    intro h
    rw [List.flatMap_cons, List.append_eq_append_iff] at h
    rcases h with ⟨rest, hbefore, hl⟩ | ⟨rest, hf, hrest⟩
    · -- behind the first part
      obtain ⟨left, a', right, head, tail, rfl, hf, rfl⟩ := ih hl
      exact ⟨a :: left, a', right, head, tail, rfl, hf, by simp [hbefore]⟩
    · cases rest with
      | nil =>
        -- at the start of what follows the first part
        have hl : l.flatMap f = [] ++ b :: after := hrest.symm
        obtain ⟨left, a', right, head, tail, rfl, hf', hnil⟩ := ih hl
        rw [List.append_nil] at hf
        refine ⟨a :: left, a', right, head, tail, rfl, hf', ?_⟩
        rw [List.flatMap_cons, List.append_assoc, ← hnil, List.append_nil, hf]
      | cons c rest =>
        injection hrest with hc hrest
        subst hc
        exact ⟨[], a, l, before, rest, rfl, hf, rfl⟩

/-- A visit is the last one, that of the node itself, or one of those of its
dependencies. -/
theorem postOrder_visit {n : Nat} {a b : α} {before after : List α}
    (h : postOrder deps (n + 1) a = before ++ b :: after) :
    (b = a ∧ before = (deps a).flatMap (postOrder deps n)) ∨
      ∃ after', (deps a).flatMap (postOrder deps n) = before ++ b :: after' := by
  rw [postOrder] at h
  rcases List.eq_nil_or_concat after with rfl | ⟨after', c, rfl⟩
  · obtain ⟨hbefore, ha⟩ := List.append_inj' h rfl
    injection ha with ha
    exact .inl ⟨ha.symm, hbefore.symm⟩
  · rw [List.concat_eq_append, ← List.cons_append, ← List.append_assoc] at h
    obtain ⟨hparts, -⟩ := List.append_inj' h rfl
    exact .inr ⟨after', hparts⟩

section Ranked

variable {rank : α → Nat} (hrank : ∀ a, ∀ d ∈ deps a, rank d < rank a)

include hrank

/-- Any depth above the rank is enough. -/
theorem postOrder_eq : ∀ {n m : Nat} {a : α}, rank a < n → rank a < m →
    postOrder deps n a = postOrder deps m a := by
  intro n
  induction n with
  | zero =>
    intro m a hn
    omega
  | succ n ih =>
    intro m a hn hm
    cases m with
    | zero => omega
    | succ m =>
      unfold postOrder
      congr 1
      apply List.flatMap_congr
      intro d hd
      have := hrank a d hd
      exact ih (by omega) (by omega)

theorem rank_le_of_mem : ∀ {n : Nat} {a b : α}, b ∈ postOrder deps n a → rank b ≤ rank a := by
  intro n
  induction n with
  | zero =>
    intro a b h
    exact absurd h List.not_mem_nil
  | succ n ih =>
    intro a b h
    rw [postOrder, List.mem_append, List.mem_flatMap, List.mem_singleton] at h
    rcases h with ⟨d, hd, h⟩ | rfl
    · have := hrank a d hd
      have := ih h
      omega
    · exact Nat.le_refl _

/-- Exactly the nodes that are reachable are visited. -/
theorem mem_postOrder {n : Nat} {a b : α} (hn : rank a < n) :
    b ∈ postOrder deps n a ↔ Relation.ReflTransGen (fun x y => y ∈ deps x) a b := by
  induction n generalizing a with
  | zero => omega
  | succ n ih =>
    rw [postOrder, List.mem_append, List.mem_flatMap, List.mem_singleton]
    constructor
    · rintro (⟨d, hd, h⟩ | rfl)
      · have := hrank a d hd
        exact .head hd ((ih (by omega)).mp h)
      · exact .refl
    · intro h
      rcases Relation.ReflTransGen.cases_head h with rfl | ⟨d, hd, h⟩
      · exact .inr rfl
      · have := hrank a d hd
        exact .inl ⟨d, hd, (ih (by omega)).mpr h⟩

/-- The node itself is visited once, at the end. -/
theorem postOrder_last {n : Nat} {a : α} (hn : rank a < n) :
    ∃ before, postOrder deps n a = before ++ [a] ∧ a ∉ before := by
  cases n with
  | zero => omega
  | succ n =>
    refine ⟨_, rfl, ?_⟩
    intro h
    obtain ⟨d, hd, h⟩ := List.mem_flatMap.mp h
    have := hrank a d hd
    have := rank_le_of_mem hrank h
    omega

/-- Right before every visit the dependencies of the node are visited, each in
full and in the order listed. -/
theorem postOrder_preceded {n : Nat} {a b : α} {before after : List α} (hn : rank a < n)
    (h : postOrder deps n a = before ++ b :: after) :
    ∃ earlier, before = earlier ++ (deps b).flatMap (postOrder deps n) := by
  induction n generalizing a before after with
  | zero => omega
  | succ n ih =>
    -- a smaller depth is enough for the dependencies of anything visited
    have hsame : ∀ {c}, rank c ≤ rank a → (deps c).flatMap (postOrder deps n) =
        (deps c).flatMap (postOrder deps (n + 1)) := by
      intro c hc
      apply List.flatMap_congr
      intro d hd
      have := hrank c d hd
      exact postOrder_eq hrank (by omega) (by omega)
    have hb : rank b ≤ rank a := by
      apply rank_le_of_mem hrank (n := n + 1)
      rw [h]
      simp
    rcases postOrder_visit h with ⟨rfl, hbefore⟩ | ⟨after', hparts⟩
    · refine ⟨[], ?_⟩
      rw [hbefore, hsame (Nat.le_refl _)]
      rfl
    · obtain ⟨left, d, right, head, tail, hdeps, hd, rfl⟩ := flatMap_eq_append_cons hparts
      have hmem : d ∈ deps a := by
        rw [hdeps]
        simp
      have := hrank a d hmem
      obtain ⟨earlier, rfl⟩ := ih (by omega) hd
      refine ⟨left.flatMap (postOrder deps n) ++ earlier, ?_⟩
      rw [hsame hb, List.append_assoc]

end Ranked

end NetBricks.Lib
