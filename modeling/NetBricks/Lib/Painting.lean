import Mathlib.Data.List.Basic

/-!
# Layers painted over one another

A function is painted over, layer by layer: a layer covers some of the points and
gives all of them one value, so that the last layer which covers a point decides.
When the layers come in ranks and within a rank all that cover a point agree, the
order inside a rank does not matter: the highest rank with a layer on the point
decides (`paintAll_ranks`).
-/

namespace NetBricks.Lib

variable {X β : Type}

/-- A region and the value it gets. -/
structure Layer (X β : Type) where
  covers : X → Bool
  value : β

/-- One layer over a function. -/
def Layer.paint (f : X → β) (l : Layer X β) : X → β :=
  fun x => if l.covers x then l.value else f x

/-- Layers over a function, the first one lowest. -/
def paintAll (f : X → β) (ls : List (Layer X β)) : X → β := ls.foldl Layer.paint f

theorem paintAll_append (f : X → β) (ls ms : List (Layer X β)) :
    paintAll f (ls ++ ms) = paintAll (paintAll f ls) ms := List.foldl_append

theorem paintAll_of_not_covers {ls : List (Layer X β)} {x : X}
    (h : ∀ l ∈ ls, l.covers x = false) (f : X → β) : paintAll f ls x = f x := by
  induction ls generalizing f with
  | nil => rfl
  | cons l ls ih =>
    have hl : l.paint f x = f x := by
      simp [Layer.paint, h l List.mem_cons_self]
    rw [← hl]
    exact ih (fun m hm => h m (List.mem_cons_of_mem l hm)) (l.paint f)

/-- Layers that all give a point the same value, one of which covers it. -/
theorem paintAll_of_covers {ls : List (Layer X β)} {x : X} {v : β}
    (hv : ∀ l ∈ ls, l.covers x = true → l.value = v) (hex : ∃ l ∈ ls, l.covers x = true)
    (f : X → β) : paintAll f ls x = v := by
  induction ls generalizing f with
  | nil =>
    obtain ⟨l, hl, -⟩ := hex
    cases hl
  | cons l ls ih =>
    by_cases hrest : ∃ m ∈ ls, m.covers x = true
    · exact ih (fun m hm => hv m (List.mem_cons_of_mem l hm)) hrest (l.paint f)
    · -- the first layer is the only one on the point
      have hnone : ∀ m ∈ ls, m.covers x = false := by simpa using hrest
      obtain ⟨m, hm, hcov⟩ := hex
      have hl : l.covers x = true := by
        rcases List.mem_cons.mp hm with rfl | hm
        · exact hcov
        · exact absurd ⟨m, hm, hcov⟩ hrest
      refine (paintAll_of_not_covers hnone (l.paint f)).trans ?_
      simp [Layer.paint, hl, hv l List.mem_cons_self hl]

/-- Ranks of layers: `top r` is what rank `r` has on the point, if anything. The
highest rank that has something decides. -/
theorem paintAll_ranks {layers : Nat → List (Layer X β)} {x : X} {top : Nat → Option β} {n : Nat}
    (hval : ∀ r < n, ∀ l ∈ layers r, l.covers x = true → top r = some l.value)
    (hex : ∀ r < n, ∀ v, top r = some v → ∃ l ∈ layers r, l.covers x = true) (f : X → β) :
    paintAll f ((List.range n).flatMap layers) x =
      ((List.range n).reverse.findSome? top).getD (f x) := by
  induction n with
  | zero => rfl
  | succ n ih =>
    have ih := ih (fun r hr => hval r (by omega)) (fun r hr => hex r (by omega))
    rw [List.range_succ, List.flatMap_append, paintAll_append, List.flatMap_singleton,
      List.reverse_append, List.reverse_singleton, List.singleton_append, List.findSome?_cons]
    cases htop : top n with
    | none =>
      rw [← ih]
      refine paintAll_of_not_covers (fun l hl => ?_) _
      by_contra hcov
      rw [hval n (by omega) l hl (by simpa using hcov)] at htop
      cases htop
    | some v =>
      refine paintAll_of_covers (fun l hl hcov => ?_) (hex n (by omega) v htop) _
      rw [hval n (by omega) l hl hcov] at htop
      exact Option.some.inj htop

/-- The rank that decides: the highest that has something. -/
theorem findSome?_range_reverse {top : Nat → Option β} {n : Nat} {v : β}
    (h : (List.range n).reverse.findSome? top = some v) :
    ∃ r < n, top r = some v ∧ ∀ q < n, r < q → top q = none := by
  induction n with
  | zero => cases h
  | succ n ih =>
    rw [List.range_succ, List.reverse_append, List.reverse_singleton, List.singleton_append,
      List.findSome?_cons] at h
    cases htop : top n with
    | some w =>
      rw [htop] at h
      exact ⟨n, Nat.lt_succ_self n, htop.trans h, fun q hq hlt => absurd hlt (by omega)⟩
    | none =>
      rw [htop] at h
      obtain ⟨r, hr, hv, hrest⟩ := ih h
      refine ⟨r, by omega, hv, fun q hq hlt => ?_⟩
      rcases Nat.lt_succ_iff_lt_or_eq.mp hq with hq | rfl
      · exact hrest q hq hlt
      · exact htop

end NetBricks.Lib
