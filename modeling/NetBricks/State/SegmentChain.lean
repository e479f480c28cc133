import Mathlib.Data.List.Perm.Subperm
import NetBricks.State.SegmentBlock

/-!
# Well-linked segment lists

The nodes of the list, from `head` on by their links to the next one. `Chain` names them:
they are all different, in use, and the last one has no next. `Trail` names their ranges
as well. Nothing is asked of the links back, nor of `tail`, which the operations do not
always keep.

A list that is a chain and whose free nodes are a pool is `Intact`: `clear` returns and
leaves an empty list (`clear_intact`).
-/

namespace NetBricks.State.SegmentList

open Lib
open Lib.Outcome

/-! ## Chains of nodes -/

/-- `nodes` are the nodes from `i` to the end of the list, all different and in
use. -/
inductive Chain (l : SegmentList) : Int → List Int → Prop where
  | nil : Chain l (-1) []
  | cons {i : Int} {s : Segment} {rest : List Int} (hs : l.Owns i s) (hi : i ∉ rest)
      (h : Chain l s.next rest) : Chain l i (i :: rest)

/-- The list ends, and its nodes are not free: the least that is needed for the walks along
`next` to return. -/
structure Intact (l : SegmentList) : Prop where
  pool : l.Pool
  chain : ∃ nodes, l.Chain l.head nodes

theorem Chain.owns {l : SegmentList} {i : Int} {nodes : List Int} (h : l.Chain i nodes) :
    ∀ a ∈ nodes, ∃ s, l.Owns a s := by
  induction h with
  | nil => nofun
  | cons hs _ _ ih =>
    intro a ha
    rcases List.mem_cons.mp ha with rfl | ha
    · exact ⟨_, hs⟩
    · exact ih a ha

theorem Chain.nodup {l : SegmentList} {i : Int} {nodes : List Int} (h : l.Chain i nodes) :
    nodes.Nodup := by
  induction h with
  | nil => exact List.nodup_nil
  | cons _ hi _ ih => exact List.nodup_cons.mpr ⟨hi, ih⟩

/-- A chain is no longer than the storage. -/
theorem Chain.length_le {l : SegmentList} {i : Int} {nodes : List Int} (h : l.Chain i nodes) :
    nodes.length ≤ l.storage.length := by
  have hsub : nodes ⊆ (List.range l.storage.length).map (fun n : Nat => (n : Int)) := by
    intro a ha
    obtain ⟨s, hs⟩ := h.owns a ha
    obtain ⟨h0, hs⟩ := get?_eq_some.mp hs.node
    have hlt := (List.getElem?_eq_some_iff.mp hs).1
    exact List.mem_map.mpr ⟨a.toNat, List.mem_range.mpr hlt, Int.toNat_of_nonneg h0⟩
  have := (List.subperm_of_subset h.nodup hsub).length_le
  rwa [List.length_map, List.length_range] at this

/-- A chain whose nodes stay as they are. -/
theorem Chain.congr {l l' : SegmentList} {i : Int} {nodes : List Int} (h : l.Chain i nodes)
    (hl : ∀ a s, a ∈ nodes → l.Owns a s → l'.Owns a s) : l'.Chain i nodes := by
  induction h with
  | nil => exact .nil
  | cons hs hi _ ih =>
    exact .cons (hl _ _ List.mem_cons_self hs) hi
      (ih (fun a s ha => hl a s (List.mem_cons_of_mem _ ha)))

/-! ## Clearing the list -/

/-- The loop of `clear` frees the nodes of a chain, each once. -/
theorem clearLoop_chain {nodes : List Int} : ∀ {fuel : Nat} {l : SegmentList} {i : Int}, l.Pool →
    l.Chain i nodes → nodes.length < fuel → ∃ l', clearLoop fuel l i = .ok l' ∧ l'.Pool := by
  induction nodes with
  | nil =>
    intro fuel l i hp hc hfuel
    cases hc
    cases fuel with
    | zero => exact absurd hfuel (Nat.not_lt_zero _)
    | succ fuel => exact ⟨l, rfl, hp⟩
  | cons j rest ih =>
    intro fuel l i hp hc hfuel
    cases hc with
    | cons hs hj hrest =>
      cases fuel with
      | zero => exact absurd hfuel (Nat.not_lt_zero _)
      | succ fuel =>
        obtain ⟨l₁, hl₁, hp₁, -, hkeep⟩ := removeNode_owns hp hs
        have hrest₁ : l₁.Chain _ rest :=
          hrest.congr (fun a s ha hs' => hkeep a s hs' (fun h => hj (h ▸ ha)))
        obtain ⟨l₂, hl₂, hp₂⟩ := ih hp₁ hrest₁ (Nat.lt_of_succ_lt_succ hfuel)
        refine ⟨l₂, ?_, hp₂⟩
        unfold clearLoop
        rw [if_neg hs.ne_neg_one, seg_of_get? hs.node, bind_ok, hl₁, bind_ok]
        exact hl₂

theorem clear_intact {fuel : Nat} {l : SegmentList} (h : l.Intact)
    (hfuel : l.storage.length < fuel) :
    ∃ l', l.clear fuel = .ok l' ∧ l'.Holds none ∧ l'.tail = -1 := by
  obtain ⟨nodes, hc⟩ := h.chain
  obtain ⟨l', hl', hp⟩ := clearLoop_chain h.pool hc (Nat.lt_of_le_of_lt hc.length_le hfuel)
  refine ⟨{ l' with head := -1, tail := -1 }, ?_, ⟨⟨hp.node, hp.nodup⟩, rfl⟩, rfl⟩
  unfold clear
  rw [hl', bind_ok]

/-! ## Chains with their ranges -/

/-- From `i` on the list has these nodes, all different and in use, with these ranges. It
follows `next` only: the links back may be wrong. -/
inductive Trail (l : SegmentList) : Int → List Int → List (Nat × Nat) → Prop where
  | nil : Trail l (-1) [] []
  | cons {i : Int} {s : Segment} {nodes : List Int} {rs : List (Nat × Nat)} (hs : l.Owns i s)
      (hi : i ∉ nodes) (h : Trail l s.next nodes rs) :
      Trail l i (i :: nodes) ((s.seq, s.length) :: rs)

/-- The list is well linked and its segments have these ranges, in this order. The nodes are
left out, as no caller sees them; a list has the ranges of only one such trail. -/
structure Lists (l : SegmentList) (rs : List (Nat × Nat)) : Prop where
  pool : l.Pool
  trail : ∃ nodes, l.Trail l.head nodes rs

theorem Trail.cons_of {l : SegmentList} {i k : Int} {s : Segment} {a n : Nat} {nodes : List Int}
    {rs : List (Nat × Nat)} (hs : l.Owns i s) (hseq : s.seq = a) (hlen : s.length = n)
    (hnext : s.next = k) (hi : i ∉ nodes) (h : l.Trail k nodes rs) :
    l.Trail i (i :: nodes) ((a, n) :: rs) := by
  subst hseq hlen hnext
  exact .cons hs hi h

theorem Lists.first {l : SegmentList} {a n : Nat} {rs : List (Nat × Nat)}
    (h : l.Lists ((a, n) :: rs)) : ∃ s nodes, l.Owns l.head s ∧ s.seq = a ∧ s.length = n ∧
      l.head ∉ nodes ∧ l.Trail s.next nodes rs := by
  obtain ⟨nodes, htrail⟩ := h.trail
  generalize l.head = i at htrail ⊢
  cases htrail with
  | cons hs hi hrest => exact ⟨_, _, hs, rfl, rfl, hi, hrest⟩

/-- The nodes keep their range and the link to the next one. -/
theorem Trail.congr {l l' : SegmentList} {i : Int} {nodes : List Int} {rs : List (Nat × Nat)}
    (h : l.Trail i nodes rs) (hl : ∀ a s, a ∈ nodes → l.Owns a s → ∃ s', l'.Owns a s' ∧
      s'.seq = s.seq ∧ s'.length = s.length ∧ s'.next = s.next) :
    l'.Trail i nodes rs := by
  induction h with
  | nil => exact .nil
  | cons hs hi _ ih =>
    obtain ⟨s', hs', hseq, hlen, hnext⟩ := hl _ _ List.mem_cons_self hs
    have hrest := ih (fun a s ha => hl a s (List.mem_cons_of_mem _ ha))
    exact .cons_of hs' hseq hlen hnext hi hrest

theorem Trail.frame {l l' : SegmentList} {i : Int} {nodes : List Int} {rs : List (Nat × Nat)}
    (h : l.Trail i nodes rs) (hl : ∀ a s, a ∈ nodes → l.Owns a s → l'.Owns a s) :
    l'.Trail i nodes rs :=
  h.congr (fun a s ha hs => ⟨s, hl a s ha hs, rfl, rfl, rfl⟩)

theorem Trail.chain {l : SegmentList} {i : Int} {nodes : List Int} {rs : List (Nat × Nat)}
    (h : l.Trail i nodes rs) : l.Chain i nodes := by
  induction h with
  | nil => exact .nil
  | cons hs hi _ ih => exact .cons hs hi ih

/-- The link back of the first node is not part of what is listed. -/
theorem linkBack_trail {l : SegmentList} {i prev : Int} {nodes : List Int} {rs : List (Nat × Nat)}
    (hp : l.Pool) (h : l.Trail i nodes rs) :
    ∃ l', l.linkBack i prev = .ok l' ∧ l'.Pool ∧ l'.head = l.head ∧ l'.Trail i nodes rs ∧
      ∀ a s, a ∉ nodes → l.Owns a s → l'.Owns a s := by
  cases h with
  | nil => exact ⟨l, if_neg (by decide), hp, rfl, .nil, fun a s _ hs => hs⟩
  | cons hs hi hrest =>
    obtain ⟨l₁, hl₁, hp₁, hhead, -, hs₁, hother⟩ :=
      modify_owns hp hs (fun s => { s with prev := prev })
    refine ⟨l₁, ?_, hp₁, hhead, ?_, ?_⟩
    · rw [linkBack, if_pos hs.ne_neg_one, hl₁]
    · have hrest₁ := hrest.frame (fun a t ha ht => hother a t ht (fun he => hi (he ▸ ha)))
      exact .cons_of hs₁ rfl rfl rfl hi hrest₁
    · intro a t ha ht
      exact hother a t ht (fun he => ha (he ▸ List.mem_cons_self))

end NetBricks.State.SegmentList
