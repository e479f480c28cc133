import NetBricks.Lib.SerialRanges
import NetBricks.State.SegmentChain
import NetBricks.State.SegmentCover

/-!
# The operations of the segment list, on its ranges

What `merge_at_idx` and the walk of `insert_segment` do
(`src/framework/src/state/reordered_buffer/reordered_buffer.rs`), as far as it can be said
of the ranges that the list has: nothing is asked of these. A list that is well linked
from some node on stays so.

* `Merged` is what becomes of a range and those behind it when `merge_at_idx` returns.
  There was no gap before any range that it got to, since in front of a gap the loop does
  not advance; and none that ended before the merged one, since the subtraction of the
  overlap would have panicked.
* `walk_eq_ok` says which node the walk of `insert_segment` stops at: the first that is
  not `Passed`. It passes those that start inside the new segment.
-/

namespace NetBricks.State.SegmentList

open Lib
open Lib.Outcome

/-! ## The parts of an operation -/

section Parts

variable {l : SegmentList} {i : Int} {s : Segment} {nodes : List Int} {rs : List (Nat × Nat)}

/-- The next segment goes into the one before it. -/
theorem mergeNext_trail {j : Int} {t : Segment} (hp : l.Pool) (hs : l.Owns i s) (ht : l.Owns j t)
    (hij : i ≠ j) (hi : i ∉ nodes) (hj : j ∉ nodes) (h : l.Trail t.next nodes rs) (newLen : Nat) :
    ∃ l', l.mergeNext i j newLen = .ok (t.next, l') ∧ l'.Pool ∧ l'.head = l.head ∧
      l'.Owns i { s with length := newLen, next := t.next } ∧ l'.Trail t.next nodes rs ∧
      ∀ a u, a ∉ i :: j :: nodes → l.Owns a u → l'.Owns a u := by
  obtain ⟨l₁, hl₁, hp₁, hh₁, -, hs₁, hk₁⟩ :=
    modify_owns hp hs (fun s => { s with length := newLen })
  have ht₁ := hk₁ j t ht hij
  have htr₁ := h.frame (fun a u ha hu => hk₁ a u hu (fun he => hi (he ▸ ha)))
  obtain ⟨l₂, hl₂, hp₂, hh₂, -, hs₂, hk₂⟩ :=
    modify_owns hp₁ hs₁ (fun s => { s with next := t.next })
  have ht₂ := hk₂ j t ht₁ hij
  have htr₂ := htr₁.frame (fun a u ha hu => hk₂ a u hu (fun he => hi (he ▸ ha)))
  obtain ⟨l₃, hl₃, hp₃, hh₃, htr₃, hk₃⟩ := linkBack_trail hp₂ htr₂
  have hs₃ := hk₃ i _ hi hs₂
  obtain ⟨l₄, hl₄, hp₄, hh₄, hk₄⟩ := removeNode_owns hp₃ (hk₃ j t hj ht₂)
  refine ⟨l₄, ?_, hp₄, by rw [hh₄, hh₃, hh₂, hh₁], hk₄ i _ hs₃ hij.symm,
    htr₃.frame (fun a u ha hu => hk₄ a u hu (fun he => hj (he ▸ ha))), ?_⟩
  · rw [mergeNext, hl₁, bind_ok, seg_of_get? ht₁.node, bind_ok, hl₂, bind_ok, hl₃, bind_ok, hl₄,
      bind_ok]
  · intro a u ha hu
    simp only [List.mem_cons, not_or] at ha
    obtain ⟨hai, haj, ha⟩ := ha
    exact hk₄ a u (hk₃ a u ha (hk₂ a u (hk₁ a u hu (Ne.symm hai)) (Ne.symm hai))) (Ne.symm haj)

/-- A part of the next segment goes over to the one before it. -/
theorem mergePart_trail {j : Int} {t : Segment} (hp : l.Pool) (hs : l.Owns i s) (ht : l.Owns j t)
    (hij : i ≠ j) (hi : i ∉ nodes) (hj : j ∉ nodes) (h : l.Trail t.next nodes rs)
    (hnext : s.next = j) (hshort : s.length ≤ u16Max) (hlong : u16Max - s.length ≤ t.length) :
    ∃ l' s' t', l.mergePart i j s.length = .ok l' ∧ l'.Pool ∧ l'.head = l.head ∧ l'.Owns i s' ∧
      s'.seq = s.seq ∧ s'.length = u16Max ∧ s'.next = j ∧ l'.Owns j t' ∧
      t'.seq = wrappingAdd 32 t.seq (u16Max - s.length) ∧
      t'.length = t.length - (u16Max - s.length) ∧ l'.Trail t'.next nodes rs ∧
      ∀ a u, a ∉ i :: j :: nodes → l.Owns a u → l'.Owns a u := by
  obtain ⟨l₁, hl₁, hp₁, hh₁, -, hs₁, hk₁⟩ :=
    modify_owns hp hs (fun s' => { s' with length := s'.length + (u16Max - s.length) })
  have ht₁ := hk₁ j t ht hij
  have htr₁ := h.frame (fun a u ha hu => hk₁ a u hu (fun he => hi (he ▸ ha)))
  obtain ⟨l₂, hl₂, hp₂, hh₂, -, ht₂, hk₂⟩ := modify_owns hp₁ ht₁ (fun t' =>
    { t' with length := t.length - (u16Max - s.length)
              seq := wrappingAdd 32 t'.seq (u16Max - s.length) })
  refine ⟨l₂, _, _, ?_, hp₂, by rw [hh₂, hh₁], hk₂ i _ hs₁ hij.symm, rfl,
    Nat.add_sub_cancel' hshort, hnext, ht₂, rfl, rfl,
    htr₁.frame (fun a u ha hu => hk₂ a u hu (fun he => hj (he ▸ ha))), ?_⟩
  · rw [mergePart, checkedSub_of_le hshort, bind_ok, hl₁, bind_ok, seg_of_get? ht₁.node, bind_ok,
      checkedSub_of_le hlong, bind_ok, hl₂]
  · intro a u ha hu
    simp only [List.mem_cons, not_or] at ha
    obtain ⟨hai, haj, -⟩ := ha
    exact hk₂ a u (hk₁ a u hu (Ne.symm hai)) (Ne.symm haj)

end Parts

/-! ## Merging -/

/-- How far `m` numbers from `x` on reach behind `c`. -/
def overlap (x m c : Nat) : Nat := wrappingAdd 32 x m - c

/-- A range, those behind it, and what becomes of them: each is joined to the first, up to
the end, or to one that does not fit 16 bits, of which a part goes over. -/
inductive Merged : Nat × Nat → List (Nat × Nat) → List (Nat × Nat) → Prop where
  | done {r : Nat × Nat} : Merged r [] [r]
  | whole {x m c k : Nat} {rs out : List (Nat × Nat)} (hreach : c ≤ wrappingAdd 32 x m)
      (hin : overlap x m c ≤ k) (hfits : m + (k - overlap x m c) ≤ u16Max)
      (h : Merged (x, m + (k - overlap x m c)) rs out) : Merged (x, m) ((c, k) :: rs) out
  | part {x m c k : Nat} {rs : List (Nat × Nat)} (hreach : c ≤ wrappingAdd 32 x m)
      (hin : overlap x m c ≤ k) (hlarge : u16Max < m + (k - overlap x m c)) :
      Merged (x, m) ((c, k) :: rs)
        ((x, u16Max) :: (wrappingAdd 32 c (u16Max - m), k - (u16Max - m)) :: rs)

/-- The first range keeps its start, and does not get shorter. -/
theorem Merged.first {x m : Nat} {rs out : List (Nat × Nat)} (h : Merged (x, m) rs out)
    (hm : m ≤ u16Max) : ∃ n rest, out = (x, n) :: rest ∧ m ≤ n := by
  generalize hr : (x, m) = r at h
  induction h generalizing m with
  | done =>
    subst hr
    exact ⟨_, _, rfl, Nat.le_refl _⟩
  | whole _ _ hfits _ ih =>
    cases hr
    obtain ⟨n, rest, hout, hle⟩ := ih hfits rfl
    exact ⟨n, rest, hout, by omega⟩
  | part _ _ _ =>
    cases hr
    exact ⟨_, _, rfl, hm⟩

theorem mergeLoop_merged : ∀ (fuel : Nat) {l l' : SegmentList} {i : Int} {s : Segment}
    {nodes : List Int} {rs : List (Nat × Nat)}, l.Pool → l.Owns i s → i ∉ nodes →
    l.Trail s.next nodes rs → s.length ≤ u16Max → mergeLoop fuel l i s.next = .ok l' →
    ∃ nodes' out, Merged (s.seq, s.length) rs out ∧ l'.Pool ∧ l'.head = l.head ∧
      l'.Trail i nodes' out ∧ nodes' ⊆ i :: nodes ∧
      ∀ a u, a ∉ i :: nodes → l.Owns a u → l'.Owns a u := by
  intro fuel
  induction fuel with
  | zero =>
    intro l l' i s nodes rs _ _ _ _ _ h
    cases h
  | succ fuel ih =>
    intro l l' i s nodes rs hp hs hi htrail hshort h
    generalize hk : s.next = k at h htrail
    cases htrail with
    | nil =>
      cases h
      exact ⟨_, _, .done, hp, rfl, .cons_of hs rfl rfl hk List.not_mem_nil .nil,
        List.Subset.refl _, fun a u _ hu => hu⟩
    | @cons _ t nodes rs ht hj hrest =>
      have hij : i ≠ k := fun he => hi (he ▸ List.mem_cons_self)
      have hi' : i ∉ nodes := fun hm => hi (List.mem_cons_of_mem _ hm)
      cases mergeLoop_turn hs.node ht.node h with
      | all hreach hin hfits h =>
        rw [Nat.add_comm] at hfits h
        obtain ⟨l₁, hl₁, hp₁, hh₁, hs₁, htr₁, hk₁⟩ :=
          mergeNext_trail hp hs ht hij hi' hj hrest (s.length + (t.length - (s.stop - t.seq)))
        rw [hl₁, bind_ok] at h
        obtain ⟨nodes', out, hmerged, hp', hh', htr', hsub, hk'⟩ := ih hp₁ hs₁ hi' htr₁ hfits h
        refine ⟨nodes', out, .whole hreach hin hfits hmerged, hp', hh'.trans hh₁, htr', ?_, ?_⟩
        · exact List.Subset.trans hsub (List.cons_subset_cons _ (List.subset_cons_self _ _))
        · intro a u ha hu
          have ha' : a ∉ i :: nodes := fun hm =>
            ha (List.cons_subset_cons _ (List.subset_cons_self _ _) hm)
          exact hk' a u ha' (hk₁ a u ha hu)
      | part hreach hin hlarge h =>
        rw [Nat.add_comm] at hlarge
        obtain ⟨l₁, s₁, t₁, hl₁, hp₁, hh₁, hs₁, hseq, hlen, hnext, ht₁, htseq, htlen, htr₁, hk₁⟩ :=
          mergePart_trail hp hs ht hij hi' hj hrest hk hshort (by omega)
        rw [hl₁] at h
        cases h
        exact ⟨_, _, .part hreach hin hlarge, hp₁, hh₁, .cons_of hs₁ hseq hlen hnext hi
          (.cons_of ht₁ htseq htlen rfl hj htr₁), List.Subset.refl _, hk₁⟩
      | again h =>
        -- a gap before the next segment: the loop starts over
        exact ih hp hs hi (by rw [hk]; exact .cons ht hj hrest) hshort (by rw [hk]; exact h)

/-! ## The walk -/

/-- The walk of `insert_segment` goes on behind the range: it starts inside the new segment
and does not end where that starts. -/
def Passed (seq len : Nat) (r : Nat × Nat) : Prop :=
  wrappingAdd 32 r.1 r.2 ≠ seq ∧ r.1 < wrappingAdd 32 seq len ∧ seq < r.1

/-- The first node `i` of the list that is not passed, with its segment `s`, and what lies
before and behind it: `before` and `after` are the nodes, `pre` and `post` their ranges. The
walk has looked at all of `pre` and goes no further. -/
structure Halt (l : SegmentList) (seq len : Nat) (nodes : List Int) (rs : List (Nat × Nat))
    (before : List Int) (pre : List (Nat × Nat)) (i : Int) (s : Segment) (after : List Int)
    (post : List (Nat × Nat)) : Prop where
  nodes_eq : nodes = before ++ i :: after
  ranges_eq : rs = pre ++ (s.seq, s.length) :: post
  length_eq : before.length = pre.length
  passed : ∀ r ∈ pre, Passed seq len r
  halts : ¬ Passed seq len (s.seq, s.length)
  owns : l.Owns i s
  fresh : i ∉ after
  trail : l.Trail s.next after post

theorem Halt.here {l : SegmentList} {seq len : Nat} {i : Int} {s : Segment} {nodes : List Int}
    {rs : List (Nat × Nat)} (hhalts : ¬ Passed seq len (s.seq, s.length)) (hs : l.Owns i s)
    (hi : i ∉ nodes) (htrail : l.Trail s.next nodes rs) :
    Halt l seq len (i :: nodes) ((s.seq, s.length) :: rs) [] [] i s nodes rs :=
  ⟨rfl, rfl, rfl, nofun, hhalts, hs, hi, htrail⟩

/-- A walk that returns: all nodes are passed, or it stops at the first that is not. -/
theorem walk_eq_ok {seq len : Nat} {idx : Int} : ∀ {fuel : Nat} {l l' : SegmentList}
    {i : Int} {nodes : List Int} {rs : List (Nat × Nat)}, l.Trail i nodes rs →
    walk fuel l i seq len = .ok (idx, l') →
    (∀ r ∈ rs, Passed seq len r) ∧ idx = -1 ∧ l' = l ∨
    ∃ before pre j s after post, Halt l seq len nodes rs before pre j s after post ∧
      Stops l seq len j s idx l' := by
  intro fuel
  induction fuel with
  | zero =>
    intro l l' i nodes rs _ h
    cases h
  | succ fuel ih =>
    intro l l' i nodes rs htrail h
    cases htrail with
    | nil =>
      cases h
      exact .inl ⟨nofun, rfl, rfl⟩
    | @cons _ s nodes rs hs hi hrest =>
      unfold walk at h
      rw [if_neg hs.ne_neg_one, seg_of_get? hs.node, bind_ok] at h
      split at h
      · next hstop =>
        exact .inr ⟨_, _, _, _, _, _, .here (fun hp => hp.1 hstop) hs hi hrest, .extend hstop h⟩
      · next hstop =>
        split at h
        · next hge =>
          exact .inr ⟨_, _, _, _, _, _, .here (fun hp => Nat.not_le_of_lt hp.2.1 hge) hs hi hrest,
            .before hstop hge h⟩
        · next hlt =>
          split at h
          · next hle =>
            exact .inr ⟨_, _, _, _, _, _, .here (fun hp => Nat.not_le_of_lt hp.2.2 hle) hs hi hrest,
              .stretch hstop hlt hle h⟩
          · next hle =>
            have hpass : Passed seq len (s.seq, s.length) :=
              ⟨hstop, Nat.lt_of_not_le hlt, Nat.lt_of_not_le hle⟩
            rcases ih hrest h with ⟨hall, hr⟩ | ⟨before, pre, j, t, after, post, hhalt, hstops⟩
            · exact .inl ⟨List.forall_mem_cons.mpr ⟨hpass, hall⟩, hr⟩
            · refine .inr ⟨i :: before, (s.seq, s.length) :: pre, j, t, after, post, ?_, hstops⟩
              exact ⟨by rw [hhalt.nodes_eq]; rfl, by rw [hhalt.ranges_eq]; rfl,
                by rw [List.length_cons, List.length_cons, hhalt.length_eq],
                List.forall_mem_cons.mpr ⟨hpass, hhalt.passed⟩, hhalt.halts, hhalt.owns,
                hhalt.fresh, hhalt.trail⟩

theorem Halt.unique {l : SegmentList} {seq len : Nat} {nodes before before' after after' : List Int}
    {rs pre pre' post post' : List (Nat × Nat)} {i i' : Int} {s s' : Segment}
    (h : Halt l seq len nodes rs before pre i s after post)
    (h' : Halt l seq len nodes rs before' pre' i' s' after' post') :
    pre = pre' ∧ s = s' ∧ post = post' := by
  have hfirst : ∀ {pre pre' : List (Nat × Nat)} {r r' : Nat × Nat},
      (∀ r ∈ pre, Passed seq len r) → (∀ r ∈ pre', Passed seq len r) → ¬ Passed seq len r →
      ¬ Passed seq len r' → pre ++ r :: post = pre' ++ r' :: post' → pre = pre' ∧ post = post' := by
    intro pre
    induction pre with
    | nil =>
      intro pre' r r' _ hpre' hr _ heq
      cases pre' with
      | nil => exact ⟨rfl, (List.cons.inj heq).2⟩
      | cons p _ => exact absurd (hpre' p List.mem_cons_self) ((List.cons.inj heq).1 ▸ hr)
    | cons p pre ih =>
      intro pre' r r' hpre hpre' hr hr' heq
      cases pre' with
      | nil => exact absurd (hpre p List.mem_cons_self) ((List.cons.inj heq).1 ▸ hr')
      | cons p' pre' =>
        obtain ⟨rfl, htail⟩ := List.cons.inj heq
        obtain ⟨rfl, hpost⟩ := ih (fun r hr => hpre r (List.mem_cons_of_mem _ hr))
          (fun r hr => hpre' r (List.mem_cons_of_mem _ hr)) hr hr' htail
        exact ⟨rfl, hpost⟩
  obtain ⟨rfl, rfl⟩ := hfirst h.passed h'.passed h.halts h'.halts
    (h.ranges_eq.symm.trans h'.ranges_eq)
  have hnodes := h.nodes_eq.symm.trans h'.nodes_eq
  obtain ⟨rfl, hi⟩ := List.append_inj hnodes (h.length_eq.trans h'.length_eq.symm)
  obtain ⟨rfl, rfl⟩ := List.cons.inj hi
  exact ⟨rfl, Option.some.inj (h.owns.node.symm.trans h'.owns.node), rfl⟩

/-- The list up to the node `j`, and another one from there on. -/
theorem Trail.splice {l l' : SegmentList} {j : Int} {after nodes' : List Int} {r : Nat × Nat}
    {post out : List (Nat × Nat)} (h' : l'.Trail j nodes' out) : ∀ {before : List Int} {i : Int}
    {pre : List (Nat × Nat)}, l.Trail i (before ++ j :: after) (pre ++ r :: post) →
    before.length = pre.length → (∀ a ∈ before, a ∉ nodes') →
    (∀ a ∈ before, ∀ s, l.Owns a s → l'.Owns a s) → l'.Trail i (before ++ nodes') (pre ++ out) := by
  intro before
  induction before with
  | nil =>
    intro i pre h hlen _ _
    cases List.length_eq_zero_iff.mp hlen.symm
    cases h
    exact h'
  | cons a before ih =>
    intro i pre h hlen hfresh hkeep
    cases pre with
    | nil => cases hlen
    | cons p pre =>
      cases h with
      | cons hs hi hrest =>
        have hrest' := ih hrest (Nat.succ.inj hlen)
          (fun b hb => hfresh b (List.mem_cons_of_mem _ hb))
          (fun b hb => hkeep b (List.mem_cons_of_mem _ hb))
        refine .cons (hkeep a List.mem_cons_self _ hs) (fun hm => ?_) hrest'
        rcases List.mem_append.mp hm with hm | hm
        · exact hi (List.mem_append_left _ hm)
        · exact hfresh a List.mem_cons_self hm

theorem Trail.unique {l : SegmentList} {i : Int} {nodes nodes' : List Int}
    {rs rs' : List (Nat × Nat)} (h : l.Trail i nodes rs) (h' : l.Trail i nodes' rs') :
    nodes = nodes' ∧ rs = rs' := by
  induction h generalizing nodes' rs' with
  | nil =>
    cases h' with
    | nil => exact ⟨rfl, rfl⟩
    | cons hs _ _ => exact absurd rfl hs.ne_neg_one
  | @cons i s nodes rs hs hi hrest ih =>
    cases h' with
    | nil => exact absurd rfl hs.ne_neg_one
    | cons hs' hi' hrest' =>
      cases Option.some.inj (hs.node.symm.trans hs'.node)
      obtain ⟨rfl, rfl⟩ := ih hrest'
      exact ⟨rfl, rfl⟩

theorem Lists.unique {l : SegmentList} {rs rs' : List (Nat × Nat)} (h : l.Lists rs)
    (h' : l.Lists rs') : rs = rs' := by
  obtain ⟨nodes, htrail⟩ := h.trail
  obtain ⟨nodes', htrail'⟩ := h'.trail
  exact (htrail.unique htrail').2

end NetBricks.State.SegmentList
