import NetBricks.State.SegmentStray
import NetBricks.State.SegmentTidy

/-!
# What `insert_segment` covers

`insert_segment` of `src/framework/src/state/reordered_buffer/reordered_buffer.rs`, on a list
of any number of segments that are sorted by start, disjoint and do not cross `2 ^ 32`. A
well-linked list lists ranges (`Lists`); the question is whether it lists the union of
those and the new segment afterwards, sorted and disjoint again (`United`).

The walk through the list passes the segments that start inside the new one, and halts at
the next one, which as a rule is the first of the list. What is done there is decided by a
look at that segment alone:

* it ends where the new segment begins, and is extended. What does not fit 16 bits goes
  into a new segment, which is not merged with those that follow.
* it begins at or behind the end of the new segment, which is put before it. An end of
  exactly `2 ^ 32` counts as 0 here, before everything.
* otherwise it is stretched up to the end of the new segment, over whatever lies between,
  to a length that is cut to 16 bits (`insertSegment_covers_gap`).

`Fits` says what has to hold in each case, and `insertSegment_union_iff` that this is
exactly when the result is the union. If all segments are passed, it never is: the new one
goes to the end, behind segments that start later.

`merge_at_idx` does not return when the next segment begins behind a gap, so what is said
here is said of insertions that return. Nothing is asked of the links back and of `tail`.
-/

namespace NetBricks.State.SegmentList

open Lib
open Lib.Outcome

/-- What has to hold where the walk halts, at the segment `s` behind those passed (`pre`) and
before the others (`post`). If `s` is extended: those passed are empty, and the merge with the
others settles; or the part that does not fit comes before all the others. If the new segment
is put before `s` and `s` has no link back: those passed, which are no longer on the list, lie
in the new segment, and the merge settles. If it has one, the new segment does not get on the
list: it is there already and the list is as it was. If `s` is stretched: that covers what it
should, and the merge settles. -/
def Fits (seq len : Nat) (nodes : List Int) (pre : List (Nat × Nat)) (s : Segment)
    (post : List (Nat × Nat)) : Prop :=
  if s.stop = seq then
    if s.length + len ≤ u16Max then
      (∀ r ∈ pre, r.2 = 0) ∧ Settles s.seq (s.length + len) post
    else
      pre = [] ∧ s.seq + s.length = seq ∧
        ∀ r ∈ post, s.seq + u16Max ≤ r.1 ∧ (r.2 ≠ 0 → seq + len ≤ r.1)
  else if wrappingAdd 32 seq len ≤ s.seq then
    if s.prev = -1 then
      (∀ r ∈ pre, r.1 + r.2 ≤ seq + len) ∧ Settles seq len ((s.seq, s.length) :: post)
    else
      s.prev ∉ nodes ∧ 0 < s.length ∧ len = u16Max ∧ seq + len = 2 ^ 32 ∧
        ∀ q, q < 2 ^ 32 → InSerial 32 q (seq, len) → CoveredSerial 32 ((s.seq, s.length) :: post) q
  else
    StretchFits s.seq s.length (truncate 16 (max s.stop (wrappingAdd 32 seq len) - s.seq))
        seq len post ∧
      Settles s.seq (truncate 16 (max s.stop (wrappingAdd 32 seq len) - s.seq)) post

section Union

variable {l l' l₁ : SegmentList} {nodes before after : List Int} {rs pre post : List (Nat × Nat)}
  {i idx : Int} {s : Segment} {seq len fuel : Nat}

/-- The nodes before the one where the walk halts are other nodes. -/
theorem Halt.apart (hhalt : Halt l seq len nodes rs before pre i s after post)
    (htrail : l.Trail l.head nodes rs) : ∀ a ∈ before, a ∉ i :: after := by
  have hnodup := htrail.chain.nodup
  rw [hhalt.nodes_eq] at hnodup
  exact fun a ha hm => (List.nodup_append.mp hnodup).2.2 a ha a hm rfl

/-- A merge at the segment where the walk halts, which has changed since, and what is behind
it too. -/
theorem Halt.lists_merge (hhalt : Halt l seq len nodes rs before pre i s after post)
    (htrail : l.Trail l.head nodes rs) {s₁ : Segment} {after₁ : List Int}
    {post₁ : List (Nat × Nat)} (hp₁ : l₁.Pool) (hh₁ : l₁.head = l.head) (hs₁ : l₁.Owns i s₁)
    (hshort : s₁.length ≤ u16Max) (hi : i ∉ after₁) (htrail₁ : l₁.Trail s₁.next after₁ post₁)
    (hkeep : ∀ a ∈ before, a ∉ after₁ ∧ ∀ u, l.Owns a u → l₁.Owns a u)
    (hmerge : mergeAtIdx fuel l₁ i = .ok l') :
    ∃ out, Merged (s₁.seq, s₁.length) post₁ out ∧ l'.Lists (pre ++ out) := by
  rw [mergeAtIdx, seg_of_get? hs₁.node, bind_ok] at hmerge
  obtain ⟨nodes', out, hmerged, hp', hh', htr', hsub, hk'⟩ :=
    mergeLoop_merged fuel hp₁ hs₁ hi htrail₁ hshort hmerge
  have hapart : ∀ a ∈ before, a ∉ i :: after₁ := fun a ha hm =>
    (List.mem_cons.mp hm).elim
      (fun he => hhalt.apart htrail a ha (he ▸ List.mem_cons_self)) (hkeep a ha).1
  refine ⟨out, hmerged, hp', before ++ nodes', ?_⟩
  rw [hhalt.nodes_eq, hhalt.ranges_eq] at htrail
  rw [hh', hh₁]
  exact htr'.splice htrail hhalt.length_eq (fun a ha hm => hapart a ha (hsub hm))
    fun a ha u hu => hk' a u (hapart a ha) ((hkeep a ha).2 u hu)

/-- The segment where the walk halts has a new length, and is merged with those behind it. -/
theorem Halt.lists (hhalt : Halt l seq len nodes rs before pre i s after post)
    (hp : l.Pool) (htrail : l.Trail l.head nodes rs) {newLen : Nat} (hshort : newLen ≤ u16Max)
    (hm : l.modify i (fun s => { s with length := newLen }) = .ok l₁)
    (hmerge : mergeAtIdx fuel l₁ i = .ok l') :
    ∃ out, Merged (s.seq, newLen) post out ∧ l'.Lists (pre ++ out) := by
  obtain ⟨l₂, hl₂, hp₁, hh₁, -, hs₁, hk₁⟩ :=
    modify_owns hp hhalt.owns (fun s => { s with length := newLen })
  cases Outcome.ok.inj (hm.symm.trans hl₂)
  have htrail₁ := hhalt.trail.frame
    (fun a u ha hu => hk₁ a u hu (fun he => hhalt.fresh (he ▸ ha)))
  refine hhalt.lists_merge htrail hp₁ hh₁ hs₁ hshort hhalt.fresh htrail₁ (fun a ha => ?_) hmerge
  have hout := hhalt.apart htrail a ha
  exact ⟨fun hm => hout (List.mem_cons_of_mem _ hm),
    fun u hu => hk₁ a u hu fun he => hout (he ▸ List.mem_cons_self)⟩

/-- The ranges of the nodes behind the first. -/
theorem Trail.behind {r : Nat × Nat} {k j : Int} {u : Segment}
    (htrail : l.Trail k nodes (r :: post)) (hj : j ∈ nodes) (hu : l.Owns j u) (hne : j ≠ k) :
    (u.seq, u.length) ∈ post := by
  cases htrail with
  | cons _ _ hrest =>
    obtain ⟨u', hu', -, hmem⟩ := hrest.closed j ((List.mem_cons.mp hj).resolve_left hne)
    cases Option.some.inj (hu.node.symm.trans hu'.node)
    exact hmem

end Union

/-- Two segments with a gap of five between them. -/
def apart : SegmentList :=
  { storage := [⟨-1, 10, 5, 1, 0⟩, ⟨0, 20, 5, -1, 1⟩], available := [], head := 0, tail := 1 }

end NetBricks.State.SegmentList
