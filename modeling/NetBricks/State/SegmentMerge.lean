import NetBricks.State.SegmentTidy

/-!
# What `merge_at_idx` covers, in either build

`merge_at_idx` of `src/framework/src/state/reordered_buffer/reordered_buffer.rs` on a node
whose segment may overlap, touch or contain the ones behind it. The length of a merged
segment is `next.length - overlap + length`, a subtraction of `usize`s that goes below zero
when the next segment ends before this one does. What then happens depends on the build
(`Build`): with overflow checks the call panics; without them, as in the release build that
`build.sh` makes, the sum wraps back and the merged segment ends where the next one ended.

A merge that returns has not met a gap: in front of one the loop does not advance
(`ComesToEnd`). It keeps what is covered, and every length within 16 bits, unless it meets
a segment inside the merged one in the release build (`MeetsContained`,
`mergeAtIdxIn_keeps_iff`).

Mirroring notes:

* The functions are those of `NetBricks.State.SegmentList` with the arithmetic of a build;
  with the checked one they are the same (`mergeLoopIn_checked`).
* Lengths are at most 65535 and starts below `2 ^ 32`: they are a `u16` and a `u32`.
-/

namespace NetBricks.State

open Lib
open Lib.Outcome

/-- The build of the crate: with overflow checks or without. -/
inductive Build where
  | checked
  | release
  deriving DecidableEq, Repr

namespace Build

/-- `a - b` at width `w`. -/
def sub : Build → Nat → Nat → Nat → Outcome Nat
  | .checked, _, a, b => checkedSub a b
  | .release, w, a, b => .ok (wrappingSub w a b)

/-- `a + b` at width `w`. -/
def add : Build → Nat → Nat → Nat → Outcome Nat
  | .checked, w, a, b => checkedAdd w a b
  | .release, w, a, b => .ok (wrappingAdd w a b)

theorem sub_of_le (build : Build) {w a b : Nat} (hle : b ≤ a) (ha : a < 2 ^ w) :
    build.sub w a b = .ok (a - b) := by
  cases build with
  | checked => exact checkedSub_of_le hle
  | release => exact congrArg Outcome.ok (wrappingSub_of_le hle ha)

theorem add_of_lt (build : Build) {w a b : Nat} (h : a + b < 2 ^ w) :
    build.add w a b = .ok (a + b) := by
  cases build with
  | checked => exact checkedAdd_of_lt h
  | release => exact congrArg Outcome.ok (wrappingAdd_of_lt h)

end Build

namespace SegmentList

/-- `new_len` of `merge_at_idx`, for a segment that reaches the next one. -/
def mergedLength (build : Build) (s t : Segment) : Outcome Nat := do
  let overlap ← build.sub 32 s.stop t.seq
  let mergeLen ← build.sub 64 t.length overlap
  build.add 64 mergeLen s.length

/-- The second branch of `merge_at_idx`. -/
def mergePartIn (build : Build) (l : SegmentList) (idx next : Int) (length : Nat) :
    Outcome SegmentList := do
  let maxLen ← build.sub 16 u16Max length
  let s ← l.seg idx
  let grown ← build.add 16 s.length maxLen
  let l ← l.modify idx (fun s => { s with length := grown })
  let n ← l.seg next
  let rest ← build.sub 16 n.length maxLen
  l.modify next (fun s => { s with length := rest, seq := wrappingAdd 32 s.seq maxLen })

/-- The loop of `merge_at_idx`. -/
def mergeLoopIn (build : Build) : Nat → SegmentList → Int → Int → Outcome SegmentList
  | 0, _, _, _ => .timeout
  | fuel + 1, l, idx, next =>
    if next = -1 then .ok l
    else do
      let s ← l.seg idx
      let n ← l.seg next
      if s.stop ≥ n.seq then
        let newLen ← mergedLength build s n
        if newLen ≤ u16Max then
          let (next, l) ← l.mergeNext idx next newLen
          mergeLoopIn build fuel l idx next
        else l.mergePartIn build idx next s.length
      else mergeLoopIn build fuel l idx next

/-- `merge_at_idx`. -/
def mergeAtIdxIn (build : Build) (fuel : Nat) (l : SegmentList) (idx : Int) :
    Outcome SegmentList := do
  let s ← l.seg idx
  mergeLoopIn build fuel l idx s.next

/-! ## How the ranges lie -/

/-- A merge of `n` numbers from `a` on with these ranges comes to their end, or to one that
it cannot take whole, without a gap before it. -/
def ComesToEnd (a : Nat) : Nat → List (Nat × Nat) → Prop
  | _, [] => True
  | n, (b, k) :: rs =>
    b ≤ wrappingAdd 32 a n ∧ (b + k ≤ a + u16Max → ComesToEnd a (b + k - a) rs)

/-- The merge gets to a range that ends before the merged one does. There `merge_at_idx`
subtracts the overlap from a shorter length, which goes below zero. -/
def MeetsContained (a : Nat) : Nat → List (Nat × Nat) → Prop
  | _, [] => False
  | n, (b, k) :: rs =>
    b ≤ wrappingAdd 32 a n ∧
      (b + k < a + n ∨ b + k ≤ a + u16Max ∧ MeetsContained a (b + k - a) rs)

/-- Node `i` and those behind it, as a merge finds them: the nodes are different and in use,
sorted by their starts, and no range crosses `2 ^ 32`, so that ends can be compared without
wrapping. -/
structure Ahead (l : SegmentList) (i : Int) (s : Segment) (nodes : List Int)
    (rs : List (Nat × Nat)) : Prop where
  pool : l.Pool
  node : l.Owns i s
  fresh : i ∉ nodes
  trail : l.Trail s.next nodes rs
  sorted : SortedByStart ((s.seq, s.length) :: rs)
  placed : ∀ r ∈ (s.seq, s.length) :: rs, Placed r

theorem Ahead.short {l : SegmentList} {i : Int} {s : Segment} {nodes : List Int}
    {rs : List (Nat × Nat)} (h : l.Ahead i s nodes rs) : s.length ≤ u16Max :=
  (h.placed _ List.mem_cons_self).short

section Turn

variable {l : SegmentList} {i j : Int} {s t : Segment} {nodes : List Int} {rs : List (Nat × Nat)}
  (h : l.Ahead i s (j :: nodes) ((t.seq, t.length) :: rs)) (ht : l.Owns j t)
include h

theorem Ahead.placed_next : Placed (t.seq, t.length) :=
  h.placed _ (List.mem_cons_of_mem _ List.mem_cons_self)

theorem Ahead.start_le : s.seq ≤ t.seq :=
  (List.pairwise_cons.mp h.sorted).1 _ List.mem_cons_self

/-- A segment that reaches the next one does not end at `2 ^ 32`. -/
theorem Ahead.reach (hreach : t.seq ≤ s.stop) :
    s.stop = s.seq + s.length ∧ s.seq + s.length < 2 ^ 32 := by
  have hle := h.start_le
  have hshort := h.short
  have hstop : s.seq + s.length ≤ 2 ^ 32 := (h.placed _ List.mem_cons_self).stop
  by_cases hlt : s.seq + s.length < 2 ^ 32
  · exact ⟨wrappingAdd_of_lt hlt, hlt⟩
  · have hend : s.seq + s.length = 2 ^ 32 := by omega
    unfold Segment.stop wrappingAdd at hreach
    rw [hend, Nat.mod_self] at hreach
    unfold u16Max at hshort
    omega

theorem Ahead.reach_le (hreach : t.seq ≤ s.stop) : t.seq ≤ s.seq + s.length :=
  (h.reach hreach).1 ▸ hreach

/-- Where the next segment does not end before this one, the merged one ends with it. -/
theorem Ahead.mergedLength_eq (build : Build) (hreach : t.seq ≤ s.stop)
    (hend : s.seq + s.length ≤ t.seq + t.length) :
    mergedLength build s t = .ok (t.seq + t.length - s.seq) := by
  obtain ⟨hstop, hlt⟩ := h.reach hreach
  have hle := h.start_le
  have hs := h.short
  have ht : t.length ≤ u16Max := h.placed_next.short
  unfold u16Max at hs ht
  rw [mergedLength, hstop, build.sub_of_le (by omega) (by omega), bind_ok,
    build.sub_of_le (by omega) (by omega), bind_ok, build.add_of_lt (by omega)]
  congr 1
  omega

/-- In the release build that is so in any case. -/
theorem Ahead.mergedLength_release (hreach : t.seq ≤ s.stop) :
    mergedLength .release s t = .ok (t.seq + t.length - s.seq) := by
  by_cases hend : s.seq + s.length ≤ t.seq + t.length
  · exact h.mergedLength_eq .release hreach hend
  · obtain ⟨hstop, hlt⟩ := h.reach hreach
    have hle := h.start_le
    have hs := h.short
    unfold u16Max at hs
    rw [mergedLength, hstop, Build.sub_of_le .release (by omega) (by omega), bind_ok]
    simp only [Build.sub, Build.add, bind_ok, wrappingSub, wrappingAdd]
    congr 1
    omega

theorem Ahead.mergedLength_whole (build : Build) (hreach : t.seq ≤ s.stop)
    (hend : build = .checked → s.seq + s.length ≤ t.seq + t.length) :
    mergedLength build s t = .ok (t.seq + t.length - s.seq) := by
  cases build with
  | checked => exact h.mergedLength_eq .checked hreach (hend rfl)
  | release => exact h.mergedLength_release hreach

theorem Ahead.mergedLength_checked (hreach : t.seq ≤ s.stop)
    (hend : t.seq + t.length < s.seq + s.length) :
    mergedLength .checked s t = .panic .overflow := by
  obtain ⟨hstop, hlt⟩ := h.reach hreach
  rw [mergedLength, hstop, Build.sub_of_le .checked (by omega) (by omega), bind_ok]
  simp only [Build.sub, checkedSub]
  rw [if_neg (by omega), bind_panic]

end Turn

/-! ## A turn of the loop -/

/-- The second branch does not underflow in either build. -/
theorem mergePartIn_eq (build : Build) {l : SegmentList} {i j : Int} {s t : Segment}
    (hs : l.get? i = some s) (ht : l.get? j = some t) (hij : i ≠ j) (hs16 : s.length ≤ u16Max)
    (ht16 : t.length ≤ u16Max) (hlong : u16Max - s.length ≤ t.length) :
    l.mergePartIn build i j s.length = l.mergePart i j s.length := by
  have hmax : u16Max < 2 ^ 16 := by decide
  have hgrown : s.length + (u16Max - s.length) < 2 ^ 16 := by omega
  have hi : 0 ≤ i := (get?_eq_some.mp hs).1
  have hupdate : ∀ u : Segment, (l.update i u).seg j = .ok t := fun u =>
    seg_of_get? ((get?_update_ne hij hi u).trans ht)
  rw [mergePartIn, mergePart, build.sub_of_le hs16 hmax, checkedSub_of_le hs16, bind_ok, bind_ok,
    seg_of_get? hs, bind_ok, build.add_of_lt hgrown, bind_ok, modify_of_get? hs, modify_of_get? hs,
    bind_ok, bind_ok, hupdate, bind_ok, bind_ok, build.sub_of_le hlong (by omega),
    checkedSub_of_le hlong]

section Turns

variable {l : SegmentList} {i j : Int} {s t : Segment} {nodes : List Int} {rs : List (Nat × Nat)}

/-- The next segment goes into this one, which ends where that ended. -/
theorem Ahead.absorb (h : l.Ahead i s (j :: nodes) ((t.seq, t.length) :: rs)) (ht : l.Owns j t)
    (hj : j ∉ nodes) (hrest : l.Trail t.next nodes rs)
    (hfits : t.seq + t.length ≤ s.seq + u16Max) :
    ∃ l₁, l.mergeNext i j (t.seq + t.length - s.seq) = .ok (t.next, l₁) ∧
      l₁.Ahead i { s with length := t.seq + t.length - s.seq, next := t.next } nodes rs := by
  have hij : i ≠ j := fun he => h.fresh (he ▸ List.mem_cons_self)
  have hi : i ∉ nodes := fun hm => h.fresh (List.mem_cons_of_mem _ hm)
  have hle := h.start_le
  have hplaced := h.placed_next
  obtain ⟨hbehind, hsorted⟩ := List.pairwise_cons.mp h.sorted
  obtain ⟨l₁, hl₁, hp₁, -, hs₁, htr₁, -⟩ :=
    mergeNext_trail h.pool h.node ht hij hi hj hrest (t.seq + t.length - s.seq)
  refine ⟨l₁, hl₁, hp₁, hs₁, hi, htr₁, List.pairwise_cons.mpr ⟨?_, ?_⟩, ?_⟩
  · exact fun r hr => hbehind r (List.mem_cons_of_mem _ hr)
  · exact (List.pairwise_cons.mp hsorted).2
  · intro r hr
    rcases List.mem_cons.mp hr with rfl | hr
    · have hstart : s.seq < 2 ^ 32 := (h.placed _ List.mem_cons_self).start
      have hstop : t.seq + t.length ≤ 2 ^ 32 := hplaced.stop
      exact ⟨hstart, by dsimp only; omega, by dsimp only; omega⟩
    · exact h.placed r (List.mem_cons_of_mem _ (List.mem_cons_of_mem _ hr))

/-- The next segment is too long: a part of it goes over, in either build. -/
theorem Ahead.part (h : l.Ahead i s (j :: nodes) ((t.seq, t.length) :: rs)) (ht : l.Owns j t)
    (hj : j ∉ nodes) (hrest : l.Trail t.next nodes rs) (hnext : s.next = j)
    (hreach : t.seq ≤ s.seq + s.length) (hlarge : s.seq + u16Max < t.seq + t.length) :
    ∃ l₁, (∀ build, l.mergePartIn build i j s.length = .ok l₁) ∧ l₁.Pool ∧
      l₁.Trail i (i :: j :: nodes) ((s.seq, u16Max) ::
        (t.seq + (u16Max - s.length), t.length - (u16Max - s.length)) :: rs) := by
  have hij : i ≠ j := fun he => h.fresh (he ▸ List.mem_cons_self)
  have hi : i ∉ nodes := fun hm => h.fresh (List.mem_cons_of_mem _ hm)
  have hs16 := h.short
  have ht16 : t.length ≤ u16Max := h.placed_next.short
  have hstop : t.seq + t.length ≤ 2 ^ 32 := h.placed_next.stop
  have hle := h.start_le
  obtain ⟨l₁, s₁, t₁, hl₁, hp₁, -, hs₁, hseq, hlen, hnext₁, ht₁, htseq, htlen, htr₁, -⟩ :=
    mergePart_trail h.pool h.node ht hij hi hj hrest hnext hs16 (by omega)
  rw [wrappingAdd_of_lt (by omega)] at htseq
  refine ⟨l₁, fun build => ?_, hp₁, ?_⟩
  · rw [mergePartIn_eq build h.node.node ht.node hij hs16 ht16 (by omega), hl₁]
  · exact .cons_of hs₁ hseq hlen hnext₁ h.fresh (.cons_of ht₁ htseq htlen rfl hj htr₁)

/-- What the loop does about the next segment. -/
theorem Ahead.turn (h : l.Ahead i s (j :: nodes) ((t.seq, t.length) :: rs)) (ht : l.Owns j t)
    (build : Build) (fuel : Nat) :
    mergeLoopIn build (fuel + 1) l i j =
      if t.seq ≤ s.stop then
        mergedLength build s t >>= fun newLen =>
          if newLen ≤ u16Max then
            l.mergeNext i j newLen >>= fun r => mergeLoopIn build fuel r.2 i r.1
          else l.mergePartIn build i j s.length
      else mergeLoopIn build fuel l i j := by
  rw [mergeLoopIn, if_neg ht.ne_neg_one, seg_of_get? h.node.node, bind_ok, seg_of_get? ht.node,
    bind_ok]

/-- The turns after which the loop returns: the next segment starts behind a gap, and the
loop goes on as it was; it is taken whole; or only a part of it is. -/
inductive Turned (build : Build) (fuel : Nat) (l : SegmentList) (i j : Int) (s t : Segment)
    (nodes : List Int) (rs : List (Nat × Nat)) (l' : SegmentList) : Prop where
  | gap (hgap : s.stop < t.seq) (h : mergeLoopIn build fuel l i j = .ok l')
  | whole (l₁ : SegmentList) (hreach : t.seq ≤ s.stop)
      (hend : build = .checked → s.seq + s.length ≤ t.seq + t.length)
      (hfits : t.seq + t.length ≤ s.seq + u16Max)
      (hl₁ : l.mergeNext i j (t.seq + t.length - s.seq) = .ok (t.next, l₁))
      (hahead : l₁.Ahead i { s with length := t.seq + t.length - s.seq, next := t.next } nodes rs)
      (h : mergeLoopIn build fuel l₁ i t.next = .ok l')
  | part (hreach : t.seq ≤ s.stop) (hlarge : s.seq + u16Max < t.seq + t.length)
      (h : l.mergePartIn build i j s.length = .ok l')

theorem Ahead.turned {build : Build} {fuel : Nat} {l' : SegmentList}
    (h : l.Ahead i s (j :: nodes) ((t.seq, t.length) :: rs)) (ht : l.Owns j t) (hj : j ∉ nodes)
    (hrest : l.Trail t.next nodes rs) (hcall : mergeLoopIn build (fuel + 1) l i j = .ok l') :
    Turned build fuel l i j s t nodes rs l' := by
  rw [h.turn ht] at hcall
  split at hcall
  · next hreach =>
    have hle := h.start_le
    -- a segment that ends before this one stops the checked build
    have hend : build = .checked → s.seq + s.length ≤ t.seq + t.length := by
      intro hb
      by_contra hlt
      rw [hb, h.mergedLength_checked hreach (by omega)] at hcall
      cases hcall
    rw [h.mergedLength_whole build hreach hend, bind_ok] at hcall
    split at hcall
    · next hfits =>
      obtain ⟨l₁, hl₁, hahead⟩ := h.absorb ht hj hrest (by omega)
      rw [hl₁, bind_ok] at hcall
      exact .whole l₁ hreach hend (by omega) hl₁ hahead hcall
    · next hlarge => exact .part hreach (by omega) hcall
  · next hgap => exact .gap (by omega) hcall

/-- A turn that takes the next segment whole, in a build that can. -/
theorem Ahead.turn_whole {l₁ : SegmentList} (build : Build) (fuel : Nat)
    (h : l.Ahead i s (j :: nodes) ((t.seq, t.length) :: rs)) (ht : l.Owns j t)
    (hreach : t.seq ≤ s.stop) (hfits : t.seq + t.length ≤ s.seq + u16Max)
    (hl₁ : l.mergeNext i j (t.seq + t.length - s.seq) = .ok (t.next, l₁))
    (hend : build = .checked → s.seq + s.length ≤ t.seq + t.length) :
    mergeLoopIn build (fuel + 1) l i j = mergeLoopIn build fuel l₁ i t.next := by
  rw [h.turn ht, if_pos hreach, h.mergedLength_whole build hreach hend, bind_ok,
    if_pos (by omega), hl₁, bind_ok]

/-- A turn that takes a part of the next segment. -/
theorem Ahead.turn_part (build : Build) (fuel : Nat)
    (h : l.Ahead i s (j :: nodes) ((t.seq, t.length) :: rs)) (ht : l.Owns j t)
    (hreach : t.seq ≤ s.stop) (hlarge : s.seq + u16Max < t.seq + t.length) :
    mergeLoopIn build (fuel + 1) l i j = l.mergePartIn build i j s.length := by
  have hle := h.start_le
  have hs16 := h.short
  rw [h.turn ht, if_pos hreach, h.mergedLength_eq build hreach (by omega), bind_ok,
    if_neg (by omega)]

end Turns

/-! ## Coverage -/

/-- The second range begins in the first or right behind it and does not end before it. -/
theorem covered_absorb {a n b k x : Nat} {rs : List (Nat × Nat)} (hab : a ≤ b) (hb : b ≤ a + n)
    (hend : a + n ≤ b + k) :
    Covered ((a, b + k - a) :: rs) x ↔ Covered ((a, n) :: (b, k) :: rs) x := by
  have hgrow := inRange_grow (k := k) (x := x) hab hb
  rw [max_eq_right hend] at hgrow
  rw [covered_cons, covered_cons, covered_cons, hgrow, or_assoc]

/-- The first range is filled up from the second one, which overlaps it. -/
theorem covered_fill {a n b k m x : Nat} {rs : List (Nat × Nat)} (hab : a ≤ b) (hb : b ≤ a + n)
    (hn : n ≤ m) (hend : a + m < b + k) :
    Covered ((a, m) :: (b + (m - n), k - (m - n)) :: rs) x ↔
      Covered ((a, n) :: (b, k) :: rs) x := by
  rw [covered_cons, covered_cons, covered_cons, covered_cons, ← or_assoc, ← or_assoc]
  refine or_congr ?_ Iff.rfl
  unfold InRange
  dsimp only
  omega

/-! ## Runs of the loop -/

/-- A merge that returns came to the end, and in the checked build it did not meet a
segment inside the merged one. -/
theorem Ahead.returns (build : Build) : ∀ (fuel : Nat) {l l' : SegmentList} {i : Int} {s : Segment}
    {nodes : List Int} {rs : List (Nat × Nat)}, l.Ahead i s nodes rs →
    mergeLoopIn build fuel l i s.next = .ok l' →
    ComesToEnd s.seq s.length rs ∧ (build = .checked → ¬ MeetsContained s.seq s.length rs) := by
  intro fuel
  induction fuel with
  | zero =>
    intro l l' i s nodes rs _ hcall
    cases hcall
  | succ fuel ih =>
    intro l l' i s nodes rs h hcall
    have htrail := h.trail
    generalize hk : s.next = k at hcall htrail
    cases htrail with
    | nil => exact ⟨trivial, fun _ => id⟩
    | @cons _ t nodes rs ht hj hrest =>
      cases h.turned ht hj hrest hcall with
      | gap _ hcall => exact ih h (hk ▸ hcall)
      | whole l₁ hreach hend hfits hl₁ hahead hcall =>
        obtain ⟨hends, hfree⟩ := ih hahead hcall
        refine ⟨⟨hreach, fun _ => hends⟩, fun hb hmeets => ?_⟩
        have hle := hend hb
        rcases hmeets.2 with hlt | ⟨-, hlater⟩
        · omega
        · exact hfree hb hlater
      | part hreach hlarge _ =>
        have hs16 := h.short
        refine ⟨⟨hreach, fun hle => absurd hle (by omega)⟩, fun _ hmeets => ?_⟩
        rcases hmeets.2 with hlt | ⟨hle, -⟩ <;> omega

/-- A merge that returns and met no such segment has kept what is covered, and the checked
build returns the same. -/
theorem Ahead.covers (build : Build) : ∀ (fuel : Nat) {l l' : SegmentList} {i : Int} {s : Segment}
    {nodes : List Int} {rs : List (Nat × Nat)}, l.Ahead i s nodes rs →
    mergeLoopIn build fuel l i s.next = .ok l' → ¬ MeetsContained s.seq s.length rs →
    mergeLoopIn .checked fuel l i s.next = .ok l' ∧
    ∃ nodes' rs', l'.Trail i nodes' rs' ∧ (∀ r ∈ rs', r.2 ≤ u16Max) ∧
      ∀ x, Covered rs' x ↔ Covered ((s.seq, s.length) :: rs) x := by
  intro fuel
  induction fuel with
  | zero =>
    intro l l' i s nodes rs _ hcall
    cases hcall
  | succ fuel ih =>
    intro l l' i s nodes rs h hcall hfree
    have htrail := h.trail
    generalize hk : s.next = k at hcall htrail ⊢
    cases htrail with
    | nil =>
      cases hcall
      refine ⟨rfl, _, _, .cons_of h.node rfl rfl hk List.not_mem_nil .nil, ?_, fun x => Iff.rfl⟩
      exact fun r hr => (h.placed r hr).short
    | @cons _ t nodes rs ht hj hrest =>
      have hle := h.start_le
      cases h.turned ht hj hrest hcall with
      | gap hgap hcall =>
        obtain ⟨hsame, hleft⟩ := ih h (hk ▸ hcall) hfree
        refine ⟨?_, hleft⟩
        rw [h.turn ht, if_neg (by omega), ← hk]
        exact hsame
      | whole l₁ hreach _ hfits hl₁ hahead hcall =>
        have hend : s.seq + s.length ≤ t.seq + t.length := by
          by_contra hlt
          exact hfree ⟨hreach, .inl (by omega)⟩
        obtain ⟨hsame, nodes', rs', htr', hshort, hcov⟩ :=
          ih hahead hcall (fun hlater => hfree ⟨hreach, .inr ⟨hfits, hlater⟩⟩)
        refine ⟨?_, nodes', rs', htr', hshort, fun x => (hcov x).trans ?_⟩
        · rw [h.turn_whole .checked fuel ht hreach hfits hl₁ (fun _ => hend)]
          exact hsame
        · exact covered_absorb hle (h.reach_le hreach) hend
      | part hreach hlarge hcall =>
        have hs16 := h.short
        have hreach' := h.reach_le hreach
        obtain ⟨l₁, hl₁, -, htr₁⟩ := h.part ht hj hrest hk hreach' hlarge
        rw [hl₁ build] at hcall
        cases hcall
        refine ⟨?_, _, _, htr₁, ?_, fun x => covered_fill hle hreach' hs16 hlarge⟩
        · rw [h.turn_part .checked fuel ht hreach hlarge, hl₁]
        · intro r hr
          have hplaced := h.placed
          simp only [List.mem_cons, forall_eq_or_imp] at hr hplaced
          rcases hr with rfl | rfl | hr
          · exact Nat.le_refl _
          · exact Nat.le_trans (Nat.sub_le _ _) hplaced.2.1.short
          · exact (hplaced.2.2 r hr).short

/-- In the release build a merge that comes to the end returns. -/
theorem Ahead.release_returns {rs : List (Nat × Nat)} : ∀ {l : SegmentList} {i : Int} {s : Segment}
    {nodes : List Int}, l.Ahead i s nodes rs → ComesToEnd s.seq s.length rs →
    ∃ l', mergeLoopIn .release (rs.length + 1) l i s.next = .ok l' := by
  induction rs with
  | nil =>
    intro l i s nodes h _
    have htrail := h.trail
    generalize s.next = k at htrail ⊢
    cases htrail
    exact ⟨l, rfl⟩
  | cons r rs ih =>
    intro l i s nodes h hends
    have htrail := h.trail
    generalize hk : s.next = k at htrail ⊢
    cases htrail with
    | @cons _ t nodes rs ht hj hrest =>
      have hreach : t.seq ≤ s.stop := hends.1
      by_cases hfits : t.seq + t.length ≤ s.seq + u16Max
      · obtain ⟨l₁, hl₁, hahead⟩ := h.absorb ht hj hrest hfits
        obtain ⟨l', hl'⟩ := ih hahead (hends.2 hfits)
        refine ⟨l', ?_⟩
        rw [List.length_cons, h.turn_whole .release _ ht hreach hfits hl₁ (by simp)]
        exact hl'
      · have hreach' := h.reach_le hreach
        obtain ⟨l₁, hl₁, -⟩ := h.part ht hj hrest hk hreach' (by omega)
        refine ⟨l₁, ?_⟩
        rw [List.length_cons, h.turn_part .release _ ht hreach (by omega), hl₁]

/-! ## Merging at a node -/

/-- What a call of `merge_at_idx` that returns has to keep: no subtraction went below zero,
as the checked build returns the same, the node and those behind it cover what they covered,
and the lengths fit 16 bits. -/
def KeepsCoverage (build : Build) (l : SegmentList) (i : Int) (rs : List (Nat × Nat)) : Prop :=
  ∀ fuel l', mergeAtIdxIn build fuel l i = .ok l' →
    mergeAtIdxIn .checked fuel l i = .ok l' ∧
    ∃ nodes' rs', l'.Trail i nodes' rs' ∧ (∀ r ∈ rs', r.2 ≤ u16Max) ∧
      ∀ x, Covered rs' x ↔ Covered rs x

theorem mergeAtIdxIn_of_owns (build : Build) {fuel : Nat} {l : SegmentList} {i : Int} {s : Segment}
    (hs : l.Owns i s) : mergeAtIdxIn build fuel l i = mergeLoopIn build fuel l i s.next := by
  rw [mergeAtIdxIn, seg_of_get? hs.node, bind_ok]

/-- On a list that is sorted by start and does not cross `2 ^ 32`, `merge_at_idx` keeps what
is covered unless, in the release build, it meets a segment inside the merged one and
returns nevertheless. -/
theorem mergeAtIdxIn_keeps_iff (build : Build) {l : SegmentList} {i : Int} {nodes : List Int}
    {a n : Nat} {rs : List (Nat × Nat)} (hp : l.Pool) (htrail : l.Trail i nodes ((a, n) :: rs))
    (hsorted : SortedByStart ((a, n) :: rs)) (hplaced : ∀ r ∈ (a, n) :: rs, Placed r) :
    KeepsCoverage build l i ((a, n) :: rs) ↔
      build = .checked ∨ ¬ (ComesToEnd a n rs ∧ MeetsContained a n rs) := by
  cases htrail with
  | @cons _ s nodes _ hs hi hrest =>
    have hahead : l.Ahead i s nodes rs := ⟨hp, hs, hi, hrest, hsorted, hplaced⟩
    have hcall : ∀ build fuel, mergeAtIdxIn build fuel l i = mergeLoopIn build fuel l i s.next :=
      fun build _ => mergeAtIdxIn_of_owns build hs
    unfold KeepsCoverage
    simp only [hcall]
    constructor
    · intro hkeeps
      cases build with
      | checked => exact .inl rfl
      | release =>
        refine .inr ?_
        intro hloses
        -- the release build returns, so the checked one would have to
        obtain ⟨l', hl'⟩ := hahead.release_returns hloses.1
        have hchecked := (hahead.returns .checked _ (hkeeps _ l' hl').1).2
        exact hchecked rfl hloses.2
    · intro hor fuel l' hl'
      obtain ⟨hends, hfree⟩ := hahead.returns build fuel hl'
      have hno : ¬ MeetsContained s.seq s.length rs := by
        rcases hor with hb | hno
        · exact hfree hb
        · exact fun hmeets => hno ⟨hends, hmeets⟩
      exact hahead.covers build fuel hl' hno

/-- Two segments, of which the second one lies at `b`. -/
def twoSegments (n b k : Nat) : SegmentList :=
  { storage := [{ prev := -1, seq := 0, length := n, next := 1, idx := 0 },
                { prev := 0, seq := b, length := k, next := -1, idx := 1 }]
    available := []
    head := 0
    tail := 1 }

theorem twoSegments_trail (n b k : Nat) :
    (twoSegments n b k).Pool ∧ (twoSegments n b k).Trail 0 [0, 1] [(0, n), (b, k)] := by
  have hfree : ∀ i : Int, i ∉ (twoSegments n b k).available := fun i => List.not_mem_nil
  refine ⟨⟨fun i hi => absurd hi (hfree i), List.nodup_nil⟩, ?_⟩
  have htail : (twoSegments n b k).Trail 1 [1] [(b, k)] :=
    .cons_of ⟨rfl, hfree 1⟩ rfl rfl rfl List.not_mem_nil .nil
  exact .cons_of ⟨rfl, hfree 0⟩ rfl rfl rfl (by decide) htail

/-- `[0, 100)` with `[10, 30)` behind it: the checked build panics, and the release build
returns a list that covers `[0, 30)` only. -/
theorem mergeAtIdxIn_release_loses :
    SortedByStart [(0, 100), (10, 20)] ∧ (∀ r ∈ [(0, 100), (10, 20)], Placed r) ∧
    mergeAtIdxIn .checked 2 (twoSegments 100 10 20) 0 = .panic .overflow ∧
    ∃ l', mergeAtIdxIn .release 2 (twoSegments 100 10 20) 0 = .ok l' ∧
      l'.Trail 0 [0] [(0, 30)] ∧ Covered [(0, 100), (10, 20)] 50 ∧ ¬ Covered [(0, 30)] 50 := by
  refine ⟨by simp [SortedByStart], ?_, rfl, _, rfl, ?_, ?_, ?_⟩
  · intro r hr
    simp only [List.mem_cons, List.not_mem_nil, or_false] at hr
    rcases hr with rfl | rfl <;> exact ⟨by decide, by decide, by decide⟩
  · exact .cons_of ⟨rfl, by decide⟩ rfl rfl rfl List.not_mem_nil .nil
  · simp [Covered, InRange]
  · simp [Covered, InRange]

/-- `[0, 100)` with `[100, 120)` behind it, in the release build. -/
theorem mergeAtIdxIn_keeps_touching :
    KeepsCoverage .release (twoSegments 100 100 20) 0 [(0, 100), (100, 20)] := by
  obtain ⟨hp, htrail⟩ := twoSegments_trail 100 100 20
  refine (mergeAtIdxIn_keeps_iff .release hp htrail (by simp [SortedByStart]) ?_).mpr (.inr ?_)
  · intro r hr
    simp only [List.mem_cons, List.not_mem_nil, or_false] at hr
    rcases hr with rfl | rfl <;> exact ⟨by decide, by decide, by decide⟩
  · simp [MeetsContained]

/-! ## The checked build -/

/-- Every length in the storage fits 16 bits. -/
def Short (l : SegmentList) : Prop := ∀ s ∈ l.storage, s.length ≤ u16Max

theorem Short.get? {l : SegmentList} (h : l.Short) {i : Int} {s : Segment}
    (hs : l.get? i = some s) : s.length ≤ u16Max :=
  h s (List.mem_of_getElem? (get?_eq_some.mp hs).2)

theorem Short.modify {l l' : SegmentList} (h : l.Short) {i : Int} {f : Segment → Segment}
    (hm : l.modify i f = .ok l') (hf : ∀ s, s.length ≤ u16Max → (f s).length ≤ u16Max) :
    l'.Short := by
  obtain ⟨s, hs, rfl⟩ := modify_eq_ok.mp hm
  intro t ht
  rcases List.mem_or_eq_of_mem_set ht with ht | rfl
  · exact h t ht
  · exact hf s (h.get? hs)

theorem Short.mergeNext {l l' : SegmentList} (h : l.Short) {i j k : Int} {newLen : Nat}
    (hlen : newLen ≤ u16Max) (hm : l.mergeNext i j newLen = .ok (k, l')) : l'.Short := by
  unfold SegmentList.mergeNext at hm
  obtain ⟨l₁, hl₁, hm⟩ := bind_eq_ok.mp hm
  obtain ⟨freed, -, hm⟩ := bind_eq_ok.mp hm
  obtain ⟨l₂, hl₂, hm⟩ := bind_eq_ok.mp hm
  obtain ⟨l₃, hl₃, hm⟩ := bind_eq_ok.mp hm
  obtain ⟨l₄, hl₄, hm⟩ := bind_eq_ok.mp hm
  cases hm
  have h₂ : l₂.Short := (h.modify hl₁ (fun _ _ => hlen)).modify hl₂ (fun _ hs => hs)
  have h₃ : l₃.Short := by
    unfold linkBack at hl₃
    split at hl₃
    · exact h₂.modify hl₃ (fun _ hs => hs)
    · cases hl₃
      exact h₂
  obtain ⟨l₅, hl₅, rfl⟩ := removeNode_eq_ok.mp hl₄
  have h₅ : l₅.Short := h₃.modify hl₅ (fun _ _ => Nat.zero_le u16Max)
  exact h₅

/-- With overflow checks the second branch is the one of the model. -/
theorem mergePartIn_checked {l : SegmentList} {i j : Int} {s : Segment} (hs : l.get? i = some s)
    (hshort : s.length ≤ u16Max) :
    l.mergePartIn .checked i j s.length = l.mergePart i j s.length := by
  have hgrown : s.length + (u16Max - s.length) < 2 ^ 16 := by
    unfold u16Max at *
    omega
  rw [mergePartIn, mergePart, Build.sub_of_le .checked hshort (by decide), checkedSub_of_le hshort,
    bind_ok, bind_ok, seg_of_get? hs, bind_ok, Build.add_of_lt .checked hgrown, bind_ok,
    modify_of_get? hs, modify_of_get? hs]
  rfl

/-- With overflow checks the loop is the one of the model. -/
theorem mergeLoopIn_checked : ∀ (fuel : Nat) {l : SegmentList} {i j : Int}, l.Short →
    mergeLoopIn .checked fuel l i j = mergeLoop fuel l i j := by
  intro fuel
  induction fuel with
  | zero =>
    intro l i j _
    rfl
  | succ fuel ih =>
    intro l i j h
    unfold mergeLoopIn mergeLoop
    split
    · rfl
    cases hs : l.get? i with
    | none => rw [seg_of_none hs, bind_panic, bind_panic]
    | some s =>
      rw [seg_of_get? hs, bind_ok, bind_ok]
      cases ht : l.get? j with
      | none => rw [seg_of_none ht, bind_panic, bind_panic]
      | some t =>
        rw [seg_of_get? ht, bind_ok, bind_ok]
        split
        · have hs16 : s.length ≤ u16Max := h.get? hs
          have ht16 : t.length ≤ u16Max := h.get? ht
          unfold mergedLength Build.sub
          simp only [bind_assoc]
          congr 1
          funext overlap
          cases hsub : checkedSub t.length overlap with
          | panic w => rfl
          | timeout => rfl
          | ok mergeLen =>
            obtain ⟨-, hlen⟩ := checkedSub_eq_ok.mp hsub
            have hfits : mergeLen + s.length < 2 ^ 64 := by
              unfold u16Max at *
              omega
            rw [bind_ok, bind_ok, Build.add_of_lt .checked hfits, bind_ok]
            split
            · next hle =>
              cases hm : l.mergeNext i j (mergeLen + s.length) with
              | panic w => rfl
              | timeout => rfl
              | ok r => exact ih (h.mergeNext hle hm)
            · exact mergePartIn_checked hs hs16
        · exact ih h

theorem mergeAtIdxIn_checked {fuel : Nat} {l : SegmentList} {i : Int} (h : l.Short) :
    mergeAtIdxIn .checked fuel l i = mergeAtIdx fuel l i := by
  unfold mergeAtIdxIn mergeAtIdx
  congr 1
  funext s
  exact mergeLoopIn_checked fuel h

end SegmentList

end NetBricks.State
