import NetBricks.State.SegmentList

/-!
# What the segment list records

A property `Q` of sequence numbers that holds throughout every segment of the
list (`AllCover`) survives merging, whatever the links look like: a merge gives
the first segment exactly the range the two had together
(`mergeLoop_covers`). For a segment inserted at the head this gives the one fact
the reassembly relies on (`insertSegment_covers`): the head segment reaches the
end of what was inserted, and everything it records has `Q`.

No assumption is made about the shape of the list. The one way links could spoil
the argument — a merge that frees the node it is extending — never returns
(`mergeLoop_self`).
-/

namespace NetBricks.State

open Lib
open Lib.Outcome

namespace SegmentList

/-- Every sequence number in the segment has `Q`. -/
def Covers (Q : Nat → Prop) (s : Segment) : Prop := ∀ j, j < s.length → Q (wrappingAdd 32 s.seq j)

/-- Every segment in the storage is covered. -/
def AllCover (Q : Nat → Prop) (l : SegmentList) : Prop := ∀ s ∈ l.storage, Covers Q s

theorem AllCover.get? {Q : Nat → Prop} {l : SegmentList} (h : AllCover Q l) {i : Int}
    {s : Segment} (hs : l.get? i = some s) : Covers Q s :=
  h s (List.mem_of_getElem? (get?_eq_some.mp hs).2)

theorem AllCover.update {Q : Nat → Prop} {l : SegmentList} (h : AllCover Q l) (i : Int)
    {t : Segment} (ht : Covers Q t) : AllCover Q (l.update i t) := by
  intro s hs
  rcases List.mem_or_eq_of_mem_set hs with hs | rfl
  · exact h s hs
  · exact ht

/-- An update keeps the coverage when the new node has it. -/
theorem AllCover.modify {Q : Nat → Prop} {l l' : SegmentList} (h : AllCover Q l) {i : Int}
    {f : Segment → Segment} (hm : l.modify i f = .ok l')
    (hf : ∀ s, l.get? i = some s → Covers Q (f s)) : AllCover Q l' := by
  obtain ⟨s, hs, rfl⟩ := modify_eq_ok.mp hm
  exact h.update i (hf s hs)

/-- A link update keeps the coverage. -/
theorem AllCover.modify_links {Q : Nat → Prop} {l l' : SegmentList} (h : AllCover Q l) {i : Int}
    {f : Segment → Segment} (hm : l.modify i f = .ok l')
    (hf : ∀ s, (f s).seq = s.seq ∧ (f s).length = s.length) : AllCover Q l' := by
  refine h.modify hm (fun s hs => ?_)
  have hcov := h.get? hs
  unfold Covers at hcov ⊢
  rw [(hf s).1, (hf s).2]
  exact hcov

theorem covers_of_length_zero {Q : Nat → Prop} {s : Segment} (h : s.length = 0) : Covers Q s := by
  intro j hj
  rw [h] at hj
  exact absurd hj (Nat.not_lt_zero j)

/-! ## Merging -/

/-- The range of the merged segment is the range of the two. -/
theorem covers_merge {Q : Nat → Prop} {s n : Segment} (hs : Covers Q s) (hn : Covers Q n)
    {newLen : Nat} (hreach : n.seq ≤ s.stop) (hin : s.stop - n.seq ≤ n.length)
    (hle : newLen ≤ n.length - (s.stop - n.seq) + s.length)
    (t : Segment) (hseq : t.seq = s.seq) (hlen : t.length = newLen) : Covers Q t := by
  intro j hj
  rw [hlen] at hj
  rw [hseq]
  by_cases hfirst : j < s.length
  · exact hs j hfirst
  · -- past the first segment: the same sequence number, counted from the second one
    have hshift : wrappingAdd 32 s.seq j =
        wrappingAdd 32 n.seq (s.stop - n.seq + (j - s.length)) := by
      have hstop : s.stop = (s.seq + s.length) % 2 ^ 32 := rfl
      have hj' : s.seq + j = s.seq + s.length + (j - s.length) := by omega
      unfold wrappingAdd
      rw [hj', ← Nat.mod_add_mod, ← hstop, ← Nat.add_assoc, Nat.add_sub_cancel' hreach]
    rw [hshift]
    exact hn _ (by omega)

theorem linkBack_eq_ok {l l' : SegmentList} {node prev : Int} (h : l.linkBack node prev = .ok l') :
    l' = l ∨ l.modify node (fun s => { s with prev := prev }) = .ok l' := by
  unfold linkBack at h
  split at h
  · exact Or.inr h
  · exact Or.inl (Outcome.ok.inj h).symm

/-- Freeing the node that is being extended leaves its link to itself. -/
theorem mergeNext_self {l l' : SegmentList} {idx next : Int} {newLen : Nat} {s : Segment}
    (hs : l.get? idx = some s) (hnext : s.next = idx)
    (h : l.mergeNext idx idx newLen = .ok (next, l')) :
    next = idx ∧ ∃ s', l'.get? idx = some s' ∧ s'.next = idx := by
  unfold mergeNext at h
  rw [bind_eq_ok] at h
  obtain ⟨l₁, hl₁, h⟩ := h
  have hs₁ := get?_of_modify hl₁ hs
  rw [if_pos rfl] at hs₁
  rw [seg_of_get? hs₁, bind_ok, bind_eq_ok] at h
  obtain ⟨l₂, hl₂, h⟩ := h
  have hs₂ := get?_of_modify hl₂ hs₁
  rw [if_pos rfl] at hs₂
  rw [bind_eq_ok] at h
  obtain ⟨l₃, hl₃, h⟩ := h
  rw [bind_eq_ok] at h
  obtain ⟨l₄, hl₄, h⟩ := h
  cases h
  obtain ⟨l₅, hl₅, rfl⟩ := removeNode_eq_ok.mp hl₄
  refine ⟨hnext, ?_⟩
  rcases linkBack_eq_ok hl₃ with rfl | hl₃
  · have hs₄ := get?_of_modify hl₅ hs₂
    rw [if_pos rfl] at hs₄
    exact ⟨_, hs₄, hnext⟩
  · have hs₄ := get?_of_modify hl₅ (get?_of_modify hl₃ hs₂)
    rw [if_pos rfl] at hs₄
    refine ⟨_, hs₄, ?_⟩
    split <;> exact hnext

/-- A merge that would free the node it extends does not return. -/
theorem mergeLoop_self {idx : Int} :
    ∀ (fuel : Nat) {l l' : SegmentList} {s : Segment}, l.get? idx = some s → s.next = idx →
      mergeLoop fuel l idx idx ≠ .ok l' := by
  intro fuel
  induction fuel with
  | zero => intro l l' s _ _ h; cases h
  | succ fuel ih =>
    intro l l' s hs hnext h
    cases mergeLoop_turn hs hs h with
    | all _ _ _ h =>
      rw [bind_eq_ok] at h
      obtain ⟨⟨next, l₁⟩, hl₁, h⟩ := h
      obtain ⟨rfl, s', hs', hnext'⟩ := mergeNext_self hs hnext hl₁
      exact ih hs' hnext' h
    | part hreach hin hlarge h =>
      -- the lengths only add up to more than 16 bits when the segment itself has more
      unfold mergePart at h
      rw [bind_eq_ok] at h
      obtain ⟨maxLen, hmax, -⟩ := h
      obtain ⟨hle, -⟩ := checkedSub_eq_ok.mp hmax
      have hstop : s.stop = (s.seq + s.length) % 2 ^ 32 := rfl
      unfold u16Max at *
      omega
    | again h => exact ih hs hnext h

theorem mergeNext_covers {Q : Nat → Prop} {l l' : SegmentList} {idx next next' : Int}
    {newLen : Nat} {s n : Segment} (hcov : AllCover Q l) (hs : l.get? idx = some s)
    (hn : l.get? next = some n) (hne : next ≠ idx) (hnew : Covers Q { s with length := newLen })
    (h : l.mergeNext idx next newLen = .ok (next', l')) :
    next' = n.next ∧ AllCover Q l' ∧ l'.head = l.head ∧ ∃ s', l'.get? idx = some s' ∧
      s'.seq = s.seq ∧ s'.length = newLen ∧ s'.next = n.next := by
  unfold mergeNext at h
  rw [bind_eq_ok] at h
  obtain ⟨l₁, hl₁, h⟩ := h
  have hs₁ := get?_of_modify hl₁ hs
  rw [if_pos rfl] at hs₁
  have hn₁ := get?_of_modify hl₁ hn
  rw [if_neg (fun e => hne e.symm)] at hn₁
  rw [seg_of_get? hn₁, bind_ok, bind_eq_ok] at h
  obtain ⟨l₂, hl₂, h⟩ := h
  have hs₂ := get?_of_modify hl₂ hs₁
  rw [if_pos rfl] at hs₂
  rw [bind_eq_ok] at h
  obtain ⟨l₃, hl₃, h⟩ := h
  rw [bind_eq_ok] at h
  obtain ⟨l₄, hl₄, h⟩ := h
  cases h
  have hcov₁ : AllCover Q l₁ := hcov.modify hl₁ (fun t ht => by
    rw [hs] at ht
    cases ht
    exact hnew)
  have hcov₂ : AllCover Q l₂ := hcov₁.modify_links hl₂ (fun _ => ⟨rfl, rfl⟩)
  -- setting the back link of the segment after may touch the node, but not its range
  obtain ⟨hcov₃, hhead₃, s₃, hs₃, hs₃'⟩ :
      AllCover Q l₃ ∧ l₃.head = l₂.head ∧ ∃ s₃, l₃.get? idx = some s₃ ∧ s₃.seq = s.seq ∧
        s₃.length = newLen ∧ s₃.next = n.next := by
    rcases linkBack_eq_ok hl₃ with rfl | hl₃
    · exact ⟨hcov₂, rfl, _, hs₂, rfl, rfl, rfl⟩
    · refine ⟨hcov₂.modify_links hl₃ (fun _ => ⟨rfl, rfl⟩), head_of_modify hl₃, _,
        get?_of_modify hl₃ hs₂, ?_⟩
      split <;> exact ⟨rfl, rfl, rfl⟩
  obtain ⟨l₅, hl₅, rfl⟩ := removeNode_eq_ok.mp hl₄
  have hs₄ := get?_of_modify hl₅ hs₃
  rw [if_neg hne] at hs₄
  have hcov₄ : AllCover Q l₅ := hcov₃.modify hl₅ (fun t _ => covers_of_length_zero rfl)
  refine ⟨rfl, hcov₄, ?_, s₃, hs₄, hs₃'⟩
  show l₅.head = l.head
  rw [head_of_modify hl₅, hhead₃, head_of_modify hl₂, head_of_modify hl₁]

/-- Moving over the part of the next segment that fits. -/
theorem mergePart_covers {l l' : SegmentList} {idx next : Int} {s : Segment}
    (hs : l.get? idx = some s) (hne : next ≠ idx) (h : l.mergePart idx next s.length = .ok l') :
    s.length ≤ u16Max ∧ l'.head = l.head ∧ l'.get? idx = some { s with length := u16Max } := by
  unfold mergePart at h
  rw [bind_eq_ok] at h
  obtain ⟨maxLen, hmax, h⟩ := h
  obtain ⟨hle, hmax⟩ := checkedSub_eq_ok.mp hmax
  rw [bind_eq_ok] at h
  obtain ⟨l₁, hl₁, h⟩ := h
  rw [bind_eq_ok] at h
  obtain ⟨m, hm, h⟩ := h
  rw [bind_eq_ok] at h
  obtain ⟨rest, -, h⟩ := h
  have hs₁ := get?_of_modify hl₁ hs
  rw [if_pos rfl] at hs₁
  have hs₂ := get?_of_modify h hs₁
  rw [if_neg hne, show s.length + maxLen = u16Max by omega] at hs₂
  refine ⟨hle, ?_, hs₂⟩
  rw [head_of_modify h, head_of_modify hl₁]

/-- Merging at a node keeps the coverage, the head of the list and the start of
the node's range; the node's range does not shrink. -/
theorem mergeLoop_covers {Q : Nat → Prop} {idx : Int} :
    ∀ (fuel : Nat) {l l' : SegmentList} {next : Int} {s : Segment}, AllCover Q l →
      l.get? idx = some s → s.next = next → mergeLoop fuel l idx next = .ok l' →
      l'.head = l.head ∧ ∃ s', l'.get? idx = some s' ∧ s'.seq = s.seq ∧ Covers Q s' ∧
        s.length ≤ s'.length ∧ (s.length ≤ u16Max → s'.length ≤ u16Max) := by
  intro fuel
  induction fuel with
  | zero => intro l l' next s _ _ _ h; cases h
  | succ fuel ih =>
    intro l l' next s hcov hs hnext h
    by_cases hself : next = idx
    · rw [hself] at h
      exact absurd h (mergeLoop_self _ hs (hnext.trans hself))
    rcases mergeLoop_eq_ok hs h with ⟨-, rfl⟩ | ⟨n, hn, hturn⟩
    · exact ⟨rfl, s, hs, rfl, hcov.get? hs, Nat.le_refl _, id⟩
    have hmerged := @covers_merge Q s n (hcov.get? hs) (hcov.get? hn)
    cases hturn with
    | all hreach hin hfits h =>
      rw [bind_eq_ok] at h
      obtain ⟨⟨next', l₁⟩, hl₁, h⟩ := h
      have hnew : Covers Q { s with length := n.length - (s.stop - n.seq) + s.length } :=
        hmerged hreach hin (Nat.le_refl _) _ rfl rfl
      obtain ⟨rfl, hcov₁, hhead₁, s₁, hs₁, hseq₁, hlen₁, hnext₁⟩ :=
        mergeNext_covers hcov hs hn hself hnew hl₁
      obtain ⟨hhead, s', hs', hseq', hcov', hle', hmax'⟩ := ih hcov₁ hs₁ hnext₁ h
      rw [hlen₁] at hle' hmax'
      exact ⟨hhead.trans hhead₁, s', hs', hseq'.trans hseq₁, hcov',
        Nat.le_trans (Nat.le_add_left _ _) hle', fun _ => hmax' hfits⟩
    | part hreach hin hlarge h =>
      obtain ⟨hle, hhead, hs'⟩ := mergePart_covers hs hself h
      exact ⟨hhead, _, hs', rfl, hmerged hreach hin (Nat.le_of_lt hlarge) _ rfl rfl, hle,
        fun _ => Nat.le_refl _⟩
    | again h => exact ih hcov hs hnext h

theorem mergeAtIdx_covers {Q : Nat → Prop} {fuel : Nat} {l l' : SegmentList} {idx : Int}
    {s : Segment} (hcov : AllCover Q l) (hs : l.get? idx = some s)
    (h : mergeAtIdx fuel l idx = .ok l') :
    l'.head = l.head ∧ ∃ s', l'.get? idx = some s' ∧ s'.seq = s.seq ∧ Covers Q s' ∧
      s.length ≤ s'.length ∧ (s.length ≤ u16Max → s'.length ≤ u16Max) := by
  unfold mergeAtIdx at h
  rw [seg_of_get? hs, bind_ok] at h
  exact mergeLoop_covers fuel hcov hs rfl h

/-! ## Insertion -/

theorem findAvailableNode_covers {Q : Nat → Prop} {l : SegmentList} (h : AllCover Q l) :
    AllCover Q l.findAvailableNode.2 := by
  unfold findAvailableNode
  split
  · exact h
  · intro s hs
    rcases List.mem_append.mp hs with hs | hs
    · exact h s hs
    · rw [List.mem_singleton.mp hs]
      exact covers_of_length_zero rfl

theorem insertBeforeNode_covers {Q : Nat → Prop} {l l' : SegmentList} {next idx : Int}
    {seq len : Nat} (hcov : AllCover Q l) (hnew : ∀ j, j < len → Q (wrappingAdd 32 seq j))
    (h : l.insertBeforeNode next seq len = .ok (idx, l')) :
    AllCover Q l' ∧ ∃ s, l'.get? idx = some s ∧ s.seq = seq ∧ s.length = len := by
  unfold insertBeforeNode at h
  have hcov₀ := findAvailableNode_covers hcov
  generalize l.findAvailableNode = r at h hcov₀
  obtain ⟨i, l₀⟩ := r
  dsimp only at h hcov₀
  rw [bind_eq_ok] at h
  obtain ⟨l₁, hl₁, h⟩ := h
  have hcov₁ : AllCover Q l₁ := hcov₀.modify hl₁ (fun t _ => hnew)
  obtain ⟨s₀, hs₀, -⟩ := modify_eq_ok.mp hl₁
  have hs₁ := get?_of_modify hl₁ hs₀
  rw [if_pos rfl] at hs₁
  split at h
  · rw [bind_eq_ok] at h
    obtain ⟨n, -, h⟩ := h
    rw [bind_eq_ok] at h
    obtain ⟨l₂, hl₂, h⟩ := h
    rw [bind_eq_ok] at h
    obtain ⟨l₃, hl₃, h⟩ := h
    have hcov₃ : AllCover Q l₃ :=
      (hcov₁.modify_links hl₂ (fun _ => ⟨rfl, rfl⟩)).modify_links hl₃ (fun _ => ⟨rfl, rfl⟩)
    have hs₂ := get?_of_modify hl₂ hs₁
    rw [if_pos rfl] at hs₂
    have hs₃ := get?_of_modify hl₃ hs₂
    split at h
    · rw [bind_eq_ok] at h
      obtain ⟨l₄, hl₄, h⟩ := h
      cases h
      refine ⟨hcov₃.modify_links hl₄ (fun _ => ⟨rfl, rfl⟩), _, get?_of_modify hl₄ hs₃, ?_⟩
      split <;> split <;> exact ⟨rfl, rfl⟩
    · cases h
      refine ⟨hcov₃, _, hs₃, ?_⟩
      split <;> exact ⟨rfl, rfl⟩
  · rw [bind_eq_ok] at h
    obtain ⟨l₂, hl₂, h⟩ := h
    cases h
    have hs₂ := get?_of_modify hl₂ hs₁
    rw [if_pos rfl] at hs₂
    exact ⟨hcov₁.modify_links hl₂ (fun _ => ⟨rfl, rfl⟩), _, hs₂, rfl, rfl⟩

theorem insertAtTail_covers {Q : Nat → Prop} {l l' : SegmentList} {idx : Int} {seq len : Nat}
    (hnew : ∀ j, j < len → Q (wrappingAdd 32 seq j)) (h : l.insertAtTail seq len = .ok (idx, l')) :
    ∃ s, l'.get? idx = some s ∧ s.seq = seq ∧ s.length = len ∧ Covers Q s := by
  unfold insertAtTail at h
  generalize l.findAvailableNode = r at h
  obtain ⟨i, l₀⟩ := r
  dsimp only at h
  rw [bind_eq_ok] at h
  obtain ⟨l₁, hl₁, h⟩ := h
  rw [bind_eq_ok] at h
  obtain ⟨l₂, hl₂, h⟩ := h
  cases h
  obtain ⟨s₀, hs₀, -⟩ := modify_eq_ok.mp hl₁
  have hs₁ := get?_of_modify hl₁ hs₀
  rw [if_pos rfl] at hs₁
  have hs₂ := get?_of_modify hl₂ hs₁
  refine ⟨_, hs₂, ?_⟩
  split <;> exact ⟨rfl, rfl, hnew⟩

theorem findAvailableNode_head (l : SegmentList) : l.findAvailableNode.2.head = l.head := by
  unfold findAvailableNode
  split <;> rfl

theorem insertAfterNode_head {l l' : SegmentList} {prev idx : Int} {seq len : Nat}
    (h : l.insertAfterNode prev seq len = .ok (idx, l')) : l'.head = l.head := by
  unfold insertAfterNode at h
  have hhead := findAvailableNode_head l
  generalize l.findAvailableNode = r at h hhead
  obtain ⟨i, l₀⟩ := r
  dsimp only at h hhead
  rw [bind_eq_ok] at h
  obtain ⟨l₁, hl₁, h⟩ := h
  rw [bind_eq_ok] at h
  obtain ⟨p, -, h⟩ := h
  rw [bind_eq_ok] at h
  obtain ⟨l₂, hl₂, h⟩ := h
  rw [bind_eq_ok] at h
  obtain ⟨l₃, hl₃, h⟩ := h
  rw [bind_eq_ok] at h
  obtain ⟨s, -, h⟩ := h
  have hl : l₃.head = l.head := by
    rw [head_of_modify hl₃, head_of_modify hl₂, head_of_modify hl₁, hhead]
  split at h
  · cases h
    exact hl
  · cases h
    exact hl

/-- Extending a segment returns that segment and leaves the head alone. -/
theorem extend_head {l l' : SegmentList} {i idx : Int} {length seq len : Nat}
    (h : l.extend i length seq len = .ok (idx, l')) : idx = i ∧ l'.head = l.head := by
  unfold extend at h
  split at h
  · rw [bind_eq_ok] at h
    obtain ⟨l₁, hl₁, h⟩ := h
    cases h
    exact ⟨rfl, head_of_modify hl₁⟩
  · rw [bind_eq_ok] at h
    obtain ⟨maxLen, -, h⟩ := h
    rw [bind_eq_ok] at h
    obtain ⟨l₁, hl₁, h⟩ := h
    rw [bind_eq_ok] at h
    obtain ⟨lenNew, -, h⟩ := h
    rw [bind_eq_ok] at h
    obtain ⟨⟨j, l₂⟩, hl₂, h⟩ := h
    cases h
    exact ⟨rfl, by rw [insertAfterNode_head hl₂, head_of_modify hl₁]⟩

theorem stretch_eq_ok {l l' : SegmentList} {i idx : Int} {segSeq newEnd : Nat}
    (h : l.stretch i segSeq newEnd = .ok (idx, l')) :
    idx = i ∧ segSeq ≤ newEnd ∧
      l.modify i (fun s => { s with length := truncate 16 (newEnd - segSeq) }) = .ok l' := by
  unfold stretch at h
  rw [bind_eq_ok] at h
  obtain ⟨extent, hext, h⟩ := h
  obtain ⟨hle, rfl⟩ := checkedSub_eq_ok.mp hext
  rw [bind_eq_ok] at h
  obtain ⟨l₁, hl₁, h⟩ := h
  cases h
  exact ⟨rfl, hle, hl₁⟩

/-- What the walk does where it stops. -/
inductive Stops (l : SegmentList) (seq len : Nat) (i : Int) (s : Segment) (idx : Int)
    (l' : SegmentList) : Prop where
  | extend (hstop : s.stop = seq) (h : l.extend i s.length seq len = .ok (idx, l'))
  | before (hstop : s.stop ≠ seq) (hge : s.seq ≥ wrappingAdd 32 seq len)
      (h : l.insertBeforeNode i seq len = .ok (idx, l'))
  | stretch (hstop : s.stop ≠ seq) (hlt : ¬ s.seq ≥ wrappingAdd 32 seq len) (hle : s.seq ≤ seq)
      (h : l.stretch i s.seq (max s.stop (wrappingAdd 32 seq len)) = .ok (idx, l'))

/-- The walk passes every segment, or stops at one. -/
theorem walk_spec {seq len : Nat} :
    ∀ (fuel : Nat) {l l' : SegmentList} {start idx : Int},
      walk fuel l start seq len = .ok (idx, l') →
      (idx = -1 ∧ l' = l) ∨ ∃ i s, l.get? i = some s ∧ Stops l seq len i s idx l' := by
  intro fuel
  induction fuel with
  | zero => intro l l' start idx h; cases h
  | succ fuel ih =>
    intro l l' start idx h
    unfold walk at h
    split at h
    · cases h
      exact Or.inl ⟨rfl, rfl⟩
    · rw [bind_eq_ok] at h
      obtain ⟨s, hs, h⟩ := h
      have hs := seg_eq_ok.mp hs
      split at h
      · next hstop => exact Or.inr ⟨start, s, hs, .extend hstop h⟩
      · next hstop =>
        split at h
        · next hge => exact Or.inr ⟨start, s, hs, .before hstop hge h⟩
        · next hlt =>
          split at h
          · next hle => exact Or.inr ⟨start, s, hs, .stretch hstop hlt hle h⟩
          · exact ih h

/-- The head segment and what is inserted span at most 16 bits. -/
def HeadFits (seq len : Nat) (s : Segment) : Prop :=
  (s.stop = seq → s.length + len ≤ u16Max) ∧
    (s.seq ≤ seq → s.length ≤ u16Max ∧ seq + len ≤ s.seq + u16Max)

/-- The head segment grows by the new one, which starts where it ends. -/
theorem extend_covers {Q : Nat → Prop} {l l' : SegmentList} {seq len : Nat} {i idx : Int}
    {s : Segment} (hcov : AllCover Q l) (hnowrap : seq + len < 2 ^ 32)
    (hnew : ∀ j, j < len → Q (wrappingAdd 32 seq j)) (hs : l.get? i = some s)
    (hstop : s.stop = seq) (hfit : s.length + len ≤ u16Max)
    (h : l.extend i s.length seq len = .ok (idx, l')) :
    AllCover Q l' ∧ ∃ s', l'.get? idx = some s' ∧ s'.length ≤ u16Max ∧
      wrappingSub 32 (seq + len) s'.seq ≤ s'.length := by
  obtain ⟨rfl, -⟩ := extend_head h
  unfold extend at h
  rw [if_pos hfit, bind_eq_ok] at h
  obtain ⟨l₁, hl₁, h⟩ := h
  cases h
  have hs₁ := get?_of_modify hl₁ hs
  rw [if_pos rfl] at hs₁
  have hstop' : (s.seq + s.length) % 2 ^ 32 = seq := hstop
  refine ⟨?_, _, hs₁, hfit, ?_⟩
  · refine hcov.modify hl₁ (fun t ht => ?_)
    rw [hs] at ht
    cases ht
    intro j hj
    have hj : j < s.length + len := hj
    by_cases hin : j < s.length
    · exact hcov.get? hs j hin
    · -- past the old end: the bytes of the new segment
      have hshift : wrappingAdd 32 s.seq j = wrappingAdd 32 seq (j - s.length) := by
        have hj' : s.seq + j = s.seq + s.length + (j - s.length) := by omega
        unfold wrappingAdd
        rw [hj', ← Nat.mod_add_mod, hstop']
      show Q (wrappingAdd 32 s.seq j)
      rw [hshift]
      exact hnew _ (by omega)
  · show wrappingSub 32 (seq + len) s.seq ≤ s.length + len
    have hmod : wrappingSub 32 (seq + len) s.seq = (s.length + len) % 2 ^ 32 := by
      have h₁ := wrappingSub_add 32 s.seq (s.length + len)
      have h₂ : (s.seq + (s.length + len)) % 2 ^ 32 = seq + len := by
        rw [← Nat.add_assoc, ← Nat.mod_add_mod, hstop', Nat.mod_eq_of_lt hnowrap]
      rw [h₂] at h₁
      rw [← h₁]
      unfold wrappingSub
      rw [Nat.mod_mod]
    rw [hmod]
    exact Nat.mod_le _ _

/-- The head segment is stretched to the end of the new one, or stays. -/
theorem stretch_covers {Q : Nat → Prop} {l l' : SegmentList} {seq len : Nat} {i idx : Int}
    {s : Segment} (hcov : AllCover Q l) (hnowrap : seq + len < 2 ^ 32)
    (hnew : ∀ y, y < seq + len → seq + len ≤ y + u16Max → Q y) (hs : l.get? i = some s)
    (hshort : s.length ≤ u16Max) (hspan : seq + len ≤ s.seq + u16Max) (hlt : s.seq < seq + len)
    (h : l.stretch i s.seq (max s.stop (seq + len)) = .ok (idx, l')) :
    AllCover Q l' ∧ ∃ s', l'.get? idx = some s' ∧ s'.length ≤ u16Max ∧
      wrappingSub 32 (seq + len) s'.seq ≤ s'.length := by
  obtain ⟨rfl, hle, hl₁⟩ := stretch_eq_ok h
  have hs₁ := get?_of_modify hl₁ hs
  rw [if_pos rfl] at hs₁
  -- the extent fits: it ends with the new data, or where the segment ended
  have hstop : s.stop = (s.seq + s.length) % 2 ^ 32 := rfl
  have hext : max s.stop (seq + len) - s.seq ≤ u16Max := by
    unfold u16Max at *
    omega
  have htrunc : truncate 16 (max s.stop (seq + len) - s.seq) = max s.stop (seq + len) - s.seq :=
    truncate_of_lt (Nat.lt_of_le_of_lt hext (by decide))
  rw [htrunc] at hs₁ hl₁
  refine ⟨?_, _, hs₁, hext, ?_⟩
  · refine hcov.modify hl₁ (fun t ht => ?_)
    rw [hs] at ht
    cases ht
    intro j hj
    have hj : j < max s.stop (seq + len) - s.seq := hj
    show Q (wrappingAdd 32 s.seq j)
    by_cases hin : s.seq + j < seq + len
    · rw [wrappingAdd_of_lt (by omega)]
      exact hnew _ hin (by omega)
    · exact hcov.get? hs j (by omega)
  · show wrappingSub 32 (seq + len) s.seq ≤ max s.stop (seq + len) - s.seq
    rw [wrappingSub_of_le (by omega) hnowrap]
    omega

/-- A new segment reaches its own end. -/
theorem reaches_of_eq {seq len : Nat} {s : Segment} (hnowrap : seq + len < 2 ^ 32)
    (hseq : s.seq = seq) (hlen : s.length = len) :
    wrappingSub 32 (seq + len) s.seq ≤ s.length := by
  rw [hseq, hlen, wrappingSub_of_le (by omega) hnowrap]
  omega

/-- The range of the node that an insertion returns, when that node is the head
of the list: before any merge. -/
theorem stops_covers {Q : Nat → Prop} {l l' : SegmentList} {seq len : Nat} {i idx : Int}
    {s : Segment} (hcov : AllCover Q l) (hnowrap : seq + len < 2 ^ 32) (hlen : len ≤ u16Max)
    (hnew : ∀ y, y < seq + len → seq + len ≤ y + u16Max → Q y) (hs : l.get? i = some s)
    (hst : Stops l seq len i s idx l')
    (hfits : ¬ (s.stop ≠ seq ∧ s.seq ≥ wrappingAdd 32 seq len) → HeadFits seq len s) :
    AllCover Q l' ∧ ∃ s', l'.get? idx = some s' ∧ s'.length ≤ u16Max ∧
      wrappingSub 32 (seq + len) s'.seq ≤ s'.length := by
  have hend : wrappingAdd 32 seq len = seq + len := wrappingAdd_of_lt hnowrap
  have hnew' : ∀ j, j < len → Q (wrappingAdd 32 seq j) := by
    intro j hj
    rw [wrappingAdd_of_lt (by omega)]
    exact hnew _ (by omega) (by omega)
  cases hst with
  | extend hstop h =>
    exact extend_covers hcov hnowrap hnew' hs hstop ((hfits (fun hn => hn.1 hstop)).1 hstop) h
  | before hstop hge h =>
    obtain ⟨hcov', s', hs', hseq, hlen'⟩ := insertBeforeNode_covers hcov hnew' h
    exact ⟨hcov', s', hs', by omega, reaches_of_eq hnowrap hseq hlen'⟩
  | stretch hstop hlt hle h =>
    obtain ⟨hshort, hspan⟩ := (hfits (fun hn => hlt hn.2)).2 hle
    rw [hend] at hlt h
    exact stretch_covers hcov hnowrap hnew hs hshort hspan (by omega) h

/-- Merging never changes the head of the list. -/
theorem mergeAtIdx_head {fuel : Nat} {l l' : SegmentList} {idx : Int}
    (h : mergeAtIdx fuel l idx = .ok l') : l'.head = l.head := by
  have htrue : AllCover (fun _ => True) l := fun _ _ _ _ => trivial
  unfold mergeAtIdx at h
  rw [bind_eq_ok] at h
  obtain ⟨s, hs, h⟩ := h
  exact (mergeLoop_covers fuel htrue (seg_eq_ok.mp hs) rfl h).1

/-- Where the walk stops without a new node, it returns the node it stopped at. -/
theorem Stops.idx_eq {l l' : SegmentList} {seq len : Nat} {i idx : Int} {s : Segment}
    (hst : Stops l seq len i s idx l')
    (hnew : ¬ (s.stop ≠ seq ∧ s.seq ≥ wrappingAdd 32 seq len)) : idx = i ∧ l'.head = l.head := by
  cases hst with
  | extend _ h => exact extend_head h
  | before hstop hge _ => exact absurd ⟨hstop, hge⟩ hnew
  | stretch _ _ _ h =>
    obtain ⟨hidx, -, hl⟩ := stretch_eq_ok h
    exact ⟨hidx, head_of_modify hl⟩

/-- **A segment inserted at the head.** The head segment reaches the end of what
was inserted, and every sequence number it records was recorded before or is one
of the 65535 before that end. -/
theorem insertSegment_covers {Q : Nat → Prop} {fuel : Nat} {l l' : SegmentList} {seq len : Nat}
    {seg : Int} (hcov : AllCover Q l) (hnowrap : seq + len < 2 ^ 32) (hlen : len ≤ u16Max)
    (hnew : ∀ y, y < seq + len → seq + len ≤ y + u16Max → Q y)
    (hfits : ∀ s, l.get? l.head = some s → HeadFits seq len s)
    (h : l.insertSegment fuel seq len = .ok (some seg, l')) (hhead : l'.head = seg) :
    ∃ s, l'.get? seg = some s ∧ Covers Q s ∧ s.length ≤ u16Max ∧
      wrappingSub 32 (seq + len) s.seq ≤ s.length := by
  have hnew' : ∀ j, j < len → Q (wrappingAdd 32 seq j) := by
    intro j hj
    rw [wrappingAdd_of_lt (by omega)]
    exact hnew _ (by omega) (by omega)
  unfold insertSegment at h
  split at h
  · rw [bind_eq_ok] at h
    obtain ⟨⟨idx, l₁⟩, hl₁, h⟩ := h
    cases h
    obtain ⟨hcov', s, hs, hseq, hlen'⟩ := insertBeforeNode_covers hcov hnew' hl₁
    exact ⟨s, hs, hcov'.get? hs, by omega, reaches_of_eq hnowrap hseq hlen'⟩
  · rw [bind_eq_ok] at h
    obtain ⟨⟨idx, l₁⟩, hl₁, h⟩ := h
    dsimp only at h
    split at h
    · rw [bind_eq_ok] at h
      obtain ⟨⟨idx', l₂⟩, hl₂, h⟩ := h
      cases h
      obtain ⟨s, hs, hseq, hlen', hcov'⟩ := insertAtTail_covers hnew' hl₂
      exact ⟨s, hs, hcov', by omega, reaches_of_eq hnowrap hseq hlen'⟩
    · next hidx =>
      rw [bind_eq_ok] at h
      obtain ⟨l₂, hl₂, h⟩ := h
      cases h
      rcases walk_spec fuel hl₁ with ⟨hend, -⟩ | ⟨i, s, hs, hst⟩
      · exact absurd hend hidx
      · -- an old node that becomes the head of the list was its head before
        have hfits' : ¬ (s.stop ≠ seq ∧ s.seq ≥ wrappingAdd 32 seq len) → HeadFits seq len s := by
          intro hold
          obtain ⟨hidx, hhead₁⟩ := hst.idx_eq hold
          have hi : i = l.head := by
            rw [← hidx, ← hhead, mergeAtIdx_head hl₂, hhead₁]
          exact hfits s (hi ▸ hs)
        obtain ⟨hcov₁, s₁, hs₁, hmax₁, hreach⟩ :=
          stops_covers hcov hnowrap hlen hnew hs hst hfits'
        obtain ⟨-, s', hs', hseq', hcov', hle', hmax'⟩ := mergeAtIdx_covers hcov₁ hs₁ hl₂
        refine ⟨s', hs', hcov', hmax' hmax₁, ?_⟩
        rw [hseq']
        exact Nat.le_trans hreach hle'

end SegmentList

end NetBricks.State
