import NetBricks.Common

/-!
# `SegmentList`: the model

The list of received segments of `reordered_buffer.rs`: a doubly linked list
threaded through a vector, with the unused nodes on a stack. The links are
`isize` indices and `-1` ends the list.

Mirroring notes:

* `seq` is a `u32` and `length` a `u16`, held as `Nat`; `wrapping_add`, `as`
  casts and the overflow checks of plain `+` and `-` are written out.
* `storage[i as usize]` with a negative `i` is out of range of any vector.
* `while` loops take fuel and end in `timeout` without it.
* Consecutive assignments to fields of one node are one update.
-/

namespace NetBricks.State

open Lib
open Lib.Outcome

/-- One received range: `length` bytes from `seq` on. -/
structure Segment where
  prev : Int
  seq : Nat
  length : Nat
  next : Int
  idx : Int
  deriving DecidableEq, Repr

/-- `Segment::new`. -/
def Segment.new (idx : Int) (seq length : Nat) : Segment :=
  { idx := idx, prev := -1, next := -1, seq := seq, length := length }

/-- The sequence number after the segment. -/
def Segment.stop (s : Segment) : Nat := wrappingAdd 32 s.seq s.length

structure SegmentList where
  storage : List Segment
  available : List Int
  head : Int
  tail : Int
  deriving DecidableEq, Repr

namespace SegmentList

/-- `SegmentList::new`. -/
def new (length : Nat) : SegmentList :=
  { storage := (List.range length).map (fun i : Nat => Segment.new i 0 0)
    available := (List.range length).map (fun i : Nat => (i : Int))
    head := -1
    tail := -1 }

/-- The node with index `i`, if there is one. -/
def get? (l : SegmentList) (i : Int) : Option Segment :=
  if 0 ≤ i then l.storage[i.toNat]? else none

/-- `self.storage[i as usize]`. -/
def seg (l : SegmentList) (i : Int) : Outcome Segment :=
  match l.get? i with
  | some s => .ok s
  | none => .panic .index

/-- Assignments to fields of `self.storage[i as usize]`. -/
def modify (l : SegmentList) (i : Int) (f : Segment → Segment) : Outcome SegmentList :=
  match l.get? i with
  | some s => .ok { l with storage := l.storage.set i.toNat (f s) }
  | none => .panic .index

/-- `remove_node`. -/
def removeNode (l : SegmentList) (node : Int) : Outcome SegmentList := do
  let l ← l.modify node (fun s => { s with length := 0 })
  .ok { l with available := l.available ++ [node] }

/-- `find_available_node`. -/
def findAvailableNode (l : SegmentList) : Int × SegmentList :=
  match l.available.getLast? with
  | some nidx => (nidx, { l with available := l.available.dropLast })
  | none =>
    let idx : Int := l.storage.length
    (idx, { l with storage := l.storage ++ [Segment.new idx 0 0] })

/-- `insert_before_node`. -/
def insertBeforeNode (l : SegmentList) (next : Int) (seq len : Nat) :
    Outcome (Int × SegmentList) := do
  let (idx, l) := l.findAvailableNode
  let l ← l.modify idx (fun s => { s with seq := seq, length := len, next := next })
  if next ≠ -1 then
    let n ← l.seg next
    let prev := n.prev
    let l ← l.modify idx (fun s => { s with prev := prev })
    let l ← l.modify next (fun s => { s with prev := idx })
    if prev ≠ -1 then
      let l ← l.modify prev (fun s => { s with next := idx })
      .ok (idx, l)
    else
      -- no prev: this is the head
      .ok (idx, { l with head := idx })
  else
    let l ← l.modify idx (fun s => { s with prev := -1 })
    .ok (idx, l)

/-- `insert_after_node`. The node after `prev` keeps its old `prev` link. -/
def insertAfterNode (l : SegmentList) (prev : Int) (seq len : Nat) :
    Outcome (Int × SegmentList) := do
  let (idx, l) := l.findAvailableNode
  let l ← l.modify idx (fun s => { s with seq := seq, length := len, prev := prev })
  let p ← l.seg prev
  let l ← l.modify idx (fun s => { s with next := p.next })
  let l ← l.modify prev (fun s => { s with next := idx })
  let s ← l.seg idx
  if s.next = -1 then .ok (idx, { l with tail := idx }) else .ok (idx, l)

/-- `insert_at_tail`. -/
def insertAtTail (l : SegmentList) (seq len : Nat) : Outcome (Int × SegmentList) := do
  let (idx, l) := l.findAvailableNode
  let tail := l.tail
  let l ← l.modify idx (fun s => { s with seq := seq, length := len, next := -1, prev := tail })
  let l ← l.modify l.tail (fun s => { s with next := idx })
  .ok (idx, { l with tail := idx })

/-- `if node != -1 { self.storage[node].prev = prev }`. -/
def linkBack (l : SegmentList) (node prev : Int) : Outcome SegmentList :=
  if node ≠ -1 then l.modify node (fun s => { s with prev := prev }) else .ok l

/-- The first branch of `merge_at_idx`: all of `next` goes into `idx`, which gets
the length `newLen`, and `next` is freed. Returns the segment after it. -/
def mergeNext (l : SegmentList) (idx next : Int) (newLen : Nat) : Outcome (Int × SegmentList) := do
  let l ← l.modify idx (fun s => { s with length := newLen })
  let freed ← l.seg next
  let l ← l.modify idx (fun s => { s with next := freed.next })
  let l ← l.linkBack freed.next idx
  let l ← l.removeNode next
  .ok (freed.next, l)

/-- The second branch: what fits 16 bits moves over from `next` to `idx`, which
has `length` bytes. -/
def mergePart (l : SegmentList) (idx next : Int) (length : Nat) : Outcome SegmentList := do
  let maxLen ← checkedSub u16Max length
  let l ← l.modify idx (fun s => { s with length := s.length + maxLen })
  let n ← l.seg next
  let rest ← checkedSub n.length maxLen
  l.modify next (fun s => { s with length := rest, seq := wrappingAdd 32 s.seq maxLen })

/-- The loop of `merge_at_idx`: merge the following segments that overlap or
touch. A gap before the next segment changes nothing, and the loop goes on. -/
def mergeLoop : Nat → SegmentList → Int → Int → Outcome SegmentList
  | 0, _, _, _ => .timeout
  | fuel + 1, l, idx, next =>
    if next = -1 then .ok l
    else do
      let s ← l.seg idx
      let n ← l.seg next
      if s.stop ≥ n.seq then
        let overlap ← checkedSub s.stop n.seq
        let mergeLen ← checkedSub n.length overlap
        if mergeLen + s.length ≤ u16Max then
          let (next, l) ← l.mergeNext idx next (mergeLen + s.length)
          mergeLoop fuel l idx next
        else l.mergePart idx next s.length
      else mergeLoop fuel l idx next

/-- `merge_at_idx`. -/
def mergeAtIdx (fuel : Nat) (l : SegmentList) (idx : Int) : Outcome SegmentList := do
  let s ← l.seg idx
  mergeLoop fuel l idx s.next

/-- The first branch of `insert_segment`: the new segment starts where `idx`,
which has `length` bytes, ends. Lengths do not exceed 16 bits. -/
def extend (l : SegmentList) (idx : Int) (length seq len : Nat) : Outcome (Int × SegmentList) :=
  if length + len ≤ u16Max then do
    let l ← l.modify idx (fun s => { s with length := length + len })
    .ok (idx, l)
  else do
    let maxLen ← checkedSub u16Max length
    let l ← l.modify idx (fun s => { s with length := s.length + maxLen })
    let lenNew ← checkedSub len maxLen
    let (_, l) ← l.insertAfterNode idx (wrappingAdd 32 seq maxLen) lenNew
    .ok (idx, l)

/-- The third branch: `idx`, which starts at `segSeq`, ends at `newEnd` from now
on. -/
def stretch (l : SegmentList) (idx : Int) (segSeq newEnd : Nat) : Outcome (Int × SegmentList) := do
  let extent ← checkedSub newEnd segSeq
  let l ← l.modify idx (fun s => { s with length := truncate 16 extent })
  .ok (idx, l)

/-- The loop of `insert_segment`: the node the new segment went to, or `-1` when
no node matched. -/
def walk : Nat → SegmentList → Int → Nat → Nat → Outcome (Int × SegmentList)
  | 0, _, _, _, _ => .timeout
  | fuel + 1, l, idx, seq, len =>
    if idx = -1 then .ok (-1, l)
    else do
      let s ← l.seg idx
      if s.stop = seq then
        -- we can just add to the current segment
        l.extend idx s.length seq len
      else if s.seq ≥ wrappingAdd 32 seq len then
        -- we are on to segments that are further down
        l.insertBeforeNode idx seq len
      else if s.seq ≤ seq then
        -- taken for an overlap, whether or not the segment reaches `seq`
        l.stretch idx s.seq (max s.stop (wrappingAdd 32 seq len))
      else walk fuel l s.next seq len

/-- `insert_segment`. -/
def insertSegment (fuel : Nat) (l : SegmentList) (seq len : Nat) :
    Outcome (Option Int × SegmentList) := do
  if l.head = -1 then
    let (idx, l) ← l.insertBeforeNode (-1) seq len
    .ok (some idx, { l with head := idx, tail := idx })
  else
    let (idx, l) ← walk fuel l l.head seq len
    if idx = -1 then
      let (idx, l) ← l.insertAtTail seq len
      .ok (some idx, l)
    else
      let l ← mergeAtIdx fuel l idx
      .ok (some idx, l)

/-- `is_head`. -/
def isHead (l : SegmentList) (seg : Int) : Bool := l.head == seg

/-- `remove_head`. The new head keeps its old `prev` link. -/
def removeHead (l : SegmentList) : Outcome SegmentList := do
  let head := l.head
  let s ← l.seg head
  let l := { l with head := s.next }
  l.removeNode head

/-- The end of `consume_head_data`: drop the head when nothing is left of it. -/
def settleHead (fuel : Nat) (l : SegmentList) (left : Nat) : Outcome SegmentList :=
  if left = 0 then l.removeHead else mergeAtIdx fuel l l.head

/-- `consume_head_data`. -/
def consumeHeadData (fuel : Nat) (l : SegmentList) (seq consumed : Nat) :
    Outcome (Bool × SegmentList) := do
  let s ← l.seg l.head
  if s.seq ≠ seq then .ok (false, l)
  else
    let consume := min consumed s.length
    let l ← l.modify l.head (fun s =>
      { s with seq := wrappingAdd 32 s.seq consume, length := s.length - consume })
    let l ← l.settleHead fuel (s.length - consume)
    .ok (decide (consume = consumed), l)

/-- The loop of `clear`. -/
def clearLoop : Nat → SegmentList → Int → Outcome SegmentList
  | 0, _, _ => .timeout
  | fuel + 1, l, idx =>
    if idx = -1 then .ok l
    else do
      let s ← l.seg idx
      let l ← l.removeNode idx
      clearLoop fuel l s.next

/-- `clear`. -/
def clear (fuel : Nat) (l : SegmentList) : Outcome SegmentList := do
  let l ← clearLoop fuel l l.head
  .ok { l with head := -1, tail := -1 }

/-- `get_segment`. -/
def getSegment (l : SegmentList) (idx : Int) : Outcome Segment := l.seg idx

/-- `one_segment`. -/
def oneSegment (l : SegmentList) : Outcome Bool :=
  if l.head = -1 then .ok true
  else do
    let s ← l.seg l.head
    .ok (s.next == -1)

/-! ## Nodes and updates -/

theorem seg_eq_ok {l : SegmentList} {i : Int} {s : Segment} :
    l.seg i = .ok s ↔ l.get? i = some s := by
  unfold seg
  cases h : l.get? i with
  | none => simp
  | some t => simp

theorem seg_of_get? {l : SegmentList} {i : Int} {s : Segment} (h : l.get? i = some s) :
    l.seg i = .ok s := seg_eq_ok.mpr h

theorem seg_of_none {l : SegmentList} {i : Int} (h : l.get? i = none) :
    l.seg i = .panic .index := by
  unfold seg
  rw [h]

/-- The list after an update of node `i`, for a node that exists. -/
def update (l : SegmentList) (i : Int) (s : Segment) : SegmentList :=
  { l with storage := l.storage.set i.toNat s }

theorem modify_of_get? {l : SegmentList} {i : Int} {s : Segment} (h : l.get? i = some s)
    (f : Segment → Segment) : l.modify i f = .ok (l.update i (f s)) := by
  unfold modify
  rw [h]
  rfl

theorem update_self {l : SegmentList} {i : Int} {s : Segment} (h : l.get? i = some s) :
    l.update i s = l := by
  unfold get? at h
  split at h
  · obtain ⟨hlt, hs⟩ := List.getElem?_eq_some_iff.mp h
    unfold update
    rw [← hs, List.set_getElem_self]
  · cases h

theorem modify_eq_ok {l l' : SegmentList} {i : Int} {f : Segment → Segment} :
    l.modify i f = .ok l' ↔ ∃ s, l.get? i = some s ∧ l' = l.update i (f s) := by
  unfold modify
  cases h : l.get? i with
  | none => simp
  | some s => simp [update, eq_comm]

theorem get?_eq_some {l : SegmentList} {i : Int} {s : Segment} :
    l.get? i = some s ↔ 0 ≤ i ∧ l.storage[i.toNat]? = some s := by
  unfold get?
  by_cases h : 0 ≤ i
  · rw [if_pos h]
    exact ⟨fun hs => ⟨h, hs⟩, fun hs => hs.2⟩
  · rw [if_neg h]
    exact ⟨fun hs => (nomatch hs), fun hs => absurd hs.1 h⟩

theorem get?_neg_one (l : SegmentList) : l.get? (-1) = none := if_neg (by decide)

theorem get?_update_self {l : SegmentList} {i : Int} {s t : Segment} (h : l.get? i = some s) :
    (l.update i t).get? i = some t := by
  obtain ⟨hi, hs⟩ := get?_eq_some.mp h
  obtain ⟨hlt, -⟩ := List.getElem?_eq_some_iff.mp hs
  exact get?_eq_some.mpr ⟨hi, List.getElem?_set_self hlt⟩

/-- An update does not show at other nodes. -/
theorem get?_update_ne {l : SegmentList} {i j : Int} (hne : i ≠ j) (hi : 0 ≤ i) (t : Segment) :
    (l.update i t).get? j = l.get? j := by
  unfold get?
  by_cases hj : 0 ≤ j
  · rw [if_pos hj, if_pos hj]
    exact List.getElem?_set_ne (by omega)
  · rw [if_neg hj, if_neg hj]

/-- A node after an update of some node. -/
theorem get?_of_modify {l l' : SegmentList} {i j : Int} {f : Segment → Segment} {s : Segment}
    (hm : l.modify i f = .ok l') (hs : l.get? j = some s) :
    l'.get? j = some (if i = j then f s else s) := by
  obtain ⟨t, ht, rfl⟩ := modify_eq_ok.mp hm
  by_cases h : i = j
  · subst h
    rw [hs] at ht
    cases ht
    rw [if_pos rfl]
    exact get?_update_self hs
  · rw [if_neg h, get?_update_ne h (get?_eq_some.mp ht).1]
    exact hs

theorem head_of_modify {l l' : SegmentList} {i : Int} {f : Segment → Segment}
    (hm : l.modify i f = .ok l') : l'.head = l.head := by
  obtain ⟨s, -, rfl⟩ := modify_eq_ok.mp hm
  rfl

theorem removeNode_eq_ok {l l' : SegmentList} {node : Int} :
    l.removeNode node = .ok l' ↔ ∃ l₁, l.modify node (fun s => { s with length := 0 }) = .ok l₁ ∧
      l' = { l₁ with available := l₁.available ++ [node] } := by
  unfold removeNode
  rw [bind_eq_ok]
  constructor
  · rintro ⟨l₁, h₁, h⟩
    cases h
    exact ⟨l₁, h₁, rfl⟩
  · rintro ⟨l₁, h₁, rfl⟩
    exact ⟨l₁, h₁, rfl⟩

/-! ## A turn of `merge_at_idx` -/

/-- The ways of one turn of the loop of `merge_at_idx` at node `i`, which holds `s`, with
`t` in the next node `j`. -/
inductive MergeTurn (fuel : Nat) (l : SegmentList) (i j : Int) (s t : Segment)
    (l' : SegmentList) : Prop where
  | all (hreach : t.seq ≤ s.stop) (hin : s.stop - t.seq ≤ t.length)
      (hfits : t.length - (s.stop - t.seq) + s.length ≤ u16Max)
      (h : l.mergeNext i j (t.length - (s.stop - t.seq) + s.length) >>=
        (fun r => mergeLoop fuel r.2 i r.1) = .ok l')
  | part (hreach : t.seq ≤ s.stop) (hin : s.stop - t.seq ≤ t.length)
      (hlarge : u16Max < t.length - (s.stop - t.seq) + s.length)
      (h : l.mergePart i j s.length = .ok l')
  | again (h : mergeLoop fuel l i j = .ok l')

theorem mergeLoop_eq_ok {fuel : Nat} {l l' : SegmentList} {i j : Int} {s : Segment}
    (hs : l.get? i = some s) (h : mergeLoop (fuel + 1) l i j = .ok l') :
    (j = -1 ∧ l' = l) ∨ ∃ t, l.get? j = some t ∧ MergeTurn fuel l i j s t l' := by
  unfold mergeLoop at h
  split at h
  · next hj =>
    cases h
    exact .inl ⟨hj, rfl⟩
  rw [seg_of_get? hs, bind_ok, bind_eq_ok] at h
  obtain ⟨t, ht, h⟩ := h
  refine .inr ⟨t, seg_eq_ok.mp ht, ?_⟩
  split at h
  · next hreach =>
    rw [bind_eq_ok] at h
    obtain ⟨overlap, hov, h⟩ := h
    obtain ⟨-, rfl⟩ := checkedSub_eq_ok.mp hov
    rw [bind_eq_ok] at h
    obtain ⟨mergeLen, hml, h⟩ := h
    obtain ⟨hin, rfl⟩ := checkedSub_eq_ok.mp hml
    split at h
    · next hfits => exact .all hreach hin hfits h
    · next hlarge => exact .part hreach hin (Nat.lt_of_not_le hlarge) h
  · exact .again h

theorem mergeLoop_turn {fuel : Nat} {l l' : SegmentList} {i j : Int} {s t : Segment}
    (hs : l.get? i = some s) (ht : l.get? j = some t) (h : mergeLoop (fuel + 1) l i j = .ok l') :
    MergeTurn fuel l i j s t l' := by
  rcases mergeLoop_eq_ok hs h with ⟨rfl, -⟩ | ⟨t', ht', hturn⟩
  · rw [get?_neg_one] at ht
    cases ht
  · cases ht.symm.trans ht'
    exact hturn

end SegmentList

end NetBricks.State
