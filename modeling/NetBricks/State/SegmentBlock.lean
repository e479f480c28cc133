import NetBricks.State.SegmentList

/-!
# `SegmentList` with at most one segment

The operations of the list while it holds no segment or one. `Holds l blk` says
which: `blk` is the range of the only segment. The nodes not in use (`Pool`) are
all in storage and listed once, and none of them is the head.

What `insert_segment` does with a range `(seq, len)` is then decided by how it
lies to the held one:

* `Joins`: it starts in or behind it, or ends where it starts, and the two span
  at most 65535. The list holds the span from then on (`insertSegment_joins`),
  the gap between the two included, if there is one.
* `LeavesGap`: it ends before the held one starts. `merge_at_idx` never returns
  (`insertSegment_leavesGap`): its loop only advances when it merges.
* `Straddles`: it starts before the held one and reaches into it. It goes to the
  end of the list, behind a segment with a larger sequence number
  (`insertSegment_straddles`).
-/

namespace NetBricks.State.SegmentList

open Lib
open Lib.Outcome

/-! ## Nodes in use and free nodes -/

/-- Node `i` holds `s` and is in use. A node on the stack of free nodes keeps its old contents,
so reading it does not tell the two apart. -/
structure Owns (l : SegmentList) (i : Int) (s : Segment) : Prop where
  node : l.get? i = some s
  used : i ∉ l.available

/-- The free nodes exist and are listed once: taking one off the stack gives a node, and one
that is in use nowhere. -/
structure Pool (l : SegmentList) : Prop where
  node : ∀ i ∈ l.available, ∃ s, l.get? i = some s
  nodup : l.available.Nodup

theorem Owns.nonneg {l : SegmentList} {i : Int} {s : Segment} (h : l.Owns i s) : 0 ≤ i :=
  (get?_eq_some.mp h.node).1

theorem Owns.ne_neg_one {l : SegmentList} {i : Int} {s : Segment} (h : l.Owns i s) : i ≠ -1 := by
  have := h.nonneg
  omega

/-- An update of a node in use leaves the other nodes in use as they are. -/
theorem modify_owns {l : SegmentList} {i : Int} {s : Segment} (h : l.Pool) (hi : l.Owns i s)
    (f : Segment → Segment) :
    ∃ l', l.modify i f = .ok l' ∧ l'.Pool ∧ l'.head = l.head ∧ l'.available = l.available ∧
      l'.Owns i (f s) ∧ ∀ j t, l.Owns j t → i ≠ j → l'.Owns j t := by
  have hother : ∀ j, i ≠ j → (l.update i (f s)).get? j = l.get? j :=
    fun j hne => get?_update_ne hne hi.nonneg (f s)
  refine ⟨_, modify_of_get? hi.node f, ⟨fun j hj => ?_, h.nodup⟩, rfl, rfl,
    ⟨get?_update_self hi.node, hi.used⟩, fun j t hj hne => ⟨(hother j hne).trans hj.node, hj.used⟩⟩
  obtain ⟨t, ht⟩ := h.node j hj
  have hne : i ≠ j := fun he => hi.used (he ▸ hj)
  exact ⟨t, (hother j hne).trans ht⟩

/-- A new node is in use from then on, and was not before. -/
theorem findAvailableNode_owns {l : SegmentList} (h : l.Pool) :
    (l.findAvailableNode.2).Pool ∧ l.findAvailableNode.2.head = l.head ∧
      (∃ s, l.findAvailableNode.2.Owns l.findAvailableNode.1 s) ∧
      ∀ j s, l.Owns j s → l.findAvailableNode.1 ≠ j ∧ l.findAvailableNode.2.Owns j s := by
  unfold findAvailableNode
  split
  · next nidx hlast =>
    -- the last free node
    obtain ⟨rest, hrest⟩ := List.getLast?_eq_some_iff.mp hlast
    have hmem : nidx ∈ l.available := List.mem_of_getLast? hlast
    have hnodup := h.nodup
    rw [hrest] at hnodup
    rw [hrest, List.dropLast_concat]
    have hout : nidx ∉ rest := fun hn =>
      (List.nodup_append.mp hnodup).2.2 _ hn _ (List.mem_singleton_self _) rfl
    obtain ⟨s, hs⟩ := h.node nidx hmem
    refine ⟨⟨fun i hi => h.node i ?_, (List.nodup_append.mp hnodup).1⟩, rfl, ⟨s, hs, hout⟩, ?_⟩
    · rw [hrest]
      exact List.mem_append_left _ hi
    · intro j t hj
      refine ⟨fun he => hj.used (he ▸ hmem), hj.node, fun hn => hj.used ?_⟩
      rw [hrest]
      exact List.mem_append_left _ hn
  · next hlast =>
    -- no free node: a new one
    have hnil : l.available = [] := List.getLast?_eq_none_iff.mp hlast
    have hkeep : ∀ (j : Int) (t : Segment), l.get? j = some t →
        (l.storage.length : Int) ≠ j ∧
        get? { l with storage := l.storage ++ [Segment.new l.storage.length 0 0] } j = some t := by
      intro j t hj
      obtain ⟨hj0, hj1⟩ := get?_eq_some.mp hj
      obtain ⟨hlt, -⟩ := List.getElem?_eq_some_iff.mp hj1
      refine ⟨by omega, get?_eq_some.mpr ⟨hj0, ?_⟩⟩
      show (l.storage ++ [_])[j.toNat]? = some t
      rw [List.getElem?_append_left hlt, hj1]
    refine ⟨⟨fun i hi => ?_, h.nodup⟩, rfl, ⟨Segment.new l.storage.length 0 0, ?_, ?_⟩, ?_⟩
    · obtain ⟨t, ht⟩ := h.node i hi
      exact ⟨t, (hkeep i t ht).2⟩
    · refine get?_eq_some.mpr ⟨Int.natCast_nonneg _, ?_⟩
      show (l.storage ++ [_])[((l.storage.length : Int)).toNat]? = _
      rw [Int.toNat_natCast, List.getElem?_concat_length]
    · show (l.storage.length : Int) ∉ l.available
      rw [hnil]
      exact List.not_mem_nil
    · intro j t hj
      exact ⟨(hkeep j t hj.node).1, (hkeep j t hj.node).2, hj.used⟩

/-- A removed node is free; the others in use stay so. -/
theorem removeNode_owns {l : SegmentList} {i : Int} {s : Segment} (h : l.Pool)
    (hi : l.Owns i s) :
    ∃ l', l.removeNode i = .ok l' ∧ l'.Pool ∧ l'.head = l.head ∧
      ∀ j t, l.Owns j t → i ≠ j → l'.Owns j t := by
  obtain ⟨l₁, hm, hpool, hhead, havail, hself, hother⟩ :=
    modify_owns h hi (fun s => { s with length := 0 })
  refine ⟨_, removeNode_eq_ok.mpr ⟨l₁, hm, rfl⟩, ⟨fun j hj => ?_, ?_⟩, hhead, ?_⟩
  · rcases List.mem_append.mp hj with hj | hj
    · exact hpool.node j hj
    · rw [List.mem_singleton.mp hj]
      exact ⟨_, hself.node⟩
  · refine List.nodup_append.mpr ⟨hpool.nodup, List.pairwise_singleton _ _, ?_⟩
    intro a ha b hb
    rw [List.mem_singleton.mp hb]
    rintro rfl
    exact hself.used ha
  · intro j t hj hne
    have hj' := hother j t hj hne
    refine ⟨hj'.node, fun hn => ?_⟩
    rcases List.mem_append.mp hn with hn | hn
    · exact hj'.used hn
    · exact hne (List.mem_singleton.mp hn).symm

/-! ## The held range -/

/-- The list holds no segment, or one with the range `blk`, which is linked to no other. Nothing
is said of `tail`, which goes stale. -/
def Holds (l : SegmentList) : Option (Nat × Nat) → Prop
  | none => l.Pool ∧ l.head = -1
  | some (a, n) => l.Pool ∧ ∃ s, l.Owns l.head s ∧ s.seq = a ∧ s.length = n ∧ s.next = -1 ∧
      s.prev = -1

/-- The range of the head segment. -/
def block (l : SegmentList) : Option (Nat × Nat) :=
  (l.get? l.head).map (fun s => (s.seq, s.length))

theorem Holds.block_eq {l : SegmentList} {blk : Option (Nat × Nat)} (h : l.Holds blk) :
    l.block = blk := by
  unfold block
  rcases blk with _ | ⟨a, n⟩
  · rw [h.2, get?_neg_one]
    rfl
  · obtain ⟨-, s, hs, rfl, rfl, -⟩ := h
    rw [hs.node]
    rfl

theorem holds_new (length : Nat) : (new length).Holds none := by
  refine ⟨⟨fun i hi => ?_, ?_⟩, rfl⟩
  · obtain ⟨j, hj, rfl⟩ := List.mem_map.mp hi
    have hlt := List.mem_range.mp hj
    refine ⟨Segment.new j 0 0, get?_eq_some.mpr ⟨Int.natCast_nonneg _, ?_⟩⟩
    show ((List.range length).map _)[((j : Int)).toNat]? = _
    rw [Int.toNat_natCast, List.getElem?_map, List.getElem?_range hlt]
    rfl
  · refine List.Pairwise.map _ (fun i j hne heq => hne ?_) List.nodup_range
    exact Int.ofNat.inj heq

/-- Changing the range of the only segment. -/
theorem Holds.set_range {l : SegmentList} {a n : Nat} (h : l.Holds (some (a, n)))
    (f : Segment → Segment) (a' n' : Nat) (hnext : ∀ s, (f s).next = s.next)
    (hprev : ∀ s, (f s).prev = s.prev) (hseq : ∀ s, s.seq = a → s.length = n → (f s).seq = a')
    (hlen : ∀ s, s.seq = a → s.length = n → (f s).length = n') :
    ∃ l', l.modify l.head f = .ok l' ∧ l'.head = l.head ∧ l'.Holds (some (a', n')) := by
  obtain ⟨hpool, s, hs, ha, hn, hn1, hp1⟩ := h
  obtain ⟨l', hm, hpool', hhead, -, hself, -⟩ := modify_owns hpool hs f
  exact ⟨l', hm, hhead, hpool', f s, hhead ▸ hself, hseq s ha hn, hlen s ha hn,
    (hnext s).trans hn1, (hprev s).trans hp1⟩

/-- With one segment there is nothing to merge. -/
theorem mergeAtIdx_alone {l : SegmentList} {a n fuel : Nat} (h : l.Holds (some (a, n)))
    (hfuel : 1 ≤ fuel) : mergeAtIdx fuel l l.head = .ok l := by
  obtain ⟨-, s, hs, -, -, hnext, -⟩ := h
  obtain ⟨fuel, rfl⟩ := Nat.exists_eq_add_of_le' hfuel
  unfold mergeAtIdx
  rw [seg_of_get? hs.node, bind_ok, hnext]
  rfl

theorem clear_holds {l : SegmentList} {blk : Option (Nat × Nat)} {fuel : Nat} (h : l.Holds blk)
    (hfuel : 2 ≤ fuel) : ∃ l', l.clear fuel = .ok l' ∧ l'.Holds none := by
  obtain ⟨fuel, rfl⟩ := Nat.exists_eq_add_of_le' hfuel
  unfold clear clearLoop
  rcases blk with _ | ⟨a, n⟩
  · obtain ⟨hpool, hhead⟩ := h
    refine ⟨{ l with head := -1, tail := -1 }, ?_, ⟨hpool.node, hpool.nodup⟩, rfl⟩
    rw [if_pos hhead, bind_ok]
  · obtain ⟨hpool, s, hs, -, -, hnext, -⟩ := h
    obtain ⟨l', hrem, hpool', -, -⟩ := removeNode_owns hpool hs
    refine ⟨{ l' with head := -1, tail := -1 }, ?_, ⟨hpool'.node, hpool'.nodup⟩, rfl⟩
    rw [if_neg hs.ne_neg_one, seg_of_get? hs.node, bind_ok, hrem, bind_ok, hnext]
    rfl

theorem oneSegment_holds {l : SegmentList} {a n : Nat} (h : l.Holds (some (a, n))) :
    l.oneSegment = .ok true := by
  obtain ⟨-, s, hs, -, -, hnext, -⟩ := h
  unfold oneSegment
  rw [if_neg hs.ne_neg_one, seg_of_get? hs.node, bind_ok, hnext]
  rfl

/-! ## Insertion -/

/-- The range joins the held one, from behind or by ending where that starts, and the span of
both fits 16 bits: the merge returns and cuts nothing. With nothing held, only the length
counts. -/
def Joins : Option (Nat × Nat) → Nat → Nat → Prop
  | none, _, len => len ≤ u16Max
  | some (a, n), seq, len =>
    (a ≤ seq ∨ seq + len = a) ∧ max (a + n) (seq + len) ≤ min a seq + u16Max

/-- The range ends before the held one starts. It is put before it, and the merge that follows
never returns: it waits for the gap to close. -/
def LeavesGap : Option (Nat × Nat) → Nat → Nat → Prop
  | none, _, _ => False
  | some (a, _), seq, len => seq + len < a ∧ len ≤ u16Max

/-- The range starts before the held one and reaches into it, which is where `merge_at_idx` may
subtract more than there is. -/
def Straddles : Option (Nat × Nat) → Nat → Nat → Prop
  | none, _, _ => False
  | some (a, _), seq, len => seq < a ∧ a < seq + len ∧ len ≤ u16Max

/-- The span of the held range and a new one. -/
def span : Option (Nat × Nat) → Nat → Nat → Nat × Nat
  | none, seq, len => (seq, len)
  | some (a, n), seq, len => (min a seq, max (a + n) (seq + len) - min a seq)

/-- The held range ends below the end of the sequence numbers. -/
def NoWrap : Option (Nat × Nat) → Prop
  | none => True
  | some (a, n) => a + n < 2 ^ 32

theorem Joins.le {blk : Option (Nat × Nat)} {seq len : Nat} (h : Joins blk seq len) :
    len ≤ u16Max := by
  rcases blk with _ | ⟨a, n⟩
  · exact h
  · have := h.2
    omega

theorem LeavesGap.le {blk : Option (Nat × Nat)} {seq len : Nat} (h : LeavesGap blk seq len) :
    len ≤ u16Max := by
  rcases blk with _ | ⟨a, n⟩
  · exact absurd h id
  · exact h.2

theorem Straddles.le {blk : Option (Nat × Nat)} {seq len : Nat} (h : Straddles blk seq len) :
    len ≤ u16Max := by
  rcases blk with _ | ⟨a, n⟩
  · exact absurd h id
  · exact h.2.2

/-- A node for the range, before no other. -/
theorem insertBeforeNode_alone {l : SegmentList} (h : l.Pool) (seq len : Nat) :
    ∃ i l' s, l.insertBeforeNode (-1) seq len = .ok (i, l') ∧ l'.Pool ∧ l'.Owns i s ∧
      s.seq = seq ∧ s.length = len ∧ s.next = -1 ∧ s.prev = -1 := by
  obtain ⟨hpool, -, ⟨s, hs⟩, -⟩ := findAvailableNode_owns h
  obtain ⟨l₁, hm₁, hpool₁, -, -, hs₁, -⟩ :=
    modify_owns hpool hs (fun s => { s with seq := seq, length := len, next := -1 })
  obtain ⟨l₂, hm₂, hpool₂, -, -, hs₂, -⟩ :=
    modify_owns hpool₁ hs₁ (fun s => { s with prev := -1 })
  refine ⟨_, l₂, _, ?_, hpool₂, hs₂, rfl, rfl, rfl, rfl⟩
  unfold insertBeforeNode
  dsimp only
  rw [hm₁, bind_ok, if_neg (by decide), hm₂]
  rfl

/-- A node for the range, before one without a link back: it is the head from then on. -/
theorem insertBeforeNode_head {l : SegmentList} (h : l.Pool) {k : Int} {t : Segment}
    (ht : l.Owns k t) (hprev : t.prev = -1) (seq len : Nat) :
    ∃ i l' s, l.insertBeforeNode k seq len = .ok (i, l') ∧ l'.Pool ∧ l'.head = i ∧
      i ≠ k ∧ l'.Owns k { t with prev := i } ∧ l'.Owns i s ∧ s.seq = seq ∧
      s.length = len ∧ s.next = k ∧ s.prev = -1 ∧
      ∀ j u, l.Owns j u → k ≠ j → i ≠ j ∧ l'.Owns j u := by
  obtain ⟨hpool, -, ⟨s, hs⟩, hold⟩ := findAvailableNode_owns h
  obtain ⟨hne, ht⟩ := hold _ _ ht
  obtain ⟨l₁, hm₁, hpool₁, -, -, hs₁, hother₁⟩ :=
    modify_owns hpool hs (fun s => { s with seq := seq, length := len, next := k })
  have ht₁ := hother₁ _ _ ht hne
  obtain ⟨l₂, hm₂, hpool₂, -, -, hs₂, hother₂⟩ :=
    modify_owns hpool₁ hs₁ (fun s => { s with prev := t.prev })
  have ht₂ := hother₂ _ _ ht₁ hne
  obtain ⟨l₃, hm₃, hpool₃, -, -, ht₃, hother₃⟩ :=
    modify_owns hpool₂ ht₂ (fun s => { s with prev := l.findAvailableNode.1 })
  have hs₃ := hother₃ _ _ hs₂ hne.symm
  refine ⟨_, { l₃ with head := l.findAvailableNode.1 }, _, ?_, ⟨hpool₃.node, hpool₃.nodup⟩, rfl,
    hne, ⟨ht₃.node, ht₃.used⟩, ⟨hs₃.node, hs₃.used⟩, rfl, rfl, rfl, hprev, ?_⟩
  · unfold insertBeforeNode
    dsimp only
    rw [hm₁, bind_ok, if_pos ht.ne_neg_one, seg_of_get? ht₁.node, bind_ok, hm₂, bind_ok, hm₃,
      bind_ok, if_neg (by rw [hprev]; decide)]
  · intro j u hu hj
    obtain ⟨hnew, hu⟩ := hold j u hu
    have hu₃ := hother₃ j u (hother₂ j u (hother₁ j u hu hnew) hnew) hj
    exact ⟨hnew, hu₃.node, hu₃.used⟩

theorem insertSegment_none {l : SegmentList} (h : l.Holds none) (fuel seq len : Nat) :
    ∃ i l', l.insertSegment fuel seq len = .ok (some i, l') ∧ l'.head = i ∧
      l'.Holds (some (seq, len)) := by
  obtain ⟨i, l', s, heq, hpool, hs, hseq, hlen, hnext, hprev⟩ :=
    insertBeforeNode_alone h.1 seq len
  refine ⟨i, { l' with head := i, tail := i }, ?_, rfl, ⟨hpool.node, hpool.nodup⟩, s,
    ⟨hs.node, hs.used⟩, hseq, hlen, hnext, hprev⟩
  unfold insertSegment
  rw [if_pos h.2, heq]
  rfl

section Held

variable {l : SegmentList} {a n fuel seq len : Nat} (h : l.Holds (some (a, n)))
include h

/-- The first step of the walk finds the held segment. -/
theorem walk_held (hwrap : a + n < 2 ^ 32) (hnew : seq + len < 2 ^ 32) (fuel : Nat) :
    walk (fuel + 1) l l.head seq len =
      if a + n = seq then l.extend l.head n seq len
      else if a ≥ seq + len then l.insertBeforeNode l.head seq len
      else if a ≤ seq then l.stretch l.head a (max (a + n) (seq + len))
      else walk fuel l (-1) seq len := by
  obtain ⟨-, s, hs, rfl, rfl, hnext, -⟩ := h
  have hstop : s.stop = s.seq + s.length := wrappingAdd_of_lt hwrap
  rw [walk, if_neg hs.ne_neg_one, seg_of_get? hs.node, bind_ok, hstop, wrappingAdd_of_lt hnew,
    hnext]

/-- The range starts where the held one ends. -/
theorem insertSegment_extends (hwrap : a + n < 2 ^ 32) (hseq : a + n = seq)
    (hfit : n + len ≤ u16Max) (hnew : seq + len < 2 ^ 32) (hfuel : 1 ≤ fuel) :
    ∃ l', l.insertSegment fuel seq len = .ok (some l.head, l') ∧ l'.head = l.head ∧
      l'.Holds (some (a, n + len)) := by
  obtain ⟨fuel, rfl⟩ := Nat.exists_eq_add_of_le' hfuel
  have hne : l.head ≠ -1 := by
    obtain ⟨-, s, hs, -⟩ := h
    exact hs.ne_neg_one
  obtain ⟨l', hm, hhead, hl'⟩ := h.set_range (fun s => { s with length := n + len }) a
    (n + len) (fun _ => rfl) (fun _ => rfl) (fun _ ha _ => ha) (fun _ _ _ => rfl)
  refine ⟨l', ?_, hhead, hl'⟩
  have hmerge := mergeAtIdx_alone hl' (Nat.le_add_left 1 fuel)
  rw [hhead] at hmerge
  unfold insertSegment
  rw [if_neg hne, walk_held h hwrap hnew, if_pos hseq]
  unfold extend
  rw [if_pos hfit, hm, bind_ok, bind_ok]
  dsimp only
  rw [if_neg hne, hmerge]
  rfl

/-- The range starts in the held one, or anywhere behind it. -/
theorem insertSegment_stretches (hwrap : a + n < 2 ^ 32) (hseq : a + n ≠ seq)
    (hafter : a < seq + len) (hle : a ≤ seq) (hfit : max (a + n) (seq + len) ≤ a + u16Max)
    (hnew : seq + len < 2 ^ 32) (hfuel : 1 ≤ fuel) :
    ∃ l', l.insertSegment fuel seq len = .ok (some l.head, l') ∧ l'.head = l.head ∧
      l'.Holds (some (a, max (a + n) (seq + len) - a)) := by
  obtain ⟨fuel, rfl⟩ := Nat.exists_eq_add_of_le' hfuel
  have hne : l.head ≠ -1 := by
    obtain ⟨-, s, hs, -⟩ := h
    exact hs.ne_neg_one
  have htrunc : truncate 16 (max (a + n) (seq + len) - a) = max (a + n) (seq + len) - a := by
    unfold u16Max at hfit
    exact truncate_of_lt (by omega)
  obtain ⟨l', hm, hhead, hl'⟩ := h.set_range
    (fun s => { s with length := truncate 16 (max (a + n) (seq + len) - a) }) a
    (max (a + n) (seq + len) - a) (fun _ => rfl) (fun _ => rfl) (fun _ ha _ => ha)
    (fun _ _ _ => htrunc)
  refine ⟨l', ?_, hhead, hl'⟩
  have hmerge := mergeAtIdx_alone hl' (Nat.le_add_left 1 fuel)
  rw [hhead] at hmerge
  unfold insertSegment
  rw [if_neg hne, walk_held h hwrap hnew, if_neg hseq, if_neg (by omega), if_pos hle]
  unfold stretch
  rw [checkedSub_of_le (by omega), bind_ok, hm, bind_ok, bind_ok]
  dsimp only
  rw [if_neg hne, hmerge]
  rfl

/-- The range ends where the held one starts: the two are merged, and the node of
the held one is freed. -/
theorem insertSegment_precedes (hwrap : a + n < 2 ^ 32) (hseq : a + n ≠ seq)
    (hstop : seq + len = a) (hfit : len + n ≤ u16Max) (hfuel : 2 ≤ fuel) :
    ∃ i l', l.insertSegment fuel seq len = .ok (some i, l') ∧ l'.head = i ∧
      l'.Holds (some (seq, len + n)) := by
  obtain ⟨fuel, rfl⟩ := Nat.exists_eq_add_of_le' hfuel
  have hwalk := walk_held h hwrap (show seq + len < 2 ^ 32 by omega) (fuel + 1)
  rw [if_neg hseq, if_pos (by omega)] at hwalk
  obtain ⟨hpool, t, ht, hta, htn, hnext, hprev⟩ := h
  obtain ⟨i, l₁, s, hins, hpool₁, hhead₁, hne, ht₁, hs₁, hsseq, hslen, hsnext, hsprev, -⟩ :=
    insertBeforeNode_head hpool ht hprev seq len
  have hsstop : s.stop = a := by
    unfold Segment.stop
    rw [hsseq, hslen, wrappingAdd_of_lt (by omega), hstop]
  -- `merge_next`, one assignment after the other
  obtain ⟨l₂, hm₂, hpool₂, hhead₂, -, hs₂, hother₂⟩ :=
    modify_owns hpool₁ hs₁ (fun s => { s with length := n + len })
  have ht₂ := hother₂ _ _ ht₁ hne
  obtain ⟨l₃, hm₃, hpool₃, hhead₃, -, hs₃, hother₃⟩ :=
    modify_owns hpool₂ hs₂ (fun s => { s with next := -1 })
  have ht₃ := hother₃ _ _ ht₂ hne
  obtain ⟨l₄, hm₄, hpool₄, hhead₄, hother₄⟩ := removeNode_owns hpool₃ ht₃
  have hs₄ := hother₄ _ _ hs₃ hne.symm
  have hhead : l₄.head = i := by rw [hhead₄, hhead₃, hhead₂, hhead₁]
  rw [← hhead] at hs₄
  refine ⟨i, l₄, ?_, hhead, hpool₄, _, hs₄, hsseq, Nat.add_comm n len, rfl, hsprev⟩
  have hmerge : mergeNext l₁ i l.head (n + len) = .ok (-1, l₄) := by
    unfold mergeNext linkBack
    rw [hm₂, bind_ok, seg_of_get? ht₂.node, bind_ok]
    dsimp only
    rw [hnext, hm₃, bind_ok, if_neg (by decide), bind_ok, hm₄]
    rfl
  unfold insertSegment
  rw [if_neg ht.ne_neg_one, hwalk, hins, bind_ok]
  dsimp only
  rw [if_neg hs₁.ne_neg_one]
  unfold mergeAtIdx
  rw [seg_of_get? hs₁.node, bind_ok, hsnext, mergeLoop, if_neg ht.ne_neg_one,
    seg_of_get? hs₁.node, bind_ok, seg_of_get? ht₁.node, bind_ok, hsstop]
  dsimp only
  rw [hta, if_pos (Nat.le_refl a), checkedSub_of_le (Nat.le_refl a), bind_ok, Nat.sub_self, htn,
    checkedSub_of_le (Nat.zero_le n), bind_ok, Nat.sub_zero, hslen, if_pos (by omega), hmerge]
  rfl

/-- A gap before the held range: the merging loop does not advance. -/
theorem insertSegment_gap (hwrap : a + n < 2 ^ 32) (hgap : seq + len < a) (fuel : Nat) :
    l.insertSegment fuel seq len = .timeout := by
  cases fuel with
  | zero =>
    obtain ⟨-, t, ht, -⟩ := h
    unfold insertSegment
    rw [if_neg ht.ne_neg_one]
    rfl
  | succ fuel =>
    have hwalk := walk_held h hwrap (show seq + len < 2 ^ 32 by omega) fuel
    rw [if_neg (by omega), if_pos (by omega)] at hwalk
    obtain ⟨hpool, t, ht, hta, -, -, hprev⟩ := h
    obtain ⟨i, l₁, s, hins, -, -, hne, ht₁, hs₁, hsseq, hslen, hsnext, -⟩ :=
      insertBeforeNode_head hpool ht hprev seq len
    have hsstop : s.stop = seq + len := by
      unfold Segment.stop
      rw [hsseq, hslen, wrappingAdd_of_lt (by omega)]
    -- neither `idx` nor `next` ever changes
    have hloop : ∀ fuel, mergeLoop fuel l₁ i l.head = .timeout := by
      intro fuel
      induction fuel with
      | zero => rfl
      | succ fuel ih =>
        rw [mergeLoop, if_neg ht.ne_neg_one, seg_of_get? hs₁.node, bind_ok,
          seg_of_get? ht₁.node, bind_ok, hsstop]
        dsimp only
        rw [hta, if_neg (by omega), ih]
    unfold insertSegment
    rw [if_neg ht.ne_neg_one, hwalk, hins, bind_ok]
    dsimp only
    rw [if_neg hs₁.ne_neg_one]
    unfold mergeAtIdx
    rw [seg_of_get? hs₁.node, bind_ok, hsnext, hloop]
    rfl

/-- A range that reaches into the held one from before does not become the head. -/
theorem insertSegment_behind (hwrap : a + n < 2 ^ 32) (hlt : seq < a) (hin : a < seq + len)
    (hnew : seq + len < 2 ^ 32) (hfuel : 2 ≤ fuel) :
    l.insertSegment fuel seq len ≠ .timeout ∧
      ∀ i l', l.insertSegment fuel seq len = .ok (some i, l') → l'.head ≠ i := by
  obtain ⟨fuel, rfl⟩ := Nat.exists_eq_add_of_le' hfuel
  have hwalk := walk_held h hwrap hnew (fuel + 1)
  rw [if_neg (by omega), if_neg (by omega), if_neg (by omega)] at hwalk
  obtain ⟨hpool, t, ht, -⟩ := h
  obtain ⟨-, hhead, -, hold⟩ := findAvailableNode_owns hpool
  obtain ⟨hne, -⟩ := hold _ _ ht
  have heq : l.insertSegment (fuel + 2) seq len =
      (l.insertAtTail seq len >>= fun p => .ok (some p.1, p.2)) := by
    unfold insertSegment
    rw [if_neg ht.ne_neg_one, hwalk]
    rfl
  rw [heq]
  have hmod : ∀ (l : SegmentList) (i : Int) (f : Segment → Segment), l.modify i f ≠ .timeout := by
    intro l i f hm
    unfold modify at hm
    split at hm <;> cases hm
  unfold insertAtTail
  dsimp only
  refine ⟨fun hto => ?_, fun i l' hok => ?_⟩
  · rw [bind_eq_timeout] at hto
    rcases hto with hto | ⟨_, _, hto⟩
    · rw [bind_eq_timeout] at hto
      rcases hto with hto | ⟨l₁, -, hto⟩
      · exact hmod _ _ _ hto
      · rw [bind_eq_timeout] at hto
        rcases hto with hto | ⟨l₂, -, hto⟩
        · exact hmod _ _ _ hto
        · cases hto
    · cases hto
  · rw [bind_eq_ok] at hok
    obtain ⟨p, hp, hok⟩ := hok
    cases hok
    rw [bind_eq_ok] at hp
    obtain ⟨l₁, hm₁, hp⟩ := hp
    rw [bind_eq_ok] at hp
    obtain ⟨l₂, hm₂, hp⟩ := hp
    cases hp
    show l₂.head ≠ l.findAvailableNode.1
    rw [head_of_modify hm₂, head_of_modify hm₁, hhead]
    exact hne.symm

end Held

/-- A range that joins: the list holds the span, in its head. -/
theorem insertSegment_joins {l : SegmentList} {blk : Option (Nat × Nat)} {seq len fuel : Nat}
    (h : l.Holds blk) (hwrap : NoWrap blk) (hjoins : Joins blk seq len)
    (hnew : seq + len < 2 ^ 32) (hfuel : 2 ≤ fuel) :
    ∃ i l', l.insertSegment fuel seq len = .ok (some i, l') ∧ l'.head = i ∧
      l'.Holds (some (span blk seq len)) := by
  rcases blk with _ | ⟨a, n⟩
  · exact insertSegment_none h fuel seq len
  · obtain ⟨hplace, hfit⟩ := hjoins
    have hwrap : a + n < 2 ^ 32 := hwrap
    unfold span
    dsimp only
    by_cases hext : a + n = seq
    · obtain ⟨l', heq, hhead, hl'⟩ :=
        insertSegment_extends h hwrap hext (show n + len ≤ u16Max by omega) hnew
          (show 1 ≤ fuel by omega)
      have hspan : (min a seq, max (a + n) (seq + len) - min a seq) = (a, n + len) := by
        rw [Prod.mk.injEq]
        omega
      exact ⟨_, l', heq, hhead, hspan ▸ hl'⟩
    · by_cases hbefore : seq + len ≤ a
      · obtain ⟨i, l', heq, hhead, hl'⟩ :=
          insertSegment_precedes h hwrap hext (show seq + len = a by omega) (by omega) hfuel
        have hspan : (min a seq, max (a + n) (seq + len) - min a seq) = (seq, len + n) := by
          rw [Prod.mk.injEq]
          omega
        exact ⟨i, l', heq, hhead, hspan ▸ hl'⟩
      · obtain ⟨l', heq, hhead, hl'⟩ :=
          insertSegment_stretches h hwrap hext (show a < seq + len by omega) (by omega) (by omega)
            hnew (show 1 ≤ fuel by omega)
        have hspan : (min a seq, max (a + n) (seq + len) - min a seq) =
            (a, max (a + n) (seq + len) - a) := by
          rw [Prod.mk.injEq]
          omega
        exact ⟨_, l', heq, hhead, hspan ▸ hl'⟩

/-- A range that leaves a gap: insertion does not return. -/
theorem insertSegment_leavesGap {l : SegmentList} {blk : Option (Nat × Nat)} {seq len : Nat}
    (h : l.Holds blk) (hwrap : NoWrap blk) (hgap : LeavesGap blk seq len) (fuel : Nat) :
    l.insertSegment fuel seq len = .timeout := by
  rcases blk with _ | ⟨a, n⟩
  · exact absurd hgap id
  · exact insertSegment_gap h hwrap hgap.1 fuel

/-- A range that straddles the start: insertion returns, but not the head. -/
theorem insertSegment_straddles {l : SegmentList} {blk : Option (Nat × Nat)} {seq len fuel : Nat}
    (h : l.Holds blk) (hwrap : NoWrap blk) (hstr : Straddles blk seq len)
    (hnew : seq + len < 2 ^ 32) (hfuel : 2 ≤ fuel) :
    l.insertSegment fuel seq len ≠ .timeout ∧
      ∀ i l', l.insertSegment fuel seq len = .ok (some i, l') → l'.head ≠ i := by
  rcases blk with _ | ⟨a, n⟩
  · exact absurd hstr id
  · exact insertSegment_behind h hwrap hstr.1 hstr.2.1 hnew hfuel

/-! ## Consumption -/

/-- What is left of the held range after `consumed` bytes from `seq` on. -/
def afterConsume (a n seq consumed : Nat) : Option (Nat × Nat) :=
  if a ≠ seq then some (a, n)
  else if n ≤ consumed then none
  else some (a + consumed, n - consumed)

theorem consumeHeadData_holds {l : SegmentList} {a n fuel : Nat}
    (h : l.Holds (some (a, n))) (seq consumed : Nat) (hwrap : a + n < 2 ^ 32) (hfuel : 1 ≤ fuel) :
    ∃ r l', l.consumeHeadData fuel seq consumed = .ok (r, l') ∧
      l'.Holds (afterConsume a n seq consumed) := by
  have hseg : ∃ s, l.seg l.head = .ok s ∧ s.seq = a ∧ s.length = n := by
    obtain ⟨-, s, hs, ha, hn, -⟩ := h
    exact ⟨s, seg_of_get? hs.node, ha, hn⟩
  obtain ⟨s, hs, rfl, rfl⟩ := hseg
  unfold consumeHeadData
  rw [hs, bind_ok]
  dsimp only
  by_cases hseq : s.seq = seq
  · rw [if_neg (by simpa using hseq)]
    obtain ⟨l₁, hm, hhead, hl₁⟩ := h.set_range
      (fun t => { t with
        seq := wrappingAdd 32 t.seq (min consumed s.length)
        length := t.length - min consumed s.length })
      (s.seq + min consumed s.length) (s.length - min consumed s.length)
      (fun _ => rfl) (fun _ => rfl)
      (fun t ha _ => by
        show wrappingAdd 32 t.seq _ = _
        rw [ha, wrappingAdd_of_lt (by omega)])
      (fun t _ hn => by
        show t.length - _ = _
        rw [hn])
    rw [hm, bind_ok]
    unfold settleHead afterConsume
    rw [if_neg (show ¬ s.seq ≠ seq from fun hne => hne hseq)]
    by_cases hall : s.length ≤ consumed
    · -- nothing left: the head node is freed
      rw [if_pos (by omega), if_pos hall]
      obtain ⟨hpool, t, ht, -, -, hnext, -⟩ := hl₁
      have hpool' : Pool { l₁ with head := t.next } := ⟨hpool.node, hpool.nodup⟩
      obtain ⟨l', hrem, hpl', hh', -⟩ := removeNode_owns hpool' ⟨ht.node, ht.used⟩
      have hhr : l₁.removeHead = .ok l' := by
        unfold removeHead
        dsimp only
        rw [seg_of_get? ht.node]
        exact hrem
      rw [hhr]
      exact ⟨_, l', rfl, hpl', hh'.trans hnext⟩
    · rw [if_neg (by omega), if_neg hall, mergeAtIdx_alone hl₁ hfuel]
      have hmin : min consumed s.length = consumed := by omega
      rw [hmin] at hl₁ ⊢
      exact ⟨_, l₁, rfl, hl₁⟩
  · rw [if_pos hseq]
    unfold afterConsume
    rw [if_pos hseq]
    exact ⟨_, l, rfl, h⟩

/-- With no segment there is no head to read from. -/
theorem consumeHeadData_none {l : SegmentList} (h : l.Holds none) (fuel seq consumed : Nat) :
    l.consumeHeadData fuel seq consumed = .panic .index := by
  unfold consumeHeadData
  rw [h.2, seg_of_none (get?_neg_one l)]
  rfl

end NetBricks.State.SegmentList
