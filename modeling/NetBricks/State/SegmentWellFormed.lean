import Mathlib.Data.List.TakeWhile
import NetBricks.Lib.Machine
import NetBricks.State.SegmentLinks
import NetBricks.State.SegmentStray

/-!
# When the segment list stays well-formed

The calls of `SegmentList` from outside are `insert_segment`, `consume_head_data` and
`clear`. Three things they do leave the links in disorder, and nothing else does
(`call_wellFormed_iff`):

* `insert_segment` fills a segment that has another one behind it to its 16 bits and puts the
  rest into a new node between the two: `insert_after_node` does not link the old one back.
* a merge frees the last node of the list: `merge_at_idx` leaves `tail` at it.
* `consume_head_data` uses up the head: `remove_head` neither clears the link back of the new
  head nor, on the last node, `tail`.

Whether a call that returns does one of them can be told from the ranges of the list
(`ranges`) and the arguments (`Spares`). `clear` puts things in order again. A run keeps the
list well-formed throughout exactly when every call of it spares the list
(`segmentList_wellFormed_iff`).
-/

namespace NetBricks.State

open Lib
open Lib.Outcome

namespace SegmentList

/-! ## The ranges of a linked list -/

/-- The range of a node. -/
def range (l : SegmentList) (i : Int) : Nat × Nat :=
  ((l.get? i).map fun s => (s.seq, s.length)).getD (0, 0)

theorem range_of_get? {l : SegmentList} {i : Int} {s : Segment} (hs : l.get? i = some s) :
    l.range i = (s.seq, s.length) := by
  rw [range, hs]
  rfl

/-- The ranges from a node on, of so many nodes at most. -/
def rangesFrom (l : SegmentList) : Nat → Int → List (Nat × Nat)
  | 0, _ => []
  | fuel + 1, i =>
    match l.get? i with
    | none => []
    | some s => (s.seq, s.length) :: l.rangesFrom fuel s.next

/-- The ranges of the list: it has no more nodes than the storage. -/
def ranges (l : SegmentList) : List (Nat × Nat) := l.rangesFrom l.storage.length l.head

section Ranges

variable {l : SegmentList} {i : Int} {s : Segment} {nodes pre rest : List Int}
  {rs : List (Nat × Nat)}

theorem Trail.rangesFrom_eq (h : l.Trail i nodes rs) :
    ∀ {fuel : Nat}, nodes.length ≤ fuel → l.rangesFrom fuel i = rs := by
  induction h with
  | nil =>
    intro fuel _
    cases fuel with
    | zero => rfl
    | succ fuel => rw [rangesFrom, get?_neg_one]
  | cons hs _ _ ih =>
    intro fuel hle
    cases fuel with
    | zero => exact absurd hle (Nat.not_succ_le_zero _)
    | succ fuel =>
      rw [rangesFrom, hs.node]
      exact congrArg _ (ih (Nat.le_of_succ_le_succ hle))

theorem Trail.ranges_eq (h : l.Trail l.head nodes rs) : l.ranges = rs :=
  h.rangesFrom_eq h.chain.length_le

theorem Threads.owns (h : l.Threads nodes) (hi : i ∈ nodes) (hs : l.get? i = some s) : l.Owns i s :=
  ⟨hs, h.notMem_available hi⟩

theorem Threads.pool (h : l.Threads nodes) : l.Pool := by
  refine ⟨fun i hi => mem_indices.mp (h.parted.subset (List.mem_append_right _ hi)), ?_⟩
  exact (List.nodup_append.mp h.nodup_append).2.1

/-- What is behind a node of the list. -/
theorem Threads.trail_behind (h : l.Threads (pre ++ [i] ++ rest)) (hs : l.get? i = some s) :
    l.Trail s.next rest (rest.map l.range) := by
  induction rest generalizing pre i s with
  | nil =>
    rw [(h.node hs).2]
    exact .nil
  | cons j rest ih =>
    obtain ⟨t, ht⟩ := h.exists_node (i := j) (by simp)
    have hfresh : j ∉ rest := (List.nodup_cons.mp (List.nodup_append.mp h.nodup).2.1).1
    have hown : l.Owns j t := h.owns (by simp) ht
    have h' : l.Threads (pre ++ [i] ++ [j] ++ rest) := by simpa using h
    rw [(h.node hs).2, List.map_cons, range_of_get? ht]
    exact .cons hown hfresh (ih h' ht)

theorem Threads.trail (h : l.Threads nodes) : l.Trail l.head nodes (nodes.map l.range) := by
  rw [h.head_eq]
  cases nodes with
  | nil => exact .nil
  | cons i rest =>
    obtain ⟨s, hs⟩ := h.exists_node (i := i) List.mem_cons_self
    have hfresh : i ∉ rest := (List.nodup_cons.mp h.nodup).1
    have h' : l.Threads ([] ++ [i] ++ rest) := h
    rw [List.map_cons, range_of_get? hs]
    exact .cons (h.owns List.mem_cons_self hs) hfresh (h'.trail_behind hs)

theorem Threads.ranges_eq (h : l.Threads nodes) : l.ranges = nodes.map l.range :=
  h.trail.ranges_eq

end Ranges

/-! ## What a merge leaves -/

/-- Each of the ranges fits the first in whole: a merge that returns leaves none of them. -/
def AllFit (x : Nat) : Nat → List (Nat × Nat) → Prop
  | _, [] => True
  | m, (c, k) :: rs => m + (k - overlap x m c) ≤ u16Max ∧ AllFit x (m + (k - overlap x m c)) rs

/-- A merge of the ranges with the first does not free the last: there are none, or some do not
fit. -/
def SparesLast (x m : Nat) (rs : List (Nat × Nat)) : Prop := rs = [] ∨ ¬ AllFit x m rs

/-- A merge frees all nodes behind, or not the last. -/
theorem mergeLoop_frees : ∀ (fuel : Nat) {l l' : SegmentList} {i : Int} {s : Segment}
    {nodes : List Int} {rs : List (Nat × Nat)}, l.Pool → l.Owns i s → i ∉ nodes →
    l.Trail s.next nodes rs → mergeLoop fuel l i s.next = .ok l' →
    ∀ k ∈ nodes.getLast?, k ∈ l'.available ↔ AllFit s.seq s.length rs := by
  intro fuel
  induction fuel with
  | zero =>
    intro l l' i s nodes rs _ _ _ _ h
    cases h
  | succ fuel ih =>
    intro l l' i s nodes rs hp hs hi htrail h
    generalize hk : s.next = k at h htrail
    cases htrail with
    | nil => exact fun k hk => absurd hk (Option.not_mem_none k)
    | @cons _ t nodes rs ht hj hrest =>
      have hij : i ≠ k := fun he => hi (he ▸ List.mem_cons_self)
      have hi' : i ∉ nodes := fun hm => hi (List.mem_cons_of_mem _ hm)
      cases mergeLoop_turn hs.node ht.node h with
      | all _ _ hfits h =>
        rw [Nat.add_comm] at hfits h
        obtain ⟨l₁, hl₁, hp₁, -, hs₁, htr₁, -⟩ :=
          mergeNext_trail hp hs ht hij hi' hj hrest (s.length + (t.length - (s.stop - t.seq)))
        have havail := mergeNext_available hl₁
        rw [hl₁, bind_ok] at h
        have hlater := ih hp₁ hs₁ hi' htr₁ h
        have hfits : s.length + (t.length - overlap s.seq s.length t.seq) ≤ u16Max := hfits
        intro j hlast
        rw [AllFit, and_iff_right hfits]
        cases hnodes : nodes.getLast? with
        | some j' =>
          rw [List.getLast?_cons, hnodes] at hlast
          cases Option.some.inj hlast
          exact hlater _ hnodes
        | none =>
          -- the only one is freed
          cases List.getLast?_eq_none_iff.mp hnodes
          cases Option.some.inj hlast
          have hnil : rs = [] := by
            generalize t.next = q at hrest
            cases hrest
            rfl
          rw [hnil]
          refine iff_of_true (mergeLoop_available fuel h ?_) trivial
          rw [havail]
          exact List.mem_append_right _ List.mem_cons_self
      | part _ _ hlarge h =>
        rw [Nat.add_comm] at hlarge
        intro j hlast
        refine iff_of_false ?_ (fun hfit => Nat.not_le_of_lt hlarge hfit.1)
        rw [mergePart_available h]
        obtain ⟨u, hu⟩ := (Trail.cons ht hj hrest).chain.owns j (List.mem_of_getLast? hlast)
        exact hu.used
      | again h =>
        subst hk
        exact ih hp hs hi (.cons ht hj hrest) h

/-- Merging keeps the list well-formed exactly when it spares the last node. -/
theorem Threads.mergeAtIdx_iff {fuel : Nat} {l l' : SegmentList} {i : Int} {s : Segment}
    {pre rest : List Int} (h : l.Threads (pre ++ [i] ++ rest)) (hs : l.get? i = some s)
    (htail : l.tail = (pre ++ [i] ++ rest).getLast?.getD (-1))
    (hm : SegmentList.mergeAtIdx fuel l i = .ok l') :
    l'.WellFormed ↔ SparesLast s.seq s.length (rest.map l.range) := by
  obtain ⟨hwf, hfree⟩ := h.mergeAtIdx htail hm
  rw [hwf]
  have hi : i ∉ rest := fun hm =>
    (List.nodup_append.mp h.nodup).2.2 i (by simp) i hm rfl
  rw [SegmentList.mergeAtIdx, seg_of_get? hs, bind_ok] at hm
  have hlast := mergeLoop_frees fuel h.pool (h.owns (by simp) hs) hi (h.trail_behind hs) hm
  cases hrest : rest.getLast? with
  | none =>
    cases List.getLast?_eq_none_iff.mp hrest
    rw [List.append_nil, List.getLast?_concat] at htail
    exact iff_of_true (htail ▸ hfree) (.inl rfl)
  | some k =>
    rw [List.getLast?_append, hrest] at htail
    have hne : rest.map l.range ≠ [] := by
      intro he
      rw [List.map_eq_nil_iff.mp he] at hrest
      cases hrest
    have htail : l.tail = k := htail
    rw [htail, hlast k hrest, SparesLast, or_iff_right hne]

/-! ## Insertion -/

/-- The ranges from the one where the walk of `insert_segment` halts. That one is extended by the
new segment, or filled if there is no room, and then nothing may come behind it; or the new one
is put before it; or it is stretched. -/
def SparesAt (seq len : Nat) : List (Nat × Nat) → Prop
  | [] => True
  | (a, n) :: rs =>
    if wrappingAdd 32 a n = seq then
      if n + len ≤ u16Max then SparesLast a (n + len) rs else rs = []
    else if wrappingAdd 32 seq len ≤ a then SparesLast seq len ((a, n) :: rs)
    else SparesLast a (truncate 16 (max (wrappingAdd 32 a n) (wrappingAdd 32 seq len) - a)) rs

instance (seq len : Nat) : DecidablePred (Passed seq len) := fun r =>
  inferInstanceAs (Decidable (wrappingAdd 32 r.1 r.2 ≠ seq ∧ r.1 < wrappingAdd 32 seq len ∧
    seq < r.1))

/-- The ranges from the one where the walk halts. -/
theorem Halt.dropWhile_eq {l : SegmentList} {seq len : Nat} {nodes before after : List Int}
    {rs pre post : List (Nat × Nat)} {i : Int} {s : Segment}
    (h : Halt l seq len nodes rs before pre i s after post) :
    (rs.dropWhile fun r => Passed seq len r) = (s.seq, s.length) :: post := by
  rw [h.ranges_eq, List.dropWhile_append_of_pos (fun r hr => decide_eq_true (h.passed r hr)),
    List.dropWhile_cons_of_neg (by rw [decide_eq_true_eq]; exact h.halts)]

section Insert

variable {fuel : Nat} {l l₁ l' : SegmentList} {i k idx : Int} {s : Segment} {seq len : Nat}
  {nodes pre rest : List Int}

/-- A full segment takes nothing from the one that starts where it ends. -/
theorem mergeLoop_full {t : Segment} (hs : l.get? i = some s) (ht : l.get? k = some t)
    (hfull : s.length = u16Max) (hstop : s.stop = t.seq) (hpos : 0 < t.length)
    (h : mergeLoop fuel l i k = .ok l') : l.mergePart i k s.length = .ok l' := by
  induction fuel with
  | zero => cases h
  | succ fuel ih =>
    cases mergeLoop_turn hs ht h with
    | all _ _ hfits _ => omega
    | part _ _ _ h => exact h
    | again h => exact ih h

/-- What `insert_segment` does where the new segment starts at the end of another: it fits, or
the other is filled and the rest goes to a new node. -/
theorem extend_eq_ok (h : l.extend i s.length seq len = .ok (idx, l')) :
    idx = i ∧
      ((s.length + len ≤ u16Max ∧
          l.modify i (fun s' => { s' with length := s.length + len }) = .ok l') ∨
        (s.length ≤ u16Max ∧ u16Max < s.length + len ∧ ∃ l₁ k,
          l.modify i (fun s' => { s' with length := s'.length + (u16Max - s.length) }) = .ok l₁ ∧
          l₁.insertAfterNode i (wrappingAdd 32 seq (u16Max - s.length))
            (len - (u16Max - s.length)) = .ok (k, l'))) := by
  unfold extend at h
  split at h
  · next hfits =>
    obtain ⟨l₁, hl₁, h⟩ := bind_eq_ok.mp h
    cases h
    exact ⟨rfl, .inl ⟨hfits, hl₁⟩⟩
  · next hlarge =>
    obtain ⟨maxLen, hmax, h⟩ := bind_eq_ok.mp h
    obtain ⟨hle, rfl⟩ := checkedSub_eq_ok.mp hmax
    obtain ⟨l₁, hl₁, h⟩ := bind_eq_ok.mp h
    obtain ⟨lenNew, hnew, h⟩ := bind_eq_ok.mp h
    obtain ⟨-, rfl⟩ := checkedSub_eq_ok.mp hnew
    obtain ⟨⟨k, l₂⟩, hl₂, h⟩ := bind_eq_ok.mp h
    cases h
    exact ⟨rfl, .inr ⟨hle, Nat.lt_of_not_le hlarge, l₁, k, hl₁, hl₂⟩⟩

/-- Only the range of the node was changed before the merge. -/
theorem Threads.mergeAtIdx_range {f : Segment → Segment} (h : l.Threads (pre ++ [i] ++ rest))
    (hs : l.get? i = some s) (htail : l.tail = (pre ++ [i] ++ rest).getLast?.getD (-1))
    (hl₁ : l.modify i f = .ok l₁) (hf : ∀ s, (f s).prev = s.prev ∧ (f s).next = s.next)
    (hm : SegmentList.mergeAtIdx fuel l₁ i = .ok l') :
    l'.WellFormed ↔ SparesLast (f s).seq (f s).length (rest.map l.range) := by
  have hframe := frame_of_modify hl₁
  have hthr := h.of_frame (links_of_modify_range hl₁ hf) hframe
  have hs₁ := get?_of_modify hl₁ hs
  rw [if_pos rfl] at hs₁
  rw [hthr.mergeAtIdx_iff hs₁ (hframe.tail_eq.trans htail) hm]
  -- the others have their ranges
  have hmap : rest.map l₁.range = rest.map l.range := by
    refine List.map_congr_left fun j hj => ?_
    have hij : i ≠ j := (List.nodup_append.mp h.nodup).2.2 i (by simp) j hj
    obtain ⟨t, ht⟩ := h.exists_node (i := j) (by simp [hj])
    have ht₁ := get?_of_modify hl₁ ht
    rw [if_neg hij] at ht₁
    rw [range_of_get? ht, range_of_get? ht₁]
  rw [hmap]

/-- The merge after a segment was filled writes no link. -/
theorem mergeAtIdx_filled {l₀ : SegmentList} (hk : l₁.findAvailableNode = (k, l₀)) (hki : k ≠ i)
    (hs : l₁.get? i = some s) (hfull : s.length = u16Max) (hpos : 0 < len)
    (hins : l₁.insertAfterNode i s.stop len = .ok (idx, l))
    (hm : mergeAtIdx fuel l i = .ok l') :
    l'.links = (l₀.links.setLinks k (i, s.next)).setNext i k ∧
      Frame { l₀ with tail := if s.next = -1 then k else l₀.tail } l' := by
  obtain ⟨hlinks, hframe, hs', t, ht, hseq, hlen⟩ :=
    insertAfterNode_links hk hki (get?_findAvailableNode hk hs) hins
  rw [mergeAtIdx, seg_of_get? hs', bind_ok] at hm
  obtain ⟨hlinks', hframe'⟩ :=
    mergePart_links (mergeLoop_full hs' ht hfull hseq.symm (hlen ▸ hpos) hm)
  exact ⟨hlinks'.trans hlinks, hframe.trans hframe'⟩

/-- Filling a segment keeps the list well-formed only at its end. -/
theorem Threads.overfill (h : l.Threads (pre ++ [i] ++ rest)) (hs : l.get? i = some s)
    (hfull : s.length = u16Max) (hpos : 0 < len)
    (hins : l.insertAfterNode i s.stop len = .ok (idx, l₁))
    (hm : SegmentList.mergeAtIdx fuel l₁ i = .ok l') :
    l'.WellFormed ↔ s.next = -1 := by
  obtain ⟨⟨k, l₀⟩, hk⟩ : ∃ r, l.findAvailableNode = r := ⟨_, rfl⟩
  obtain ⟨htaken, hhead, -⟩ := h.findAvailableNode hk
  have himem : i ∈ pre ++ [i] ++ rest := by simp
  have hki : k ≠ i := htaken.ne_of_mem himem
  obtain ⟨hlinks, hframe⟩ := mergeAtIdx_filled hk hki hs hfull hpos hins hm
  have hnext := (h.node hs).2
  cases rest with
  | nil =>
    have hnext : s.next = -1 := hnext
    rw [hnext, if_pos rfl] at hframe
    rw [hnext] at hlinks
    rw [List.append_nil] at htaken h
    refine ⟨fun _ => hnext, fun _ => ⟨_, htaken.push hlinks (hhead.trans h.head_eq) hframe, ?_⟩⟩
    rw [hframe.tail_eq, List.getLast?_concat]
    rfl
  | cons j rest =>
    have hnext : s.next = j := hnext
    have hj : j ≠ -1 := fun he => h.neg_one_notMem (by simp [← he])
    refine ⟨fun hwf => ?_, fun he => absurd (hnext.symm.trans he) hj⟩
    obtain ⟨nodes, hnodes, -⟩ := hwf
    have hjk : j ≠ k := fun he => htaken.notMem (by simp [← he])
    have hji : j ≠ i := fun he => (List.nodup_append.mp h.nodup).2.2 i (by simp) j (by simp) he.symm
    -- the new node is in use, but the node behind it is not linked back to it
    have hkmem : k ∈ nodes := by
      obtain ⟨t, ht⟩ := htaken.exists_node List.mem_cons_self
      obtain ⟨t', ht'⟩ := mem_indices.mp (hframe.indices_eq ▸ mem_indices.mpr ⟨t, ht⟩)
      exact hnodes.mem_of_notMem ht' (hframe.available_eq ▸ htaken.notMem_available)
    rw [hnext] at hlinks
    have hlinks_i := links_of_get? (get?_findAvailableNode hk hs)
    rw [hnext] at hlinks_i
    exact absurd hnodes.linked
      (htaken.linked.not_linked_of_skipped himem hlinks_i hj hji htaken.notMem hjk hlinks hkmem)

/-- A new node before another has the range, and the others keep theirs. -/
theorem insertBeforeNode_range (hp : l.Pool) (hs : l.Owns i s)
    (h : l.insertBeforeNode i seq len = .ok (idx, l')) :
    l'.range idx = (seq, len) ∧ ∀ j t, l.Owns j t → l'.range j = (t.seq, t.length) := by
  by_cases hprev : s.prev = -1
  · obtain ⟨k, l₂, t, hl₂, -, -, -, hs₂, ht, rfl, rfl, -, -, hother⟩ :=
      insertBeforeNode_head hp hs hprev seq len
    cases Outcome.ok.inj (h.symm.trans hl₂)
    refine ⟨range_of_get? ht.node, fun j u hu => ?_⟩
    by_cases hij : i = j
    · subst hij
      cases Option.some.inj (hs.node.symm.trans hu.node)
      rw [range_of_get? hs₂.node]
    · exact range_of_get? (hother j u hu hij).2.node
  · have hpatch := insertBeforeNode_linked hp hs hprev h
    obtain ⟨t, ht, rfl, rfl, -⟩ := hpatch.new
    refine ⟨range_of_get? ht.node, fun j u hu => ?_⟩
    obtain ⟨-, u', hu', hseq, hlen, -⟩ := hpatch.old j u hu
    rw [range_of_get? hu'.node, hseq, hlen]

/-- Where the walk halts: what the merge that follows leaves. -/
theorem Threads.stops (h : l.Threads (pre ++ [i] ++ rest))
    (htail : l.tail = (pre ++ [i] ++ rest).getLast?.getD (-1)) (hs : l.get? i = some s)
    (hst : Stops l seq len i s idx l₁) (hm : SegmentList.mergeAtIdx fuel l₁ idx = .ok l') :
    l'.WellFormed ↔ SparesAt seq len ((s.seq, s.length) :: rest.map l.range) := by
  rw [SparesAt]
  cases hst with
  | extend hstop hext =>
    rw [if_pos (show wrappingAdd 32 s.seq s.length = seq from hstop)]
    obtain ⟨rfl, ⟨hfits, hl₁⟩ | ⟨hle, hlarge, l₂, k, hl₂, hins⟩⟩ := extend_eq_ok hext
    · rw [if_pos hfits]
      exact h.mergeAtIdx_range hs htail hl₁ (fun _ => ⟨rfl, rfl⟩) hm
    · have hframe := frame_of_modify hl₂
      have hthr₂ := h.of_frame (links_of_modify_range hl₂ (fun _ => ⟨rfl, rfl⟩)) hframe
      have hs₂ := get?_of_modify hl₂ hs
      rw [if_pos rfl, Nat.add_sub_cancel' hle] at hs₂
      -- the new node starts where the filled one ends now
      have hseq : wrappingAdd 32 seq (u16Max - s.length) =
          Segment.stop { s with length := u16Max } := by
        rw [← hstop]
        simp only [Segment.stop, wrappingAdd, Nat.mod_add_mod]
        rw [Nat.add_assoc, Nat.add_sub_cancel' hle]
      rw [hseq] at hins
      rw [if_neg (Nat.not_le_of_lt hlarge), hthr₂.overfill hs₂ rfl (by omega) hins hm,
        (h.node hs).2, List.map_eq_nil_iff]
      cases rest with
      | nil => exact iff_of_true rfl rfl
      | cons j rest =>
        have hj : j ≠ -1 := fun he => h.neg_one_notMem (by simp [← he])
        exact iff_of_false hj (List.cons_ne_nil _ _)
  | before hstop hge hins =>
    rw [if_neg (show wrappingAdd 32 s.seq s.length ≠ seq from hstop), if_pos hge]
    obtain ⟨hthr, htail'⟩ := h.insertBeforeNode hins
    obtain ⟨hnew, hold⟩ := insertBeforeNode_range h.pool (h.owns (by simp) hs) hins
    have hlast : (pre ++ [i] ++ rest).getLast? = (pre ++ [idx] ++ i :: rest).getLast? := by
      simp [List.getLast?_append, List.getLast?_cons]
    obtain ⟨t, ht⟩ := hthr.exists_node (i := idx) (by simp)
    rw [range_of_get? ht] at hnew
    obtain ⟨rfl, rfl⟩ := Prod.mk.inj hnew
    have hmap : (i :: rest).map l₁.range = (s.seq, s.length) :: rest.map l.range := by
      rw [List.map_cons, hold i s (h.owns (by simp) hs)]
      refine congrArg _ (List.map_congr_left fun j hj => ?_)
      obtain ⟨u, hu⟩ := h.exists_node (i := j) (by simp [hj])
      rw [hold j u (h.owns (by simp [hj]) hu), range_of_get? hu]
    rw [← hmap]
    exact hthr.mergeAtIdx_iff ht (by rw [htail', htail, hlast]) hm
  | stretch hstop hlt hle hstr =>
    rw [if_neg (show wrappingAdd 32 s.seq s.length ≠ seq from hstop), if_neg hlt]
    obtain ⟨rfl, -, hl₁⟩ := stretch_eq_ok hstr
    exact h.mergeAtIdx_range hs htail hl₁ (fun _ => ⟨rfl, rfl⟩) hm

theorem Threads.stops_ne (h : l.Threads (pre ++ [i] ++ rest)) (hst : Stops l seq len i s idx l₁) :
    idx ≠ -1 := by
  have hi : i ≠ -1 := fun he => h.neg_one_notMem (by simp [← he])
  cases hst with
  | extend _ hext => exact (extend_eq_ok hext).1 ▸ hi
  | before _ _ hins =>
    exact fun he => (h.insertBeforeNode hins).1.neg_one_notMem (by simp [← he])
  | stretch _ _ _ hstr => exact (stretch_eq_ok hstr).1 ▸ hi

theorem Threads.head_eq_neg_one (h : l.Threads nodes) : l.head = -1 ↔ nodes = [] := by
  rw [h.head_eq]
  cases nodes with
  | nil => simp
  | cons i nodes =>
    have hi : i ≠ -1 := fun he => h.neg_one_notMem (by simp [← he])
    simp [hi]

theorem Threads.insertFirst (h : l.Threads [])
    (hins : l.insertBeforeNode (-1) seq len = .ok (k, l₁)) :
    SegmentList.Threads { l₁ with head := k, tail := k } [k] := by
  obtain ⟨⟨k₀, l₀⟩, hk⟩ : ∃ r, l.findAvailableNode = r := ⟨_, rfl⟩
  obtain ⟨htaken, -, -⟩ := h.findAvailableNode hk
  obtain ⟨rfl, hlinks, hframe⟩ := insertBeforeNode_empty hk hins
  refine htaken.threads ⟨?_, trivial⟩ rfl (List.Perm.refl _) hframe.available_eq hframe.length_eq
  show l₁.links k = _
  rw [hlinks, LinkMap.setLinks, Function.update_self]
  rfl

theorem Threads.insertAtTail (h : l.Threads (pre ++ [i])) (htail : l.tail = i)
    (hins : l.insertAtTail seq len = .ok (k, l')) :
    l'.Threads (pre ++ [i] ++ [k]) ∧ l'.tail = k := by
  obtain ⟨⟨k₀, l₀⟩, hk⟩ : ∃ r, l.findAvailableNode = r := ⟨_, rfl⟩
  obtain ⟨htaken, hhead₀, htail₀⟩ := h.findAvailableNode hk
  obtain ⟨rfl, hlinks, hframe⟩ := insertAtTail_links hk hins
  rw [htail₀, htail] at hlinks
  exact ⟨htaken.push hlinks (hhead₀.trans h.head_eq) hframe, hframe.tail_eq⟩

/-- An insertion leaves the list well-formed exactly when it spares what it finds where its walk
halts. -/
theorem insertSegment_wellFormed {r : Option Int} (hwf : l.WellFormed)
    (h : l.insertSegment fuel seq len = .ok (r, l')) :
    l'.WellFormed ↔ SparesAt seq len (l.ranges.dropWhile fun r => Passed seq len r) := by
  obtain ⟨nodes, hthr, htail⟩ := hwf
  rw [hthr.ranges_eq]
  unfold insertSegment at h
  by_cases hempty : l.head = -1
  · rw [if_pos hempty] at h
    obtain ⟨⟨k, l₁⟩, hins, h⟩ := bind_eq_ok.mp h
    cases h
    obtain rfl := hthr.head_eq_neg_one.mp hempty
    exact iff_of_true ⟨[k], hthr.insertFirst hins, rfl⟩ trivial
  · rw [if_neg hempty] at h
    obtain ⟨⟨idx, l₁⟩, hwalk, hrest⟩ := bind_eq_ok.mp h
    clear h
    dsimp only at hrest
    rcases walk_eq_ok hthr.trail hwalk with
      ⟨hall, rfl, rfl⟩ | ⟨before, pre, i, s, after, post, hhalt, hst⟩
    · rw [if_pos rfl] at hrest
      obtain ⟨⟨k, l₂⟩, hins, hrest⟩ := bind_eq_ok.mp hrest
      cases hrest
      rcases nodes.eq_nil_or_concat' with rfl | ⟨front, t, rfl⟩
      · exact absurd hthr.head_eq hempty
      rw [List.getLast?_concat] at htail
      obtain ⟨hthr', htail'⟩ := hthr.insertAtTail htail hins
      have hnone := List.dropWhile_eq_nil_iff.mpr fun r hr => decide_eq_true (hall r hr)
      rw [hnone]
      refine iff_of_true ⟨_, hthr', ?_⟩ trivial
      rw [htail', List.getLast?_concat]
      rfl
    · have hnodes : nodes = before ++ [i] ++ after := by
        rw [hhalt.nodes_eq, List.append_assoc]
        rfl
      rw [hhalt.dropWhile_eq]
      rw [hnodes] at hthr htail
      rw [if_neg (hthr.stops_ne hst)] at hrest
      obtain ⟨l₂, hm, hrest⟩ := bind_eq_ok.mp hrest
      cases hrest
      rw [hthr.stops htail hhalt.owns.node hst hm,
        ((hthr.trail_behind hhalt.owns.node).unique hhalt.trail).2]

end Insert

/-! ## Consuming and clearing -/

section Consume

variable {fuel : Nat} {l l₁ l' : SegmentList} {i : Int} {s : Segment} {seq consumed : Nat}
  {nodes rest : List Int}

theorem Threads.exists_head (h : l.Threads nodes) (hs : l.get? l.head = some s) :
    ∃ rest, nodes = [] ++ [l.head] ++ rest := by
  cases nodes with
  | nil =>
    have hhead : l.head = -1 := h.head_eq
    rw [hhead, get?_neg_one] at hs
    cases hs
  | cons i rest => exact ⟨rest, congrArg (· :: rest) h.head_eq.symm⟩

/-- Without its head the list is not well-formed: the new head still has a node before it, or
the tail is still there. -/
theorem Threads.removeHead (h : l.Threads nodes) (htail : l.tail = nodes.getLast?.getD (-1))
    (hr : l.removeHead = .ok l') : ¬ l'.WellFormed := by
  unfold SegmentList.removeHead at hr
  obtain ⟨s, hs, hr⟩ := bind_eq_ok.mp hr
  have hs := seg_eq_ok.mp hs
  obtain ⟨l₁, hl₁, rfl⟩ := removeNode_eq_ok.mp hr
  have hlinks : l₁.links = l.links :=
    (links_of_modify_range hl₁ (fun _ => ⟨rfl, rfl⟩)).trans rfl
  have hframe := frame_of_modify hl₁
  obtain ⟨rest, rfl⟩ := h.exists_head hs
  have hhead : l.head ≠ -1 := fun he => h.neg_one_notMem (by simp [← he])
  have hnext : s.next = rest.head?.getD (-1) := (links_iff hs).mp h.linked.1 |>.2
  intro hwf
  obtain ⟨nodes', hthr', htail'⟩ := hwf
  have hhead' : s.next = nodes'.head?.getD (-1) := hframe.head_eq.symm.trans hthr'.head_eq
  have hempty := hthr'.head_eq_neg_one
  cases rest with
  | nil =>
    obtain rfl := hempty.mp (hframe.head_eq.trans hnext)
    exact hhead (htail.symm.trans (hframe.tail_eq.symm.trans htail'))
  | cons j rest =>
    have hj : j ≠ -1 := fun he => h.neg_one_notMem (by simp [← he])
    cases nodes' with
    | nil => exact hj (hnext.symm.trans hhead')
    | cons j' nodes' =>
      obtain rfl : j = j' := hnext.symm.trans hhead'
      have hlinked : l₁.links j = some (-1, nodes'.head?.getD (-1)) := hthr'.linked.1
      rw [hlinks, h.linked.2.1, Option.some.injEq, Prod.mk.injEq] at hlinked
      exact hhead hlinked.1

/-- The ranges of the list when so many numbers from `seq` on are consumed: the first has
another start; or it is longer, and the merge of what is left spares the last. -/
def SparesEnds (seq consumed : Nat) : List (Nat × Nat) → Prop
  | [] => True
  | (a, n) :: rs =>
    a = seq → consumed < n ∧ SparesLast (wrappingAdd 32 a consumed) (n - consumed) rs

/-- Consuming leaves the list well-formed exactly when it spares both ends. -/
theorem consumeHeadData_wellFormed {r : Bool} (hwf : l.WellFormed)
    (h : l.consumeHeadData fuel seq consumed = .ok (r, l')) :
    l'.WellFormed ↔ SparesEnds seq consumed l.ranges := by
  have hold := hwf
  obtain ⟨nodes, hthr, htail⟩ := hwf
  unfold consumeHeadData at h
  obtain ⟨s, hs, h⟩ := bind_eq_ok.mp h
  have hs := seg_eq_ok.mp hs
  obtain ⟨rest, rfl⟩ := hthr.exists_head hs
  rw [hthr.ranges_eq, List.nil_append, List.singleton_append, List.map_cons, range_of_get? hs,
    SparesEnds]
  split at h
  · next hne =>
    cases h
    exact iff_of_true hold fun he => absurd he hne
  · next heq =>
    rw [imp_iff_right (Decidable.not_not.mp heq)]
    obtain ⟨l₁, hl₁, h⟩ := bind_eq_ok.mp h
    obtain ⟨l₂, hl₂, h⟩ := bind_eq_ok.mp h
    cases h
    have hframe := frame_of_modify hl₁
    unfold settleHead at hl₂
    split at hl₂
    · -- nothing is left of the head
      have hthr₁ := hthr.of_frame (links_of_modify_range hl₁ (fun _ => ⟨rfl, rfl⟩)) hframe
      refine iff_of_false (hthr₁.removeHead (hframe.tail_eq.trans htail) hl₂) fun hsp => ?_
      have := hsp.1
      omega
    · have hlt : consumed < s.length := by omega
      rw [hframe.head_eq] at hl₂
      rw [and_iff_right hlt, hthr.mergeAtIdx_range hs htail hl₁ (fun _ => ⟨rfl, rfl⟩) hl₂]
      dsimp only
      rw [Nat.min_eq_left hlt.le]

/-- The loop of `clear` frees the nodes. -/
theorem clearLoop_links : ∀ (fuel : Nat) {l l' : SegmentList} {nodes : List Int} {p : Int},
    Linked l.links p nodes (-1) → clearLoop fuel l (nodes.head?.getD (-1)) = .ok l' →
    l'.available = l.available ++ nodes ∧ l'.storage.length = l.storage.length := by
  intro fuel
  induction fuel with
  | zero =>
    intro l l' nodes p _ h
    cases h
  | succ fuel ih =>
    intro l l' nodes p hlinked h
    cases nodes with
    | nil =>
      cases h
      exact ⟨(List.append_nil _).symm, rfl⟩
    | cons i nodes =>
      rw [List.head?_cons, Option.getD_some, clearLoop] at h
      split at h
      · next hi =>
        have hlinks := hlinked.1
        rw [hi, links, get?_neg_one] at hlinks
        cases hlinks
      · obtain ⟨s, hs, h⟩ := bind_eq_ok.mp h
        obtain ⟨l₁, hl₁, h⟩ := bind_eq_ok.mp h
        obtain ⟨l₂, hl₂, rfl⟩ := removeNode_eq_ok.mp hl₁
        rw [((links_iff (seg_eq_ok.mp hs)).mp hlinked.1).2] at h
        have hlinks : l₂.links = l.links := links_of_modify_range hl₂ (fun _ => ⟨rfl, rfl⟩)
        have hframe := frame_of_modify hl₂
        obtain ⟨havail, hlen⟩ := ih (hlinks ▸ hlinked.2) h
        refine ⟨?_, hlen.trans hframe.length_eq⟩
        rw [havail, hframe.available_eq, List.append_assoc]
        rfl

/-- Clearing leaves the list empty and all nodes free. -/
theorem clear_wellFormed (hwf : l.WellFormed) (h : l.clear fuel = .ok l') : l'.WellFormed := by
  obtain ⟨nodes, hthr, -⟩ := hwf
  unfold clear at h
  obtain ⟨l₁, hl₁, h⟩ := bind_eq_ok.mp h
  cases h
  rw [hthr.head_eq] at hl₁
  obtain ⟨havail, hlen⟩ := clearLoop_links fuel hthr.linked hl₁
  refine ⟨[], ⟨trivial, rfl, ?_⟩, rfl⟩
  show l₁.available.Perm l₁.indices
  rw [havail, indices_congr hlen]
  exact List.perm_append_comm.trans hthr.parted

end Consume

/-! ## Runs -/

theorem new_wellFormed (n : Nat) : (new n).WellFormed := by
  refine ⟨[], ⟨trivial, rfl, ?_⟩, rfl⟩
  rw [indices, new, List.length_map, List.length_range]
  exact List.Perm.refl _

end SegmentList

/-- The calls that change a segment list from outside. -/
inductive SegmentCall where
  | insertSegment (seq : UInt32) (len : UInt16)
  | consumeHeadData (seq : UInt32) (consumed : UInt16)
  | clear
  deriving DecidableEq, Repr

/-- What they return. -/
inductive SegmentReply where
  | inserted (idx : Option Int)
  | consumed (all : Bool)
  | cleared
  deriving DecidableEq, Repr

namespace SegmentList

/-- One call. -/
def call (fuel : Nat) (l : SegmentList) : SegmentCall → Outcome (SegmentReply × SegmentList)
  | .insertSegment seq len => do
    let (idx, l) ← l.insertSegment fuel seq.toNat len.toNat
    .ok (.inserted idx, l)
  | .consumeHeadData seq consumed => do
    let (all, l) ← l.consumeHeadData fuel seq.toNat consumed.toNat
    .ok (.consumed all, l)
  | .clear => do
    let l ← l.clear fuel
    .ok (.cleared, l)

/-- A call that returns does none of the three things that leave the links in disorder, on a
list with these ranges: it does not fill a segment that has another behind it, since
`insert_after_node` does not link that one back; it does not free the last one in a merge, since
`tail` stays on it; and it does not use up the first one, since `remove_head` does not mark the
second as first. -/
def Spares (rs : List (Nat × Nat)) : SegmentCall → Prop
  | .insertSegment seq len =>
    SparesAt seq.toNat len.toNat (rs.dropWhile fun r => Passed seq.toNat len.toNat r)
  | .consumeHeadData seq consumed => SparesEnds seq.toNat consumed.toNat rs
  | .clear => True

/-- One step: a well-formed list stays so exactly when the call spares it. -/
theorem call_wellFormed_iff {fuel : Nat} {l l' : SegmentList} {c : SegmentCall}
    {r : SegmentReply} (hwf : l.WellFormed) (h : l.call fuel c = .ok (r, l')) :
    l'.WellFormed ↔ Spares l.ranges c := by
  cases c with
  | insertSegment seq len =>
    obtain ⟨⟨idx, l₁⟩, hins, h⟩ := bind_eq_ok.mp h
    cases h
    exact insertSegment_wellFormed hwf hins
  | consumeHeadData seq consumed =>
    obtain ⟨⟨all, l₁⟩, hcons, h⟩ := bind_eq_ok.mp h
    cases h
    exact consumeHeadData_wellFormed hwf hcons
  | clear =>
    obtain ⟨l₁, hclear, h⟩ := bind_eq_ok.mp h
    cases h
    exact iff_of_true (clear_wellFormed hwf hclear) trivial

/-- Every list that a run from a new one leaves on its way is well-formed exactly when every call
that returns spares the ranges it finds. -/
theorem segmentList_wellFormed_iff (n fuel : Nat) (calls : List SegmentCall) :
    (∀ pre, pre <+: calls → ∀ rs l, runOps (call fuel) (new n) pre = .ok (rs, l) → l.WellFormed) ↔
      Lib.Meets (call fuel) (fun l c => ∀ r l', l.call fuel c = .ok (r, l') → Spares l.ranges c)
        (new n) calls :=
  invariant_iff_meets (fun _ _ _ _ => call_wellFormed_iff) calls (new_wellFormed n)

/-- Each of the three happens. The head is used up: the list is empty and has a tail. Two
adjacent segments arrive in the wrong order: the merge frees the second, and it stays the tail.
A full segment with another one behind it gets more: the new node is between the two, and the
one behind is not linked back to it. -/
theorem segmentList_links_lost :
    (∃ rs l, runOps (call 3) (new 1) [.insertSegment 5 3, .consumeHeadData 5 3] = .ok (rs, l) ∧
      l = { storage := [⟨-1, 8, 0, -1, 0⟩], available := [0], head := -1, tail := 0 } ∧
      ¬ l.WellFormed) ∧
    (∃ rs l, runOps (call 3) (new 2) [.insertSegment 10 5, .insertSegment 5 5] = .ok (rs, l) ∧
      l = { storage := [⟨-1, 5, 10, -1, 0⟩, ⟨0, 10, 0, -1, 1⟩], available := [1], head := 0,
            tail := 1 } ∧
      ¬ l.WellFormed) ∧
    (∃ rs l, runOps (call 3) (new 3) [.insertSegment 0 65535, .insertSegment 65535 10,
        .insertSegment 65535 5] = .ok (rs, l) ∧
      l = { storage := [⟨2, 65535, 5, 1, 0⟩, ⟨2, 65535, 10, -1, 1⟩, ⟨-1, 0, 65535, 0, 2⟩],
            available := [], head := 2, tail := 1 } ∧
      ¬ l.WellFormed) := by
  refine ⟨⟨_, _, rfl, rfl, ?_⟩, ⟨_, _, rfl, rfl, ?_⟩, ⟨_, _, rfl, rfl, ?_⟩⟩
  · intro hwf
    obtain ⟨nodes, hthr, htail⟩ := hwf
    rw [hthr.head_eq_neg_one.mp rfl] at htail
    cases htail
  · exact fun hwf => hwf.tail_notMem (by decide)
  · intro hwf
    obtain ⟨nodes, hthr, -⟩ := hwf
    have hmem : 0 ∈ nodes := hthr.mem_of_notMem (s := ⟨2, 65535, 5, 1, 0⟩) rfl (by decide)
    obtain ⟨c, hback⟩ := hthr.linked.links_back (a := 2) (b := 1) hmem rfl (by decide)
    cases hback

end SegmentList

end NetBricks.State
