import Mathlib.Data.List.Perm.Basic
import NetBricks.Lib.DoublyLinked
import NetBricks.State.SegmentCover

/-!
# The links of the segment list

Whether `SegmentList` of `src/framework/src/state/reordered_buffer/reordered_buffer.rs` stays
a doubly linked list over a pool of nodes (`WellFormed`): the links ahead lead from `head` to
`tail`, the links back lead the same way back, and every node of the storage is either on the
list or in `available`, once.
-/

namespace NetBricks.State.SegmentList

open Lib
open Lib.Outcome

/-! ## Links and nodes -/

/-- The links of the nodes in the storage. -/
def links (l : SegmentList) : LinkMap Int := fun i => (l.get? i).map fun s => (s.prev, s.next)

/-- The indices of the storage. -/
def indices (l : SegmentList) : List Int :=
  (List.range l.storage.length).map fun i : Nat => (i : Int)

/-- The list has these nodes, linked both ways from `head` on (`linked`, `head_eq`), and every
index of the storage is one of them or free, once (`parted`): no node is lost, and none is free
and in use. -/
structure Threads (l : SegmentList) (nodes : List Int) : Prop where
  linked : Linked l.links (-1) nodes (-1)
  head_eq : l.head = nodes.head?.getD (-1)
  parted : (nodes ++ l.available).Perm l.indices

/-- The list is well-formed: so linked, and it ends at `tail`. An empty list has `-1` at both
ends. -/
def WellFormed (l : SegmentList) : Prop :=
  ∃ nodes, l.Threads nodes ∧ l.tail = nodes.getLast?.getD (-1)

theorem mem_indices {l : SegmentList} {i : Int} : i ∈ l.indices ↔ ∃ s, l.get? i = some s := by
  simp only [indices, List.mem_map, List.mem_range, get?_eq_some]
  constructor
  · intro h
    obtain ⟨n, hn, rfl⟩ := h
    exact ⟨_, Int.natCast_nonneg n, List.getElem?_eq_getElem hn⟩
  · intro h
    obtain ⟨s, h0, hs⟩ := h
    obtain ⟨hlt, -⟩ := List.getElem?_eq_some_iff.mp hs
    exact ⟨i.toNat, hlt, Int.toNat_of_nonneg h0⟩

theorem indices_congr {l l' : SegmentList} (h : l'.storage.length = l.storage.length) :
    l'.indices = l.indices := by
  rw [indices, indices, h]

theorem nodup_indices (l : SegmentList) : l.indices.Nodup :=
  List.Pairwise.map _ (fun _ _ hne heq => hne (Int.ofNat.inj heq)) List.nodup_range

section Threads

variable {l l' : SegmentList} {nodes : List Int} {i : Int}

theorem Threads.nodup_append (h : l.Threads nodes) : (nodes ++ l.available).Nodup :=
  h.parted.nodup_iff.mpr l.nodup_indices

theorem Threads.nodup (h : l.Threads nodes) : nodes.Nodup := (List.nodup_append.mp h.nodup_append).1

theorem Threads.notMem_available (h : l.Threads nodes) (hi : i ∈ nodes) : i ∉ l.available :=
  fun hfree => (List.nodup_append.mp h.nodup_append).2.2 i hi i hfree rfl

theorem Threads.exists_node (h : l.Threads nodes) (hi : i ∈ nodes) : ∃ s, l.get? i = some s :=
  mem_indices.mp (h.parted.mem_iff.mp (List.mem_append_left _ hi))

/-- The end of the list is not a node. -/
theorem Threads.neg_one_notMem (h : l.Threads nodes) : -1 ∉ nodes := by
  intro hmem
  obtain ⟨s, hs⟩ := h.exists_node hmem
  rw [get?_neg_one] at hs
  cases hs

theorem Threads.neg_one_notMem_available (h : l.Threads nodes) : -1 ∉ l.available := by
  intro hmem
  obtain ⟨s, hs⟩ := mem_indices.mp (h.parted.mem_iff.mp (List.mem_append_right _ hmem))
  rw [get?_neg_one] at hs
  cases hs

/-- A node that is not free is on the list. -/
theorem Threads.mem_of_notMem (h : l.Threads nodes) {s : Segment} (hs : l.get? i = some s)
    (hi : i ∉ l.available) : i ∈ nodes :=
  (List.mem_append.mp (h.parted.mem_iff.mpr (mem_indices.mpr ⟨s, hs⟩))).resolve_right hi

/-- The tail of a well-formed list is not free. -/
theorem WellFormed.tail_notMem (h : l.WellFormed) : l.tail ∉ l.available := by
  obtain ⟨nodes, hnodes, htail⟩ := h
  rw [htail]
  cases hlast : nodes.getLast? with
  | none => exact hnodes.neg_one_notMem_available
  | some t => exact hnodes.notMem_available (List.mem_of_getLast? hlast)

end Threads

/-! ## Updates -/

/-- The two lists have the same free nodes, storage size and ends. -/
structure Frame (l l' : SegmentList) : Prop where
  available_eq : l'.available = l.available
  length_eq : l'.storage.length = l.storage.length
  head_eq : l'.head = l.head
  tail_eq : l'.tail = l.tail

theorem Frame.trans {l₁ l₂ l₃ : SegmentList} (h : Frame l₁ l₂) (h' : Frame l₂ l₃) : Frame l₁ l₃ :=
  ⟨h'.1.trans h.1, h'.2.trans h.2, h'.3.trans h.3, h'.4.trans h.4⟩

theorem Frame.indices_eq {l l' : SegmentList} (h : Frame l l') : l'.indices = l.indices :=
  indices_congr h.length_eq

theorem Threads.of_frame {l l' : SegmentList} {nodes : List Int} (h : l.Threads nodes)
    (hlinks : l'.links = l.links) (hframe : Frame l l') : l'.Threads nodes := by
  refine ⟨hlinks ▸ h.linked, hframe.head_eq.trans h.head_eq, ?_⟩
  rw [hframe.available_eq, hframe.indices_eq]
  exact h.parted

section Modify

variable {l l' : SegmentList} {i : Int} {f : Segment → Segment}

theorem frame_of_modify (hm : l.modify i f = .ok l') : Frame l l' := by
  obtain ⟨s, -, rfl⟩ := modify_eq_ok.mp hm
  exact ⟨rfl, List.length_set, rfl, rfl⟩

theorem links_of_modify (hm : l.modify i f = .ok l') :
    ∃ s, l.get? i = some s ∧ l'.links = l.links.setLinks i ((f s).prev, (f s).next) := by
  obtain ⟨s, hs, rfl⟩ := modify_eq_ok.mp hm
  refine ⟨s, hs, ?_⟩
  funext j
  by_cases hj : i = j
  · subst hj
    rw [links, get?_update_self hs, LinkMap.setLinks, Function.update_self]
    rfl
  · rw [links, get?_update_ne hj (get?_eq_some.mp hs).1, LinkMap.setLinks,
      Function.update_of_ne (Ne.symm hj)]
    rfl

theorem links_of_get? {s : Segment} (hs : l.get? i = some s) :
    l.links i = some (s.prev, s.next) := by
  rw [links, hs]
  rfl

theorem links_iff {s : Segment} (hs : l.get? i = some s) {p q : Int} :
    l.links i = some (p, q) ↔ s.prev = p ∧ s.next = q := by
  rw [links_of_get? hs, Option.some.injEq, Prod.mk.injEq]

theorem links_of_modify_range (hm : l.modify i f = .ok l')
    (hf : ∀ s, (f s).prev = s.prev ∧ (f s).next = s.next) : l'.links = l.links := by
  obtain ⟨s, hs, hlinks⟩ := links_of_modify hm
  rw [hlinks, (hf s).1, (hf s).2, LinkMap.setLinks, ← links_of_get? hs, Function.update_eq_self]

theorem links_of_modify_prev {p : Int} (hm : l.modify i (fun s => { s with prev := p }) = .ok l') :
    l'.links = l.links.setPrev i p := by
  obtain ⟨s, hs, hlinks⟩ := links_of_modify hm
  rw [hlinks, LinkMap.setPrev, links_of_get? hs]
  rfl

theorem links_of_modify_next {q : Int} (hm : l.modify i (fun s => { s with next := q }) = .ok l') :
    l'.links = l.links.setNext i q := by
  obtain ⟨s, hs, hlinks⟩ := links_of_modify hm
  rw [hlinks, LinkMap.setNext, links_of_get? hs]
  rfl

end Modify

theorem Threads.node {l : SegmentList} {pre rest : List Int} {i : Int} {s : Segment}
    (h : l.Threads (pre ++ [i] ++ rest)) (hs : l.get? i = some s) :
    s.prev = pre.getLast?.getD (-1) ∧ s.next = rest.head?.getD (-1) :=
  (links_iff hs).mp h.linked.links_eq

/-! ## Merging -/

section Merge

variable {l l' : SegmentList} {i j : Int} {pre rest : List Int}

/-- The writes of the first branch of `merge_at_idx`. -/
theorem mergeNext_links {next : Int} {newLen : Nat}
    (h : l.mergeNext i j newLen = .ok (next, l')) :
    (∃ p, l.links j = some (p, next)) ∧
      l'.links = (if next = -1 then l.links.setNext i next
        else (l.links.setNext i next).setPrev next i) ∧
      l'.available = l.available ++ [j] ∧ l'.storage.length = l.storage.length ∧
      l'.head = l.head ∧ l'.tail = l.tail := by
  unfold mergeNext at h
  obtain ⟨l₁, hl₁, h⟩ := bind_eq_ok.mp h
  obtain ⟨freed, hfreed, h⟩ := bind_eq_ok.mp h
  obtain ⟨l₂, hl₂, h⟩ := bind_eq_ok.mp h
  obtain ⟨l₃, hl₃, h⟩ := bind_eq_ok.mp h
  obtain ⟨l₄, hl₄, h⟩ := bind_eq_ok.mp h
  cases h
  obtain ⟨l₅, hl₅, rfl⟩ := removeNode_eq_ok.mp hl₄
  have hlinks₁ : l₁.links = l.links := links_of_modify_range hl₁ (fun _ => ⟨rfl, rfl⟩)
  have hlinks₂ := links_of_modify_next hl₂
  rw [hlinks₁] at hlinks₂
  have hlinks₅ : l₅.links = l₃.links := links_of_modify_range hl₅ (fun _ => ⟨rfl, rfl⟩)
  obtain ⟨hlinks₃, hframe₃⟩ : l₃.links = (if freed.next = -1 then l₂.links
      else l₂.links.setPrev freed.next i) ∧ Frame l₂ l₃ := by
    unfold linkBack at hl₃
    split at hl₃
    · next hne =>
      rw [if_neg hne]
      exact ⟨links_of_modify_prev hl₃, frame_of_modify hl₃⟩
    · next heq =>
      cases hl₃
      rw [if_pos (Decidable.not_not.mp heq)]
      exact ⟨rfl, rfl, rfl, rfl, rfl⟩
  have hframe := (((frame_of_modify hl₁).trans (frame_of_modify hl₂)).trans hframe₃).trans
    (frame_of_modify hl₅)
  refine ⟨⟨freed.prev, ?_⟩, ?_, ?_, hframe.length_eq, hframe.head_eq, hframe.tail_eq⟩
  · rw [← hlinks₁]
    exact links_of_get? (seg_eq_ok.mp hfreed)
  · show l₅.links = _
    rw [hlinks₅, hlinks₃, hlinks₂]
  · show l₅.available ++ [j] = l.available ++ [j]
    rw [hframe.available_eq]

/-- The node behind `i` is taken off the list. -/
theorem Threads.mergeNext {next : Int} {newLen : Nat} (h : l.Threads (pre ++ [i] ++ j :: rest))
    (hm : l.mergeNext i j newLen = .ok (next, l')) :
    next = rest.head?.getD (-1) ∧ l'.Threads (pre ++ [i] ++ rest) ∧
      l'.available = l.available ++ [j] ∧ l'.tail = l.tail := by
  have hnfront := (List.nodup_append.mp h.nodup).1
  have hi : i ∉ pre := fun hmem => (List.nodup_append.mp hnfront).2.2 i hmem i (by simp) rfl
  obtain ⟨⟨p, hj⟩, hlinks, havail, hlen, hhead, htail⟩ := mergeNext_links hm
  have hnext : next = rest.head?.getD (-1) := by
    have hlinked := (linked_append.mp h.linked).2.1
    cases hj.symm.trans hlinked
    rfl
  refine ⟨hnext, ⟨?_, ?_, ?_⟩, havail, htail⟩
  · rw [hlinks, hnext]
    cases rest with
    | nil =>
      rw [List.append_nil]
      exact h.linked.unlinkLast hi
    | cons k rest =>
      have hk : k ≠ -1 := fun he => h.neg_one_notMem (by simp [← he])
      rw [List.head?_cons, Option.getD_some, if_neg hk]
      exact h.linked.unlink h.nodup
  · rw [hhead, h.head_eq]
    cases pre <;> rfl
  · rw [indices_congr hlen, havail]
    refine List.Perm.trans ?_ h.parted
    rw [List.perm_iff_count]
    intro a
    simp only [List.count_append, List.count_cons, List.count_nil]
    omega

/-- The second branch writes no link. -/
theorem mergePart_links {length : Nat} (h : l.mergePart i j length = .ok l') :
    l'.links = l.links ∧ Frame l l' := by
  unfold mergePart at h
  obtain ⟨maxLen, -, h⟩ := bind_eq_ok.mp h
  obtain ⟨l₁, hl₁, h⟩ := bind_eq_ok.mp h
  obtain ⟨n, -, h⟩ := bind_eq_ok.mp h
  obtain ⟨left, -, h⟩ := bind_eq_ok.mp h
  have hlinks₁ : l₁.links = l.links := links_of_modify_range hl₁ (fun _ => ⟨rfl, rfl⟩)
  have hlinks₂ : l'.links = l₁.links := links_of_modify_range h (fun _ => ⟨rfl, rfl⟩)
  exact ⟨hlinks₂.trans hlinks₁, (frame_of_modify hl₁).trans (frame_of_modify h)⟩

end Merge

/-- The loop of `merge_at_idx` takes some nodes behind `i` off the list. -/
theorem Threads.mergeLoop : ∀ (fuel : Nat) {l l' : SegmentList} {i : Int} {pre rest : List Int},
    l.Threads (pre ++ [i] ++ rest) → mergeLoop fuel l i (rest.head?.getD (-1)) = .ok l' →
    ∃ freed left, rest = freed ++ left ∧ l'.Threads (pre ++ [i] ++ left) ∧
      l'.available = l.available ++ freed ∧ l'.tail = l.tail := by
  intro fuel
  induction fuel with
  | zero =>
    intro l l' i pre rest _ h
    cases h
  | succ fuel ih =>
    intro l l' i pre rest hthr h
    cases rest with
    | nil =>
      cases h
      exact ⟨[], [], rfl, hthr, (List.append_nil _).symm, rfl⟩
    | cons j rest =>
      obtain ⟨s, hs⟩ := hthr.exists_node (i := i) (by simp)
      obtain ⟨t, ht⟩ := hthr.exists_node (i := j) (by simp)
      cases mergeLoop_turn hs ht h with
      | all _ _ _ h =>
        obtain ⟨⟨next, l₁⟩, hl₁, h⟩ := bind_eq_ok.mp h
        obtain ⟨rfl, hthr₁, havail₁, htail₁⟩ := hthr.mergeNext hl₁
        obtain ⟨freed, left, rfl, hthr', havail, htail⟩ := ih hthr₁ h
        refine ⟨j :: freed, left, rfl, hthr', ?_, htail.trans htail₁⟩
        rw [havail, havail₁, List.append_assoc]
        rfl
      | part _ _ _ h =>
        obtain ⟨hlinks, hframe⟩ := mergePart_links h
        refine ⟨[], j :: rest, rfl, ?_, ?_, hframe.tail_eq⟩
        · exact hthr.of_frame hlinks hframe
        · rw [hframe.available_eq, List.append_nil]
      | again h => exact ih hthr h

/-- Merging keeps the list well-formed unless it frees the tail. The node it merges at stays. -/
theorem Threads.mergeAtIdx {fuel : Nat} {l l' : SegmentList} {i : Int} {pre rest : List Int}
    (h : l.Threads (pre ++ [i] ++ rest))
    (htail : l.tail = (pre ++ [i] ++ rest).getLast?.getD (-1))
    (hm : mergeAtIdx fuel l i = .ok l') :
    (l'.WellFormed ↔ l.tail ∉ l'.available) ∧ i ∉ l'.available := by
  obtain ⟨s, hs, hm⟩ := bind_eq_ok.mp hm
  rw [(h.node (seg_eq_ok.mp hs)).2] at hm
  obtain ⟨freed, left, rfl, hthr, havail, htail'⟩ := h.mergeLoop fuel hm
  refine ⟨⟨fun hwf => htail' ▸ hwf.tail_notMem, fun hkept => ⟨_, hthr, htail'.trans ?_⟩⟩,
    hthr.notMem_available (by simp)⟩
  rw [htail]
  cases left with
  | cons j left => simp only [List.getLast?_append, List.getLast?_cons, Option.some_or]
  | nil =>
    rw [List.append_nil] at htail ⊢
    cases hlast : freed.getLast? with
    | none => rw [List.getLast?_eq_none_iff.mp hlast, List.append_nil]
    | some t =>
      -- the last node was freed, and it is the tail
      rw [List.getLast?_append, hlast] at htail
      refine absurd ?_ hkept
      rw [htail, havail]
      exact List.mem_append_right _ (List.mem_of_getLast? hlast)

/-! ## Taking a node from the pool -/

section Take

variable {l l₀ l' : SegmentList} {k : Int} {nodes : List Int}

/-- Node `k` was taken off the stack for a list with these nodes, and is not linked yet: for the
time being it is in neither, and `parted` counts it apart. -/
structure Taken (l : SegmentList) (nodes : List Int) (k : Int) : Prop where
  linked : Linked l.links (-1) nodes (-1)
  parted : (k :: nodes ++ l.available).Perm l.indices

theorem Taken.nodup (h : l.Taken nodes k) : (k :: nodes ++ l.available).Nodup :=
  h.parted.nodup_iff.mpr l.nodup_indices

theorem Taken.notMem (h : l.Taken nodes k) : k ∉ nodes :=
  fun hmem => (List.nodup_cons.mp h.nodup).1 (List.mem_append_left _ hmem)

theorem Taken.notMem_available (h : l.Taken nodes k) : k ∉ l.available :=
  fun hmem => (List.nodup_cons.mp h.nodup).1 (List.mem_append_right _ hmem)

theorem Taken.ne_of_mem (h : l.Taken nodes k) {i : Int} (hi : i ∈ nodes) : k ≠ i :=
  fun he => h.notMem (he ▸ hi)

theorem Taken.exists_node (h : l.Taken nodes k) {i : Int} (hi : i ∈ k :: nodes) :
    ∃ s, l.get? i = some s :=
  mem_indices.mp (h.parted.mem_iff.mp (List.mem_append_left _ hi))

theorem Taken.ne_neg_one (h : l.Taken nodes k) : k ≠ -1 := by
  obtain ⟨s, hs⟩ := h.exists_node List.mem_cons_self
  intro he
  rw [he, get?_neg_one] at hs
  cases hs

theorem Taken.threads {nodes' : List Int} (h : l₀.Taken nodes k)
    (hlinked : Linked l'.links (-1) nodes' (-1)) (hhead : l'.head = nodes'.head?.getD (-1))
    (hperm : nodes'.Perm (k :: nodes)) (havail : l'.available = l₀.available)
    (hlen : l'.storage.length = l₀.storage.length) : l'.Threads nodes' := by
  refine ⟨hlinked, hhead, ?_⟩
  rw [havail, indices_congr hlen]
  exact (hperm.append_right _).trans h.parted

theorem get?_findAvailableNode {i : Int} {s : Segment} (hk : l.findAvailableNode = (k, l₀))
    (hs : l.get? i = some s) : l₀.get? i = some s := by
  unfold SegmentList.findAvailableNode at hk
  split at hk
  · cases hk
    exact hs
  · cases hk
    obtain ⟨hi, hs⟩ := get?_eq_some.mp hs
    obtain ⟨hlt, -⟩ := List.getElem?_eq_some_iff.mp hs
    exact get?_eq_some.mpr ⟨hi, (List.getElem?_append_left hlt).trans hs⟩

theorem Threads.findAvailableNode (h : l.Threads nodes) (hk : l.findAvailableNode = (k, l₀)) :
    l₀.Taken nodes k ∧ l₀.head = l.head ∧ l₀.tail = l.tail := by
  have hlinked : Linked l₀.links (-1) nodes (-1) := by
    refine h.linked.congr (fun i hi => ?_)
    obtain ⟨s, hs⟩ := h.exists_node hi
    rw [links_of_get? hs, links_of_get? (get?_findAvailableNode hk hs)]
  unfold SegmentList.findAvailableNode at hk
  split at hk
  · next nidx hlast =>
    cases hk
    obtain ⟨front, hfront⟩ := List.getLast?_eq_some_iff.mp hlast
    refine ⟨⟨hlinked, List.Perm.trans ?_ h.parted⟩, rfl, rfl⟩
    show (k :: nodes ++ l.available.dropLast).Perm _
    rw [hfront, List.dropLast_concat, ← List.append_assoc]
    exact (List.perm_append_singleton k _).symm
  · next hnone =>
    cases hk
    have hfree : l.available = [] := List.getLast?_eq_none_iff.mp hnone
    have hparted := h.parted
    rw [hfree, List.append_nil] at hparted
    refine ⟨⟨hlinked, ?_⟩, rfl, rfl⟩
    show ((l.storage.length : Int) :: nodes ++ l.available).Perm _
    rw [hfree, List.append_nil, indices, List.length_append, List.length_singleton,
      List.range_succ, List.map_append]
    exact (hparted.cons _).trans (List.perm_append_singleton _ _).symm

end Take

/-! ## Insertion -/

section Insert

variable {l l₀ l' : SegmentList} {i k idx : Int} {s : Segment} {seq len : Nat}
  {pre rest : List Int}

/-- The writes of `insert_before_node` for the first node. -/
theorem insertBeforeNode_empty (hk : l.findAvailableNode = (k, l₀))
    (h : l.insertBeforeNode (-1) seq len = .ok (idx, l')) :
    idx = k ∧ l'.links = l₀.links.setLinks k (-1, -1) ∧ Frame l₀ l' := by
  unfold insertBeforeNode at h
  rw [hk] at h
  dsimp only at h
  obtain ⟨l₁, hl₁, h⟩ := bind_eq_ok.mp h
  rw [if_neg (fun hne => hne rfl)] at h
  obtain ⟨l₂, hl₂, h⟩ := bind_eq_ok.mp h
  cases h
  obtain ⟨t, -, hlinks₁⟩ := links_of_modify hl₁
  refine ⟨rfl, ?_, (frame_of_modify hl₁).trans (frame_of_modify hl₂)⟩
  rw [links_of_modify_prev hl₂, hlinks₁, LinkMap.setPrev_setLinks]

/-- The writes of `insert_before_node` before node `i`. -/
theorem insertBeforeNode_links (hk : l.findAvailableNode = (k, l₀)) (hi : i ≠ -1) (hki : k ≠ i)
    (hs : l₀.get? i = some s) (h : l.insertBeforeNode i seq len = .ok (idx, l')) :
    idx = k ∧
      l'.links = (if s.prev = -1 then (l₀.links.setLinks k (s.prev, i)).setPrev i k
        else ((l₀.links.setLinks k (s.prev, i)).setPrev i k).setNext s.prev k) ∧
      l'.head = (if s.prev = -1 then k else l₀.head) ∧ Frame { l₀ with head := l'.head } l' := by
  unfold insertBeforeNode at h
  rw [hk] at h
  dsimp only at h
  obtain ⟨l₁, hl₁, h⟩ := bind_eq_ok.mp h
  have hs₁ := get?_of_modify hl₁ hs
  rw [if_neg hki] at hs₁
  rw [if_pos hi, seg_of_get? hs₁, bind_ok] at h
  obtain ⟨l₂, hl₂, h⟩ := bind_eq_ok.mp h
  obtain ⟨l₃, hl₃, h⟩ := bind_eq_ok.mp h
  have hlinks₃ : l₃.links = (l₀.links.setLinks k (s.prev, i)).setPrev i k := by
    obtain ⟨t, -, hlinks₁⟩ := links_of_modify hl₁
    rw [links_of_modify_prev hl₃, links_of_modify_prev hl₂, hlinks₁, LinkMap.setPrev_setLinks]
  have hframe := ((frame_of_modify hl₁).trans (frame_of_modify hl₂)).trans (frame_of_modify hl₃)
  by_cases hprev : s.prev = -1
  · rw [if_neg (not_not_intro hprev)] at h
    cases h
    rw [if_pos hprev, if_pos hprev]
    exact ⟨rfl, hlinks₃, rfl, hframe.available_eq, hframe.length_eq, rfl, hframe.tail_eq⟩
  · rw [if_pos hprev] at h
    obtain ⟨l₄, hl₄, h⟩ := bind_eq_ok.mp h
    cases h
    rw [if_neg hprev, if_neg hprev, ← hlinks₃]
    have hframe := hframe.trans (frame_of_modify hl₄)
    exact ⟨rfl, links_of_modify_next hl₄, hframe.head_eq, hframe.available_eq,
      hframe.length_eq, rfl, hframe.tail_eq⟩

theorem Threads.insertBeforeNode (h : l.Threads (pre ++ [i] ++ rest))
    (hins : l.insertBeforeNode i seq len = .ok (k, l')) :
    l'.Threads (pre ++ [k] ++ i :: rest) ∧ l'.tail = l.tail := by
  obtain ⟨⟨k₀, l₀⟩, hk⟩ : ∃ r, l.findAvailableNode = r := ⟨_, rfl⟩
  obtain ⟨htaken, hhead₀, htail₀⟩ := h.findAvailableNode hk
  have himem : i ∈ pre ++ [i] ++ rest := by simp
  have hi : i ≠ -1 := fun he => h.neg_one_notMem (he ▸ himem)
  obtain ⟨s, hs⟩ := htaken.exists_node (List.mem_cons_of_mem _ himem)
  obtain ⟨rfl, hlinks, hhead, hframe⟩ :=
    insertBeforeNode_links hk hi (htaken.ne_of_mem himem) hs hins
  have hperm : (pre ++ [k] ++ i :: rest).Perm (k :: (pre ++ [i] ++ rest)) := by
    simp [List.perm_middle]
  have hprev := ((links_iff hs).mp htaken.linked.links_eq).1
  refine ⟨?_, hframe.tail_eq.trans htail₀⟩
  rcases pre.eq_nil_or_concat' with rfl | ⟨front, p, rfl⟩
  · -- the new node is the head
    have hprev : s.prev = -1 := hprev
    rw [if_pos hprev, hprev] at hlinks
    rw [if_pos hprev] at hhead
    refine htaken.threads ?_ hhead hperm hframe.available_eq hframe.length_eq
    rw [hlinks]
    exact htaken.linked.pushFront (List.nodup_cons.mp h.nodup).1 htaken.notMem
  · rw [List.getLast?_concat, Option.getD_some] at hprev
    have hp : p ≠ -1 := fun he => h.neg_one_notMem (by simp [← he])
    rw [hprev, if_neg hp] at hlinks
    rw [hprev, if_neg hp, hhead₀, h.head_eq] at hhead
    refine htaken.threads ?_ ?_ hperm hframe.available_eq hframe.length_eq
    · rw [hlinks, List.append_assoc]
      have hnodes : front ++ [p] ++ [i] ++ rest = front ++ [p] ++ i :: rest := List.append_assoc ..
      rw [hnodes] at htaken h
      exact htaken.linked.insert h.nodup htaken.notMem
    · rw [hhead]
      cases front <;> rfl

/-- The writes of `insert_after_node`. The node after `i` is not linked back. -/
theorem insertAfterNode_links (hk : l.findAvailableNode = (k, l₀)) (hki : k ≠ i)
    (hs : l₀.get? i = some s) (h : l.insertAfterNode i seq len = .ok (idx, l')) :
    l'.links = (l₀.links.setLinks k (i, s.next)).setNext i k ∧
      Frame { l₀ with tail := if s.next = -1 then k else l₀.tail } l' ∧
      l'.get? i = some { s with next := k } ∧
      ∃ t, l'.get? k = some t ∧ t.seq = seq ∧ t.length = len := by
  unfold insertAfterNode at h
  rw [hk] at h
  dsimp only at h
  obtain ⟨l₁, hl₁, h⟩ := bind_eq_ok.mp h
  obtain ⟨t, ht, hlinks₁⟩ := links_of_modify hl₁
  have hs₁ := get?_of_modify hl₁ hs
  rw [if_neg hki] at hs₁
  have ht₁ := get?_of_modify hl₁ ht
  rw [if_pos rfl] at ht₁
  rw [seg_of_get? hs₁, bind_ok] at h
  obtain ⟨l₂, hl₂, h⟩ := bind_eq_ok.mp h
  have hs₂ := get?_of_modify hl₂ hs₁
  rw [if_neg hki] at hs₂
  have ht₂ := get?_of_modify hl₂ ht₁
  rw [if_pos rfl] at ht₂
  obtain ⟨l₃, hl₃, h⟩ := bind_eq_ok.mp h
  have hs₃ := get?_of_modify hl₃ hs₂
  rw [if_pos rfl] at hs₃
  have ht₃ := get?_of_modify hl₃ ht₂
  rw [if_neg (Ne.symm hki)] at ht₃
  rw [seg_of_get? ht₃, bind_ok] at h
  have hlinks₃ : l₃.links = (l₀.links.setLinks k (i, s.next)).setNext i k := by
    rw [links_of_modify_next hl₃, links_of_modify_next hl₂, hlinks₁, LinkMap.setNext_setLinks]
  have hframe := ((frame_of_modify hl₁).trans (frame_of_modify hl₂)).trans (frame_of_modify hl₃)
  by_cases hnext : s.next = -1
  · rw [if_pos hnext] at h ⊢
    cases h
    exact ⟨hlinks₃, ⟨hframe.available_eq, hframe.length_eq, hframe.head_eq, rfl⟩, hs₃, _, ht₃,
      rfl, rfl⟩
  · rw [if_neg hnext] at h ⊢
    cases h
    exact ⟨hlinks₃, hframe, hs₃, _, ht₃, rfl, rfl⟩

theorem insertAtTail_links (hk : l.findAvailableNode = (k, l₀))
    (h : l.insertAtTail seq len = .ok (idx, l')) :
    idx = k ∧ l'.links = (l₀.links.setLinks k (l₀.tail, -1)).setNext l₀.tail k ∧
      Frame { l₀ with tail := k } l' := by
  unfold insertAtTail at h
  rw [hk] at h
  dsimp only at h
  obtain ⟨l₁, hl₁, h⟩ := bind_eq_ok.mp h
  obtain ⟨l₂, hl₂, h⟩ := bind_eq_ok.mp h
  cases h
  obtain ⟨t, -, hlinks₁⟩ := links_of_modify hl₁
  have hframe := (frame_of_modify hl₁).trans (frame_of_modify hl₂)
  refine ⟨rfl, ?_, hframe.available_eq, hframe.length_eq, hframe.head_eq, rfl⟩
  show l₂.links = _
  rw [links_of_modify_next hl₂, (frame_of_modify hl₁).tail_eq, hlinks₁]

/-- A node linked in behind the last one. -/
theorem Taken.push (htaken : l₀.Taken (pre ++ [i]) k)
    (hlinks : l'.links = (l₀.links.setLinks k (i, -1)).setNext i k)
    (hhead : l₀.head = (pre ++ [i]).head?.getD (-1)) (hframe : Frame { l₀ with tail := k } l') :
    l'.Threads (pre ++ [i] ++ [k]) := by
  refine htaken.threads ?_ ?_ (List.perm_append_singleton k _) hframe.available_eq
    hframe.length_eq
  · rw [hlinks]
    exact htaken.linked.push (List.nodup_append.mp htaken.nodup.of_cons).1 htaken.notMem
  · rw [hframe.head_eq, hhead]
    cases pre <;> rfl

end Insert

end NetBricks.State.SegmentList
