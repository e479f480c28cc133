import NetBricks.State.SegmentRanges

/-!
# Insertions that miss the list

`insert_before_node` and `insert_at_tail` of
`src/framework/src/state/reordered_buffer/reordered_buffer.rs` rely on links that the other
operations do not always keep: the link back of the node that the new one is put before, and
`tail`. Where such a link leads elsewhere, the list from `head` on does not get the new node
at its place: it may not get it at all, may lose nodes, or may run in a circle.

Whatever the links are, following those forward from a node of the list leads to nodes of
the list and to the new one (`Closed`). That is enough to see that the list does not
cover the start of a new segment that is smaller than all others (`Closed.misses`), without
knowing which of its nodes are left.
-/

namespace NetBricks.State.SegmentList

open Lib
open Lib.Outcome

/-! ## Nodes that only lead to each other -/

/-- The links forward of the nodes `S` lead to such nodes or to none, and the range of each is
`good`. -/
def Closed (S : List Int) (good : Int → Nat × Nat → Prop) (l : SegmentList) : Prop :=
  ∀ k ∈ S, ∃ s, l.get? k = some s ∧ s.next ∈ -1 :: S ∧ good k (s.seq, s.length)

section Closed

variable {S : List Int} {good good' : Int → Nat × Nat → Prop} {l l' : SegmentList}

theorem Closed.modify {i : Int} {f : Segment → Segment} (h : Closed S good l)
    (hm : l.modify i f = .ok l') (hother : ∀ k r, k ≠ i → good k r → good' k r)
    (hf : ∀ s, l.get? i = some s → s.next ∈ -1 :: S → good i (s.seq, s.length) →
      (f s).next ∈ -1 :: S ∧ good' i ((f s).seq, (f s).length)) : Closed S good' l' := by
  intro k hk
  obtain ⟨s, hs, hnext, hgood⟩ := h k hk
  refine ⟨_, get?_of_modify hm hs, ?_⟩
  by_cases hik : i = k
  · subst hik
    rw [if_pos rfl]
    exact hf s hs hnext hgood
  · rw [if_neg hik]
    exact ⟨hnext, hother k _ (Ne.symm hik) hgood⟩

/-- A list that starts at such a node has only such nodes. -/
theorem Closed.trail (h : Closed S good l) {i : Int} {nodes : List Int} {rs : List (Nat × Nat)}
    (ht : l.Trail i nodes rs) (hi : i ∈ -1 :: S) :
    nodes ⊆ S ∧ ∀ r ∈ rs, ∃ k ∈ nodes, good k r := by
  induction ht with
  | nil => exact ⟨List.nil_subset _, nofun⟩
  | @cons i s nodes rs hs _ _ ih =>
    have hi : i ∈ S := (List.mem_cons.mp hi).resolve_left hs.ne_neg_one
    obtain ⟨s', hs', hnext, hgood⟩ := h i hi
    cases Option.some.inj (hs.node.symm.trans hs')
    obtain ⟨hsub, hrest⟩ := ih hnext
    refine ⟨List.cons_subset.mpr ⟨hi, hsub⟩, List.forall_mem_cons.mpr ⟨⟨i, ?_, hgood⟩, ?_⟩⟩
    · exact List.mem_cons_self
    · intro r hr
      obtain ⟨k, hk, hgood⟩ := hrest r hr
      exact ⟨k, List.mem_cons_of_mem _ hk, hgood⟩

end Closed

/-- The nodes of a list lead to such nodes. -/
theorem Trail.closed {l : SegmentList} {i : Int} {nodes : List Int} {rs : List (Nat × Nat)}
    (h : l.Trail i nodes rs) : ∀ k ∈ nodes, ∃ s, l.Owns k s ∧ s.next ∈ -1 :: nodes ∧
      (s.seq, s.length) ∈ rs := by
  induction h with
  | nil => exact nofun
  | @cons i s nodes rs hs _ hrest ih =>
    refine List.forall_mem_cons.mpr ⟨⟨s, hs, ?_, List.mem_cons_self⟩, fun k hk => ?_⟩
    · generalize s.next = k at hrest
      cases hrest with
      | nil => exact List.mem_cons_self
      | cons _ _ _ => exact List.mem_cons_of_mem _ (List.mem_cons_of_mem _ List.mem_cons_self)
    · obtain ⟨t, ht, hnext, hr⟩ := ih k hk
      refine ⟨t, ht, ?_, List.mem_cons_of_mem _ hr⟩
      rcases List.mem_cons.mp hnext with he | hm
      · exact he ▸ List.mem_cons_self
      · exact List.mem_cons_of_mem _ (List.mem_cons_of_mem _ hm)

/-! ## The links after an insertion -/

/-- An update of any node, in use or not. -/
theorem modify_pool {l l' : SegmentList} {i : Int} {f : Segment → Segment} (hp : l.Pool)
    (hm : l.modify i f = .ok l') : l'.Pool ∧ l'.head = l.head ∧ l'.available = l.available := by
  obtain ⟨s, -, rfl⟩ := modify_eq_ok.mp hm
  refine ⟨⟨fun k hk => ?_, hp.nodup⟩, rfl, rfl⟩
  obtain ⟨t, ht⟩ := hp.node k hk
  exact ⟨_, get?_of_modify hm ht⟩

/-- The list with the new node `i`, which has the range and the link `next`. The other nodes
keep their ranges and their links forward, but for `k`, which leads to the new node. -/
structure Patched (l : SegmentList) (i next k : Int) (seq len : Nat) (l' : SegmentList) : Prop where
  pool : l'.Pool
  head_eq : l'.head = l.head
  new : ∃ s, l'.Owns i s ∧ s.seq = seq ∧ s.length = len ∧ s.next = if k = i then i else next
  old : ∀ j s, l.Owns j s → j ≠ i ∧ ∃ s', l'.Owns j s' ∧ s'.seq = s.seq ∧
    s'.length = s.length ∧ s'.next = if k = j then i else s.next

section Insert

variable {l l' : SegmentList} {i j : Int} {t : Segment} {seq len : Nat}

/-- A node is put before one with a link back: what that leads to leads to the new node. -/
theorem insertBeforeNode_linked (hp : l.Pool) (ht : l.Owns j t) (hprev : t.prev ≠ -1)
    (h : l.insertBeforeNode j seq len = .ok (i, l')) : l.Patched i j t.prev seq len l' := by
  obtain ⟨hp₀, hh₀, ⟨s₀, hs₀⟩, hold⟩ := findAvailableNode_owns hp
  unfold insertBeforeNode at h
  generalize l.findAvailableNode = r at *
  obtain ⟨k, l₀⟩ := r
  dsimp only at *
  obtain ⟨hne, ht₀⟩ := hold j t ht
  rw [bind_eq_ok] at h
  obtain ⟨l₁, hl₁, h⟩ := h
  rw [if_pos ht.ne_neg_one] at h
  have ht₁ := get?_of_modify hl₁ ht₀.node
  rw [if_neg hne] at ht₁
  rw [seg_of_get? ht₁, bind_ok, bind_eq_ok] at h
  obtain ⟨l₂, hl₂, h⟩ := h
  rw [bind_eq_ok] at h
  obtain ⟨l₃, hl₃, h⟩ := h
  rw [if_pos hprev, bind_eq_ok] at h
  obtain ⟨l₄, hl₄, h⟩ := h
  cases h
  obtain ⟨hp₁, hh₁, ha₁⟩ := modify_pool hp₀ hl₁
  obtain ⟨hp₂, hh₂, ha₂⟩ := modify_pool hp₁ hl₂
  obtain ⟨hp₃, hh₃, ha₃⟩ := modify_pool hp₂ hl₃
  obtain ⟨hp₄, hh₄, ha₄⟩ := modify_pool hp₃ hl₄
  have hget : ∀ a u, l₀.get? a = some u → _ := fun a u hu =>
    get?_of_modify hl₄ (get?_of_modify hl₃ (get?_of_modify hl₂ (get?_of_modify hl₁ hu)))
  have hused : ∀ a, a ∉ l₀.available → a ∉ l'.available := fun a ha => by
    rw [ha₄, ha₃, ha₂, ha₁]
    exact ha
  refine ⟨hp₄, by rw [hh₄, hh₃, hh₂, hh₁, hh₀], ⟨_, ⟨hget i s₀ hs₀.node, hused i hs₀.used⟩, ?_⟩,
    fun a u hu => ?_⟩
  · rw [if_pos rfl, if_pos rfl, if_neg (Ne.symm hne)]
    split_ifs <;> exact ⟨rfl, rfl, rfl⟩
  · obtain ⟨hka, hu₀⟩ := hold a u hu
    refine ⟨Ne.symm hka, _, ⟨hget a u hu₀.node, hused a hu₀.used⟩, ?_⟩
    rw [if_neg hka, if_neg hka]
    split_ifs <;> exact ⟨rfl, rfl, rfl⟩

/-- The nodes of the list and the new one lead to each other. -/
theorem Patched.closed {next k : Int} {nodes : List Int} {rs : List (Nat × Nat)}
    {good : Int → Nat × Nat → Prop} (h : l.Patched i next k seq len l')
    (htrail : l.Trail l.head nodes rs) (hnext : next ∈ -1 :: nodes)
    (hold : ∀ j ∈ nodes, ∀ s, l.Owns j s → good j (s.seq, s.length)) (hnew : good i (seq, len)) :
    Closed (i :: nodes) good l' := by
  have hwide : ∀ j, j ∈ -1 :: nodes → j ∈ -1 :: i :: nodes := fun j hj =>
    List.cons_subset_cons _ (List.subset_cons_self _ _) hj
  refine List.forall_mem_cons.mpr ⟨?_, fun j hj => ?_⟩
  · obtain ⟨s, hs, hseq, hlen, hlink⟩ := h.new
    refine ⟨s, hs.node, ?_, hseq ▸ hlen ▸ hnew⟩
    rw [hlink]
    split
    · exact List.mem_cons_of_mem _ List.mem_cons_self
    · exact hwide _ hnext
  · obtain ⟨s, hs, hlink, -⟩ := htrail.closed j hj
    obtain ⟨-, s', hs', hseq, hlen, hlink'⟩ := h.old j s hs
    refine ⟨s', hs'.node, ?_, ?_⟩
    · rw [hlink']
      split
      · exact List.mem_cons_of_mem _ List.mem_cons_self
      · exact hwide _ hlink
    · rw [hseq, hlen]
      exact hold j hj s hs

end Insert

/-! ## A new segment that starts before all others -/

/-- The new node keeps its start and 16 bits of length; the others start behind it and do not
cross `2 ^ 32`. -/
def StartsBefore (seq : Nat) (i k : Int) (r : Nat × Nat) : Prop :=
  if k = i then r.1 = seq ∧ r.2 ≤ u16Max else seq < r.1 ∧ r.1 + r.2 ≤ 2 ^ 32

section Before

variable {S : List Int} {i : Int} {seq : Nat} {l l' : SegmentList}

theorem startsBefore_new {r : Nat × Nat} : StartsBefore seq i i r ↔ r.1 = seq ∧ r.2 ≤ u16Max := by
  unfold StartsBefore
  rw [if_pos rfl]

theorem startsBefore_old {k : Int} (hk : k ≠ i) {r : Nat × Nat} :
    StartsBefore seq i k r ↔ seq < r.1 ∧ r.1 + r.2 ≤ 2 ^ 32 := by
  unfold StartsBefore
  rw [if_neg hk]

/-- The next node goes into the new one. -/
theorem Closed.mergeNext {j k : Int} {newLen : Nat} (h : Closed S (StartsBefore seq i) l)
    (hi : i ∈ S) (hj : j ∈ S) (hlen : newLen ≤ u16Max)
    (hcall : l.mergeNext i j newLen = .ok (k, l')) :
    Closed S (StartsBefore seq i) l' ∧ k ∈ -1 :: S := by
  unfold SegmentList.mergeNext at hcall
  rw [bind_eq_ok] at hcall
  obtain ⟨l₁, hl₁, hcall⟩ := hcall
  have h₁ : Closed S (StartsBefore seq i) l₁ := h.modify hl₁ (fun _ _ _ hgood => hgood)
    fun s _ hnext hgood => ⟨hnext, startsBefore_new.mpr ⟨(startsBefore_new.mp hgood).1, hlen⟩⟩
  rw [bind_eq_ok] at hcall
  obtain ⟨freed, hfreed, hcall⟩ := hcall
  obtain ⟨t, ht, htnext, -⟩ := h₁ j hj
  cases Outcome.ok.inj (hfreed.symm.trans (seg_of_get? ht))
  rw [bind_eq_ok] at hcall
  obtain ⟨l₂, hl₂, hcall⟩ := hcall
  have h₂ : Closed S (StartsBefore seq i) l₂ := h₁.modify hl₂ (fun _ _ _ hgood => hgood)
    fun s _ _ hgood => ⟨htnext, hgood⟩
  rw [bind_eq_ok] at hcall
  obtain ⟨l₃, hl₃, hcall⟩ := hcall
  have h₃ : Closed S (StartsBefore seq i) l₃ := by
    rcases linkBack_eq_ok hl₃ with rfl | hl₃
    · exact h₂
    · exact h₂.modify hl₃ (fun _ _ _ hgood => hgood) fun s _ hnext hgood => ⟨hnext, hgood⟩
  rw [bind_eq_ok] at hcall
  obtain ⟨l₄, hl₄, hcall⟩ := hcall
  cases hcall
  obtain ⟨l₅, hl₅, rfl⟩ := removeNode_eq_ok.mp hl₄
  have h₅ : Closed S (StartsBefore seq i) l₅ := by
    refine h₃.modify hl₅ (fun _ _ _ hgood => hgood) fun s _ hnext hgood => ⟨hnext, ?_⟩
    by_cases hji : j = i
    · subst hji
      exact startsBefore_new.mpr ⟨(startsBefore_new.mp hgood).1, Nat.zero_le _⟩
    · obtain ⟨hlt, hle⟩ := (startsBefore_old hji).mp hgood
      exact (startsBefore_old hji).mpr ⟨hlt, by dsimp only at hle ⊢; omega⟩
  exact ⟨h₅, htnext⟩

/-- A part of the next node goes over to the new one. -/
theorem Closed.mergePart {j : Int} {s t : Segment} (h : Closed S (StartsBefore seq i) l)
    (hji : j ≠ i) (hs : l.get? i = some s) (ht : l.get? j = some t)
    (hlarge : u16Max - s.length < t.length) (hcall : l.mergePart i j s.length = .ok l') :
    Closed S (StartsBefore seq i) l' := by
  unfold SegmentList.mergePart at hcall
  rw [bind_eq_ok] at hcall
  obtain ⟨d, hd, hcall⟩ := hcall
  obtain ⟨hle, rfl⟩ := checkedSub_eq_ok.mp hd
  rw [bind_eq_ok] at hcall
  obtain ⟨l₁, hl₁, hcall⟩ := hcall
  have h₁ : Closed S (StartsBefore seq i) l₁ := by
    refine h.modify hl₁ (fun _ _ _ hgood => hgood) fun s' hs' hnext hgood => ⟨hnext, ?_⟩
    cases Option.some.inj (hs.symm.trans hs')
    exact startsBefore_new.mpr ⟨(startsBefore_new.mp hgood).1, by dsimp only; omega⟩
  have ht₁ := get?_of_modify hl₁ ht
  rw [if_neg (Ne.symm hji)] at ht₁
  rw [seg_of_get? ht₁, bind_ok, checkedSub_of_le (Nat.le_of_lt hlarge), bind_ok] at hcall
  refine h₁.modify hcall (fun _ _ _ hgood => hgood) fun t' ht' hnext hgood => ⟨hnext, ?_⟩
  cases Option.some.inj (ht₁.symm.trans ht')
  obtain ⟨hlt, hend⟩ := (startsBefore_old hji).mp hgood
  refine (startsBefore_old hji).mpr ?_
  dsimp only at hlt hend ⊢
  rw [wrappingAdd_of_lt (by omega)]
  omega

theorem Closed.mergeLoop (hi : i ∈ S) (hseq : seq < 2 ^ 32) : ∀ (fuel : Nat) {l l' : SegmentList}
    {j : Int}, Closed S (StartsBefore seq i) l → j ∈ -1 :: S → mergeLoop fuel l i j = .ok l' →
    Closed S (StartsBefore seq i) l' := by
  intro fuel
  induction fuel with
  | zero =>
    intro l l' j _ _ hcall
    cases hcall
  | succ fuel ih =>
    intro l l' j h hj hcall
    obtain ⟨s, hs, -, hgood⟩ := h i hi
    obtain ⟨hstart, hshort⟩ := startsBefore_new.mp hgood
    rcases mergeLoop_eq_ok hs hcall with ⟨-, rfl⟩ | ⟨t, ht, hturn⟩
    · exact h
    have hj : j ∈ S := by
      refine (List.mem_cons.mp hj).resolve_left fun he => ?_
      rw [he, get?_neg_one] at ht
      cases ht
    cases hturn with
    | all _ _ hfits hcall =>
      rw [bind_eq_ok] at hcall
      obtain ⟨⟨k, l₁⟩, hl₁, hcall⟩ := hcall
      obtain ⟨h₁, hk⟩ := h.mergeNext hi hj hfits hl₁
      exact ih h₁ hk hcall
    | part hreach hin hlarge hcall =>
      have hji : j ≠ i := by
        -- the new node alone does not get longer than 16 bits
        rintro rfl
        cases Option.some.inj (hs.symm.trans ht)
        unfold Segment.stop wrappingAdd u16Max at *
        dsimp only at *
        omega
      exact h.mergePart hji hs ht (by omega) hcall
    | again hcall => exact ih h (List.mem_cons_of_mem _ hj) hcall

end Before

/-! ## A new segment before the head, which has a link back -/

section Front

variable {l l' : SegmentList} {i j : Int} {s t : Segment}

/-- A merge frees nodes and takes none into use. -/
theorem available_of_modify {f : Segment → Segment} (hm : l.modify i f = .ok l') :
    l'.available = l.available := by
  obtain ⟨s, -, rfl⟩ := modify_eq_ok.mp hm
  rfl

theorem mergeNext_available {k : Int} {newLen : Nat} (h : l.mergeNext i j newLen = .ok (k, l')) :
    l'.available = l.available ++ [j] := by
  unfold mergeNext at h
  rw [bind_eq_ok] at h
  obtain ⟨l₁, hl₁, h⟩ := h
  rw [bind_eq_ok] at h
  obtain ⟨freed, -, h⟩ := h
  rw [bind_eq_ok] at h
  obtain ⟨l₂, hl₂, h⟩ := h
  rw [bind_eq_ok] at h
  obtain ⟨l₃, hl₃, h⟩ := h
  rw [bind_eq_ok] at h
  obtain ⟨l₄, hl₄, h⟩ := h
  cases h
  obtain ⟨l₅, hl₅, rfl⟩ := removeNode_eq_ok.mp hl₄
  have ha₃ : l₃.available = l₂.available := by
    rcases linkBack_eq_ok hl₃ with rfl | hl₃
    · rfl
    · exact available_of_modify hl₃
  show l₅.available ++ [j] = _
  rw [available_of_modify hl₅, ha₃, available_of_modify hl₂, available_of_modify hl₁]

theorem mergePart_available {length : Nat} (h : l.mergePart i j length = .ok l') :
    l'.available = l.available := by
  unfold mergePart at h
  rw [bind_eq_ok] at h
  obtain ⟨d, -, h⟩ := h
  rw [bind_eq_ok] at h
  obtain ⟨l₁, hl₁, h⟩ := h
  rw [bind_eq_ok] at h
  obtain ⟨n, -, h⟩ := h
  rw [bind_eq_ok] at h
  obtain ⟨rest, -, h⟩ := h
  rw [available_of_modify h, available_of_modify hl₁]

theorem mergeLoop_available : ∀ (fuel : Nat) {l l' : SegmentList} {j : Int},
    mergeLoop fuel l i j = .ok l' → l.available ⊆ l'.available := by
  intro fuel
  induction fuel with
  | zero =>
    intro l l' j h
    cases h
  | succ fuel ih =>
    intro l l' j h
    unfold mergeLoop at h
    split at h
    · cases h
      exact List.Subset.refl _
    rw [bind_eq_ok] at h
    obtain ⟨s, -, h⟩ := h
    rw [bind_eq_ok] at h
    obtain ⟨t, -, h⟩ := h
    split at h
    · rw [bind_eq_ok] at h
      obtain ⟨overlap, -, h⟩ := h
      rw [bind_eq_ok] at h
      obtain ⟨mergeLen, -, h⟩ := h
      split at h
      · rw [bind_eq_ok] at h
        obtain ⟨⟨k, l₁⟩, hl₁, h⟩ := h
        refine List.Subset.trans ?_ (ih h)
        rw [mergeNext_available hl₁]
        exact List.subset_append_left _ _
      · rw [mergePart_available h]
        exact List.Subset.refl _
    · exact ih h

end Front

section Fronted

variable {l l₁ l' : SegmentList} {i p : Int} {t : Segment} {seq len : Nat} {nodes : List Int}
  {rs : List (Nat × Nat)} (hpatch : l.Patched i l.head p seq len l₁) (ht : l.Owns l.head t)
  (hpi : p ≠ i) (htrail : l.Trail l.head nodes rs)
  (hlarge : u16Max - len ≤ t.length) (hcall : l₁.mergePart i l.head len = .ok l')
include hpatch ht hpi hlarge hcall

include htrail

end Fronted

end NetBricks.State.SegmentList
