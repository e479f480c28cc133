import NetBricks.Lib.Judgment
import NetBricks.Lib.Recoding
import NetBricks.State.SegmentBlock

/-!
# Segment lists that mirror each other

Two segment lists in which different nodes of the storage are in use, and whose
sequence numbers are recoded, do the same when the same is done to them. A
`Pairing` says which node of one list stands for which node of the other. Only
nodes in use are paired: the links of a paired node lead to paired nodes, and
what is in the other nodes (left over from before, or never used) is never read.

`Mirror τ C m l l'` carries

* the pairing is one to one, and paired nodes agree (`Twin`): recoded `seq`, same
  `length`, paired links;
* the free stacks hold unpaired nodes at the bottom (`spare`), then paired nodes
  in the same order: a node that is taken is paired already, or can be paired;
* the numbers of the nodes in `live`, which is closed under `next`, are in `C`
  (`InPlay`). These are the nodes a call may compare; the recoding is only asked
  to respect comparisons in `C`.

Every function of the list then ends alike on both sides, with lists that mirror
each other again under a pairing that may have grown.
-/

namespace NetBricks.State

open Lib
open Lib.Outcome

/-- The nodes that the list reaches from its head. -/
inductive SegmentList.Reaches (l : SegmentList) : Int → Prop where
  | head (h : l.head ≠ -1) : l.Reaches l.head
  | next {i : Int} {s : Segment} (hi : l.Reaches i) (hs : l.get? i = some s) (h : s.next ≠ -1) :
    l.Reaches s.next

/-- Which nodes stand for each other, which are still unpaired at the bottom of the
free stacks, and which nodes of the first list are looked at. -/
structure Pairing where
  pairs : Int → Int → Prop
  spare : List Int
  spare' : List Int
  live : Int → Prop

namespace Pairing

/-- Both links end the list, or they lead to paired nodes. -/
def Linked (m : Pairing) (i j : Int) : Prop := (i = -1 ∧ j = -1) ∨ m.pairs i j

/-- The end of the list, or a node that is looked at. -/
def Ahead (m : Pairing) (i : Int) : Prop := i = -1 ∨ m.live i

/-- The pairing with one more pair, which is looked at. -/
def add (m : Pairing) (i j : Int) : Pairing :=
  { m with
    pairs := fun a b => m.pairs a b ∨ (a = i ∧ b = j)
    live := fun a => m.live a ∨ a = i }

/-- Nothing is paired. -/
def unused (spare spare' : List Int) : Pairing :=
  { pairs := fun _ _ => False, spare := spare, spare' := spare', live := fun _ => False }

/-- All pairs are looked at. -/
def whole (m : Pairing) : Pairing := { m with live := fun i => ∃ j, m.pairs i j }

/-- What was paired and looked at still is: pairs are added as nodes are taken, and none is
given up, so that a link that was matched stays so. -/
structure Grows (m m' : Pairing) : Prop where
  pairs : ∀ {i j}, m.pairs i j → m'.pairs i j
  live : ∀ {i}, m.live i → m'.live i

theorem Grows.refl (m : Pairing) : m.Grows m := ⟨id, id⟩

theorem Grows.trans {m₁ m₂ m₃ : Pairing} (h₁ : m₁.Grows m₂) (h₂ : m₂.Grows m₃) : m₁.Grows m₃ :=
  ⟨fun h => h₂.pairs (h₁.pairs h), fun h => h₂.live (h₁.live h)⟩

theorem grows_add (m : Pairing) (i j : Int) : m.Grows (m.add i j) := ⟨.inl, .inl⟩

theorem Grows.linked {m m' : Pairing} (h : m.Grows m') {i j : Int} (hij : m.Linked i j) :
    m'.Linked i j := hij.imp id h.pairs

theorem Grows.ahead {m m' : Pairing} (h : m.Grows m') {i : Int} (hi : m.Ahead i) :
    m'.Ahead i := hi.imp id h.live

end Pairing

/-- Two nodes that agree: the starts correspond under `τ`, the lengths are the same, and both
links end the list together or lead to paired nodes. -/
structure Twin (τ : Nat → Nat) (m : Pairing) (s s' : Segment) : Prop where
  seq : s'.seq = τ s.seq
  length : s'.length = s.length
  next : m.Linked s.next s'.next
  prev : m.Linked s.prev s'.prev

/-- A node whose numbers may be compared, both where it starts and where it ends, and from which
only such nodes are reached. -/
structure InPlay (C : Nat → Prop) (m : Pairing) (s : Segment) : Prop where
  seq : C s.seq
  stop : C (s.seq + s.length)
  next : m.Ahead s.next

/-- Nodes of a storage of `n`, each once, that do not have the property `D`: free nodes that
have not been paired, and so may be paired with any. -/
structure Spare (D : Int → Prop) (n : Nat) (nodes : List Int) : Prop where
  nodup : nodes.Nodup
  unused : ∀ i ∈ nodes, ¬ D i
  exist : ∀ i ∈ nodes, 0 ≤ i ∧ i < n

structure Mirror (τ : Nat → Nat) (C : Nat → Prop) (m : Pairing) (l l' : SegmentList) : Prop where
  functional : ∀ {i j j'}, m.pairs i j → m.pairs i j' → j = j'
  injective : ∀ {i i' j}, m.pairs i j → m.pairs i' j → i = i'
  twin : ∀ {i j}, m.pairs i j → ∃ s s', l.get? i = some s ∧ l'.get? j = some s' ∧ Twin τ m s s'
  head : m.Linked l.head l'.head
  tail : m.Linked l.tail l'.tail
  front : m.Ahead l.head
  paired : ∀ {i}, m.live i → ∃ j, m.pairs i j
  inPlay : ∀ {i s}, m.live i → l.get? i = some s → InPlay C m s
  stack : ∃ used : List (Int × Int), (∀ p ∈ used, m.pairs p.1 p.2) ∧
    l.available = m.spare ++ used.map Prod.fst ∧ l'.available = m.spare' ++ used.map Prod.snd
  spare : Spare (fun i => ∃ j, m.pairs i j) l.storage.length m.spare
  spare' : Spare (fun j => ∃ i, m.pairs i j) l'.storage.length m.spare'

theorem Twin.grow {τ : Nat → Nat} {m m' : Pairing} {s s' : Segment} (h : Twin τ m s s')
    (hm : m.Grows m') : Twin τ m' s s' :=
  ⟨h.seq, h.length, hm.linked h.next, hm.linked h.prev⟩

theorem InPlay.grow {C : Nat → Prop} {m m' : Pairing} {s : Segment} (h : InPlay C m s)
    (hm : m.Grows m') : InPlay C m' s := ⟨h.seq, h.stop, hm.ahead h.next⟩

/-! ## Reading and writing paired nodes -/

section

variable {τ : Nat → Nat} {C : Nat → Prop} {m : Pairing} {l l' : SegmentList}

namespace Mirror

theorem ne_neg_one (h : Mirror τ C m l l') {i j : Int} (hij : m.pairs i j) : i ≠ -1 ∧ j ≠ -1 := by
  obtain ⟨s, s', hs, hs', -⟩ := h.twin hij
  have hi := (SegmentList.get?_eq_some.mp hs).1
  have hj := (SegmentList.get?_eq_some.mp hs').1
  omega

theorem end_iff (h : Mirror τ C m l l') {i j : Int} (hij : m.Linked i j) : i = -1 ↔ j = -1 := by
  rcases hij with ⟨rfl, rfl⟩ | hij
  · exact Iff.rfl
  · have := h.ne_neg_one hij
    exact ⟨fun hi => absurd hi this.1, fun hj => absurd hj this.2⟩

/-- Paired links lead to the same node exactly when their twins do. -/
theorem eq_iff (h : Mirror τ C m l l') {i i' j j' : Int} (hij : m.Linked i j)
    (hij' : m.Linked i' j') : i = i' ↔ j = j' := by
  rcases hij with ⟨rfl, rfl⟩ | hij
  · rw [eq_comm, h.end_iff hij', eq_comm]
  · rcases hij' with ⟨rfl, rfl⟩ | hij'
    · exact h.end_iff (.inr hij)
    · constructor
      · rintro rfl
        exact h.functional hij hij'
      · rintro rfl
        exact h.injective hij hij'

/-- Lists without segments mirror each other, whatever is in their nodes. -/
theorem ofEmpty (hl : l.Holds none) (ht : l.tail = -1) (hl' : l'.Holds none) (ht' : l'.tail = -1) :
    Mirror τ C (.unused l.available l'.available) l l' := by
  have hspare : ∀ {l : SegmentList} {D : Int → Prop}, l.Pool → (∀ i, ¬ D i) →
      Spare D l.storage.length l.available := by
    intro l D hp hD
    refine ⟨hp.nodup, fun i _ => hD i, fun i hi => ?_⟩
    obtain ⟨s, hs⟩ := hp.node i hi
    obtain ⟨h0, hs⟩ := SegmentList.get?_eq_some.mp hs
    have := (List.getElem?_eq_some_iff.mp hs).1
    omega
  refine ⟨nofun, nofun, nofun, .inl ⟨hl.2, hl'.2⟩, .inl ⟨ht, ht'⟩, .inl hl.2, nofun, nofun,
    ⟨[], nofun, ?_, ?_⟩, hspare hl.1 ?_, hspare hl'.1 ?_⟩
  · exact (List.append_nil _).symm
  · exact (List.append_nil _).symm
  · rintro i ⟨j, hij⟩
    exact hij
  · rintro j ⟨i, hij⟩
    exact hij

/-- Only pairs are reached from the head. -/
theorem paired_of_reaches (h : Mirror τ C m l l') {i : Int} (hi : l.Reaches i) :
    ∃ j, m.pairs i j := by
  have hlinked : ∀ {i j}, i ≠ -1 → m.Linked i j → ∃ j, m.pairs i j :=
    fun hne hij => ⟨_, hij.resolve_left (fun h => hne h.1)⟩
  induction hi with
  | head hend => exact hlinked hend h.head
  | next _ hs hend ih =>
    obtain ⟨j, hij⟩ := ih
    obtain ⟨t, t', ht, -, htw⟩ := h.twin hij
    rw [hs] at ht
    cases ht
    exact hlinked hend htw.next

theorem focus (h : Mirror τ C m l l') {C' : Nat → Prop} {live : Int → Prop}
    (hfront : l.head = -1 ∨ live l.head) (hpaired : ∀ {i}, live i → ∃ j, m.pairs i j)
    (hplay : ∀ {i s}, live i → l.get? i = some s → InPlay C' { m with live := live } s) :
    Mirror τ C' { m with live := live } l l' where
  functional := h.functional
  injective := h.injective
  twin hij := by
    obtain ⟨s, s', hs, hs', ht⟩ := h.twin hij
    exact ⟨s, s', hs, hs', ht.seq, ht.length, ht.next, ht.prev⟩
  head := h.head
  tail := h.tail
  front := hfront
  paired := hpaired
  inPlay := hplay
  stack := h.stack
  spare := h.spare
  spare' := h.spare'

theorem linked_whole {m : Pairing} {i j : Int} (h : m.Linked i j) : m.whole.Ahead i := by
  rcases h with ⟨hi, -⟩ | hij
  · exact .inl hi
  · exact .inr ⟨j, hij⟩

/-- Without anything to compare, all pairs may be looked at. -/
theorem toWhole (h : Mirror τ C m l l') : Mirror τ (fun _ => True) m.whole l l' := by
  refine h.focus (linked_whole h.head) id ?_
  rintro i s ⟨j, hij⟩ hs
  obtain ⟨t, t', ht, -, htw⟩ := h.twin hij
  rw [hs] at ht
  cases ht
  exact ⟨trivial, trivial, linked_whole htw.next⟩

/-- For a comparison in `C`, the nodes that are reached from the head are enough. -/
theorem reach (h : Mirror τ C m l l') {C' : Nat → Prop}
    (hC : ∀ i s, l.Reaches i → l.get? i = some s → C' s.seq ∧ C' (s.seq + s.length)) :
    Mirror τ C' { m with live := l.Reaches } l l' := by
  refine h.focus ?_ (fun hi => h.paired_of_reaches hi) ?_
  · by_cases hend : l.head = -1
    · exact .inl hend
    · exact .inr (.head hend)
  · intro i s hi hs
    obtain ⟨hseq, hstop⟩ := hC i s hi hs
    refine ⟨hseq, hstop, ?_⟩
    by_cases hend : s.next = -1
    · exact .inl hend
    · exact .inr (.next hi hs hend)

/-- Reading the nodes at paired links. -/
theorem seg (h : Mirror τ C m l l') {i j : Int} (hij : m.Linked i j) :
    Sim (fun s s' => Twin τ m s s' ∧ l.get? i = some s ∧ l'.get? j = some s') (l.seg i)
      (l'.seg j) := by
  rcases hij with ⟨rfl, rfl⟩ | hij
  · rw [SegmentList.seg_of_none l.get?_neg_one, SegmentList.seg_of_none l'.get?_neg_one]
    exact rfl
  · obtain ⟨s, s', hs, hs', ht⟩ := h.twin hij
    rw [SegmentList.seg_of_get? hs, SegmentList.seg_of_get? hs']
    exact ⟨ht, hs, hs'⟩

/-- Writing to a pair, or to two nodes that are not paired with anything. -/
theorem update (h : Mirror τ C m l l') {i j : Int} {s s' t t' : Segment} (hs : l.get? i = some s)
    (hs' : l'.get? j = some s')
    (hpair : m.pairs i j ∨ (∀ b, ¬ m.pairs i b) ∧ ∀ a, ¬ m.pairs a j)
    (ht : m.pairs i j → Twin τ m t t') (hlive : m.live i → InPlay C m t) :
    Mirror τ C m (l.update i t) (l'.update j t') where
  functional := h.functional
  injective := h.injective
  twin {a b} hab := by
    obtain ⟨u, u', hu, hu', htw⟩ := h.twin hab
    by_cases hia : i = a
    · subst hia
      -- the pair itself
      have hij : m.pairs i j := hpair.resolve_right (fun hn => hn.1 b hab)
      have hjb : j = b := h.functional hij hab
      subst hjb
      exact ⟨t, t', SegmentList.get?_update_self hs, SegmentList.get?_update_self hs', ht hab⟩
    · have hjb : j ≠ b := by
        rintro rfl
        rcases hpair with hij | hn
        · exact hia (h.injective hij hab)
        · exact hn.2 a hab
      rw [SegmentList.get?_update_ne hia (SegmentList.get?_eq_some.mp hs).1,
        SegmentList.get?_update_ne hjb (SegmentList.get?_eq_some.mp hs').1]
      exact ⟨u, u', hu, hu', htw⟩
  head := h.head
  tail := h.tail
  front := h.front
  paired := h.paired
  inPlay {a u} ha hu := by
    by_cases hia : i = a
    · subst hia
      rw [SegmentList.get?_update_self hs] at hu
      cases hu
      exact hlive ha
    · rw [SegmentList.get?_update_ne hia (SegmentList.get?_eq_some.mp hs).1] at hu
      exact h.inPlay ha hu
  stack := h.stack
  spare := by
    unfold SegmentList.update
    rw [List.length_set]
    exact h.spare
  spare' := by
    unfold SegmentList.update
    rw [List.length_set]
    exact h.spare'

/-- Assignments to the nodes at paired links. -/
theorem modify (h : Mirror τ C m l l') {i j : Int} (hij : m.Linked i j)
    {f f' : Segment → Segment}
    (hf : ∀ s s', l.get? i = some s → Twin τ m s s' → Twin τ m (f s) (f' s'))
    (hlive : ∀ s, l.get? i = some s → m.live i → InPlay C m s → InPlay C m (f s)) :
    Sim (Mirror τ C m) (l.modify i f) (l'.modify j f') := by
  rcases hij with ⟨rfl, rfl⟩ | hij
  · unfold SegmentList.modify
    rw [l.get?_neg_one, l'.get?_neg_one]
    exact rfl
  · obtain ⟨s, s', hs, hs', ht⟩ := h.twin hij
    rw [SegmentList.modify_of_get? hs, SegmentList.modify_of_get? hs']
    exact h.update hs hs' (.inl hij) (fun _ => hf s s' hs ht)
      (fun hl => hlive s hs hl (h.inPlay hl hs))

theorem setPrev (h : Mirror τ C m l l') {i j a b : Int} (hij : m.Linked i j)
    (hab : m.Linked a b) : Sim (Mirror τ C m) (l.modify i (fun s => { s with prev := a }))
      (l'.modify j (fun s => { s with prev := b })) := by
  refine h.modify hij ?_ ?_
  · intro s s' _ ht
    exact ⟨ht.seq, ht.length, ht.next, hab⟩
  · intro s _ _ hp
    exact ⟨hp.seq, hp.stop, hp.next⟩

theorem setNext (h : Mirror τ C m l l') {i j a b : Int} (hij : m.Linked i j)
    (hab : m.Linked a b) (ha : m.Ahead a) :
    Sim (Mirror τ C m) (l.modify i (fun s => { s with next := a }))
      (l'.modify j (fun s => { s with next := b })) := by
  refine h.modify hij ?_ ?_
  · intro s s' _ ht
    exact ⟨ht.seq, ht.length, hab, ht.prev⟩
  · intro s _ _ hp
    exact ⟨hp.seq, hp.stop, ha⟩

/-- A node that was read from an `Ahead` link is in play. -/
theorem inPlay_of_ahead (h : Mirror τ C m l l') {i : Int} {s : Segment} (hi : m.Ahead i)
    (hs : l.get? i = some s) : InPlay C m s := by
  rcases hi with rfl | hi
  · rw [l.get?_neg_one] at hs
    cases hs
  · exact h.inPlay hi hs

theorem withHead (h : Mirror τ C m l l') {i j : Int} (hij : m.Linked i j) (hi : m.Ahead i) :
    Mirror τ C m { l with head := i } { l' with head := j } :=
  { h with head := hij, front := hi }

theorem withTail (h : Mirror τ C m l l') {i j : Int} (hij : m.Linked i j) :
    Mirror τ C m { l with tail := i } { l' with tail := j } :=
  { h with tail := hij }

theorem push (h : Mirror τ C m l l') {i j : Int} (hij : m.pairs i j) :
    Mirror τ C m { l with available := l.available ++ [i] }
      { l' with available := l'.available ++ [j] } := by
  obtain ⟨used, hused, hl, hl'⟩ := h.stack
  refine { h with stack := ⟨used ++ [(i, j)], ?_, ?_, ?_⟩ }
  · intro p hp
    rcases List.mem_append.mp hp with hp | hp
    · exact hused p hp
    · rw [List.mem_singleton.mp hp]
      exact hij
  · simp [hl]
  · simp [hl']

theorem removeNode (h : Mirror τ C m l l') {i j : Int} (hij : m.Linked i j) :
    Sim (Mirror τ C m) (l.removeNode i) (l'.removeNode j) := by
  rcases hij with ⟨rfl, rfl⟩ | hpair
  · unfold SegmentList.removeNode SegmentList.modify
    rw [l.get?_neg_one, l'.get?_neg_one]
    exact rfl
  · refine (h.modify (.inr hpair) ?_ ?_).bind ?_
    · intro s s' _ ht
      exact ⟨ht.seq, rfl, ht.next, ht.prev⟩
    · intro s _ _ hp
      exact ⟨hp.seq, hp.seq, hp.next⟩
    · intro l₁ l₁' h₁
      exact h₁.push hpair

end Mirror

/-! ## Taking a node -/

/-- A node that is in use nowhere was taken from the unpaired ones, or made. The nodes with `D`
are as they were (`keeps`), the ends of the list too, and `nodes` are the spare ones that are
left, without the new one (`fresh`). -/
structure Taken (D : Int → Prop) (l : SegmentList) (i : Int) (l₁ : SegmentList)
    (nodes : List Int) : Prop where
  unused : ¬ D i
  exist : ∃ s, l₁.get? i = some s
  keeps : ∀ {a}, D a → l₁.get? a = l.get? a
  head : l₁.head = l.head
  tail : l₁.tail = l.tail
  available : l₁.available = nodes
  spare : Spare D l₁.storage.length nodes
  fresh : i ∉ nodes

theorem taken_of_spare {D : Int → Prop} {l : SegmentList} {nodes : List Int}
    (hav : l.available = nodes) (hspare : Spare D l.storage.length nodes)
    (hD : ∀ a, D a → ∃ s, l.get? a = some s) :
    ∃ i l₁ nodes₁, l.findAvailableNode = (i, l₁) ∧ Taken D l i l₁ nodes₁ := by
  rcases List.eq_nil_or_concat nodes with rfl | ⟨rest, i, rfl⟩
  · -- the storage grows
    refine ⟨l.storage.length, { l with storage := l.storage ++ [.new l.storage.length 0 0] }, [],
      ?_, ?_⟩
    · unfold SegmentList.findAvailableNode
      rw [hav]
      rfl
    · have hlt : ∀ {a}, D a → 0 ≤ a ∧ a.toNat < l.storage.length := by
        intro a ha
        obtain ⟨s, hs⟩ := hD a ha
        obtain ⟨h0, hs⟩ := SegmentList.get?_eq_some.mp hs
        exact ⟨h0, (List.getElem?_eq_some_iff.mp hs).1⟩
      refine ⟨?_, ?_, ?_, rfl, rfl, hav, ⟨List.nodup_nil, by simp, by simp⟩, by simp⟩
      · intro ha
        have := hlt ha
        omega
      · exact ⟨.new l.storage.length 0 0, SegmentList.get?_eq_some.mpr ⟨by omega, by simp⟩⟩
      · intro a ha
        obtain ⟨h0, hlt⟩ := hlt ha
        unfold SegmentList.get?
        rw [if_pos h0, if_pos h0]
        exact List.getElem?_append_left hlt
  · rw [List.concat_eq_append] at hav hspare
    refine ⟨i, { l with available := rest }, rest, ?_, ?_⟩
    · unfold SegmentList.findAvailableNode
      rw [hav, List.getLast?_concat, List.dropLast_concat]
    · have hi := hspare.exist i (by simp)
      have hnodup := List.nodup_append.mp hspare.nodup
      refine ⟨hspare.unused i (by simp), ?_, fun _ => rfl, rfl, rfl, rfl, ?_, ?_⟩
      · have hlt : i.toNat < l.storage.length := by omega
        exact ⟨l.storage[i.toNat], SegmentList.get?_eq_some.mpr ⟨hi.1, by simp [hlt]⟩⟩
      · exact ⟨hnodup.1, fun a ha => hspare.unused a (by simp [ha]),
          fun a ha => hspare.exist a (by simp [ha])⟩
      · intro ha
        exact hnodup.2.2 i ha i (by simp) rfl

/-- Both lists took a node: a pair that had been freed, or two nodes that were never paired and
can be now (`known`), since they are no longer among the spare ones (`fresh`). -/
structure Fetched (τ : Nat → Nat) (C : Nat → Prop) (m : Pairing) (i j : Int)
    (l l' : SegmentList) : Prop where
  mirror : Mirror τ C m l l'
  left : ∃ s, l.get? i = some s
  right : ∃ s, l'.get? j = some s
  known : m.pairs i j ∨ (∀ b, ¬ m.pairs i b) ∧ ∀ a, ¬ m.pairs a j
  fresh : ¬ m.pairs i j → i ∉ m.spare ∧ j ∉ m.spare'

/-- `find_available_node` on both sides. -/
theorem Mirror.fetch (h : Mirror τ C m l l') :
    ∃ m₁ i j l₁ l₁', l.findAvailableNode = (i, l₁) ∧ l'.findAvailableNode = (j, l₁') ∧
      m.Grows m₁ ∧ Fetched τ C m₁ i j l₁ l₁' := by
  obtain ⟨used, hused, hl, hl'⟩ := h.stack
  rcases List.eq_nil_or_concat used with rfl | ⟨used, p, rfl⟩
  · -- no pair is free
    rw [List.map_nil, List.append_nil] at hl hl'
    obtain ⟨i, l₁, nodes, hi, ht⟩ := taken_of_spare hl h.spare (by
      rintro a ⟨b, hab⟩
      obtain ⟨s, -, hs, -⟩ := h.twin hab
      exact ⟨s, hs⟩)
    obtain ⟨j, l₁', nodes', hj, ht'⟩ := taken_of_spare hl' h.spare' (by
      rintro b ⟨a, hab⟩
      obtain ⟨-, s', -, hs', -⟩ := h.twin hab
      exact ⟨s', hs'⟩)
    refine ⟨{ m with spare := nodes, spare' := nodes' }, i, j, l₁, l₁', hi, hj, ⟨id, id⟩, ?_,
      ht.exist, ht'.exist, .inr ⟨fun b hb => ht.unused ⟨b, hb⟩, fun a ha => ht'.unused ⟨a, ha⟩⟩,
      fun _ => ⟨ht.fresh, ht'.fresh⟩⟩
    refine ⟨h.functional, h.injective, ?_, ?_, ?_, ?_, h.paired, ?_, ?_, ht.spare, ht'.spare⟩
    · intro a b hab
      obtain ⟨s, s', hs, hs', htw⟩ := h.twin hab
      exact ⟨s, s', (ht.keeps ⟨b, hab⟩).trans hs, (ht'.keeps ⟨a, hab⟩).trans hs',
        htw.grow ⟨id, id⟩⟩
    · rw [ht.head, ht'.head]
      exact h.head
    · rw [ht.tail, ht'.tail]
      exact h.tail
    · rw [ht.head]
      exact h.front
    · intro a s ha hs
      rw [ht.keeps (h.paired ha)] at hs
      exact (h.inPlay ha hs).grow ⟨id, id⟩
    · exact ⟨[], by simp, by simp [ht.available], by simp [ht'.available]⟩
  · -- the pair that was freed last
    rw [List.concat_eq_append, List.map_append, ← List.append_assoc] at hl hl'
    have hp : m.pairs p.1 p.2 := hused p (by simp)
    obtain ⟨s, s', hs, hs', -⟩ := h.twin hp
    refine ⟨m, p.1, p.2, { l with available := m.spare ++ used.map Prod.fst },
      { l' with available := m.spare' ++ used.map Prod.snd }, ?_, ?_, .refl m, ?_,
      ⟨s, hs⟩, ⟨s', hs'⟩, .inl hp, fun hn => absurd hp hn⟩
    · unfold SegmentList.findAvailableNode
      rw [hl, List.map_singleton, List.getLast?_concat, List.dropLast_concat]
    · unfold SegmentList.findAvailableNode
      rw [hl', List.map_singleton, List.getLast?_concat, List.dropLast_concat]
    · exact { h with stack := ⟨used, fun q hq => hused q (by simp [hq]), rfl, rfl⟩ }

namespace Fetched

variable {i j : Int}

/-- Assignments to the nodes that were taken. -/
theorem update (h : Fetched τ C m i j l l') {s s' t v : Segment} (hs : l.get? i = some s)
    (hs' : l'.get? j = some s') (ht : Twin τ m s s' → Twin τ m t v)
    (hlive : InPlay C m s → InPlay C m t) :
    Fetched τ C m i j (l.update i t) (l'.update j v) where
  mirror := by
    refine h.mirror.update hs hs' h.known ?_ ?_
    · intro hij
      obtain ⟨u, u', hu, hu', htw⟩ := h.mirror.twin hij
      rw [hs] at hu
      rw [hs'] at hu'
      cases hu
      cases hu'
      exact ht htw
    · intro hl
      exact hlive (h.mirror.inPlay hl hs)
  left := ⟨t, SegmentList.get?_update_self hs⟩
  right := ⟨v, SegmentList.get?_update_self hs'⟩
  known := h.known
  fresh := h.fresh

theorem commit (h : Fetched τ C m i j l l') {t t' : Segment} (hs : l.get? i = some t)
    (hs' : l'.get? j = some t') (ht : Twin τ m t t') (hp : InPlay C m t) :
    Mirror τ C (m.add i j) l l' := by
  have hgrow := m.grows_add i j
  -- any pair of `i` or of `j` is the new one
  have hleft : ∀ {b}, m.pairs i b → b = j := by
    intro b hb
    rcases h.known with hij | hn
    · exact h.mirror.functional hb hij
    · exact absurd hb (hn.1 b)
  have hright : ∀ {a}, m.pairs a j → a = i := by
    intro a ha
    rcases h.known with hij | hn
    · exact h.mirror.injective ha hij
    · exact absurd ha (hn.2 a)
  obtain ⟨used, hused, hl, hl'⟩ := h.mirror.stack
  refine ⟨?_, ?_, ?_, hgrow.linked h.mirror.head, hgrow.linked h.mirror.tail,
    hgrow.ahead h.mirror.front, ?_, ?_, ⟨used, fun p hp => .inl (hused p hp), hl, hl'⟩, ?_, ?_⟩
  · rintro a b b' (hab | ⟨rfl, rfl⟩) (hab' | ⟨ha, rfl⟩)
    · exact h.mirror.functional hab hab'
    · subst ha
      exact hleft hab
    · exact (hleft hab').symm
    · rfl
  · rintro a a' b (hab | ⟨rfl, rfl⟩) (hab' | ⟨rfl, hb⟩)
    · exact h.mirror.injective hab hab'
    · subst hb
      exact hright hab
    · exact (hright hab').symm
    · rfl
  · rintro a b (hab | ⟨rfl, rfl⟩)
    · obtain ⟨u, u', hu, hu', htw⟩ := h.mirror.twin hab
      exact ⟨u, u', hu, hu', htw.grow hgrow⟩
    · exact ⟨t, t', hs, hs', ht.grow hgrow⟩
  · rintro a (ha | rfl)
    · obtain ⟨b, hb⟩ := h.mirror.paired ha
      exact ⟨b, .inl hb⟩
    · exact ⟨j, .inr ⟨rfl, rfl⟩⟩
  · rintro a u (ha | rfl) hu
    · exact (h.mirror.inPlay ha hu).grow hgrow
    · rw [hs] at hu
      cases hu
      exact hp.grow hgrow
  · refine ⟨h.mirror.spare.nodup, ?_, h.mirror.spare.exist⟩
    rintro a ha ⟨b, hab | ⟨rfl, rfl⟩⟩
    · exact h.mirror.spare.unused a ha ⟨b, hab⟩
    · by_cases hij : m.pairs a b
      · exact h.mirror.spare.unused a ha ⟨b, hij⟩
      · exact (h.fresh hij).1 ha
  · refine ⟨h.mirror.spare'.nodup, ?_, h.mirror.spare'.exist⟩
    rintro b hb ⟨a, hab | ⟨rfl, rfl⟩⟩
    · exact h.mirror.spare'.unused b hb ⟨a, hab⟩
    · by_cases hij : m.pairs a b
      · exact h.mirror.spare'.unused b hb ⟨a, hij⟩
      · exact (h.fresh hij).2 hb

/-- The last assignment to the nodes that were taken makes them a pair. -/
theorem finish (h : Fetched τ C m i j l l') {s s' t v : Segment} (hs : l.get? i = some s)
    (hs' : l'.get? j = some s') (ht : Twin τ m t v) (hp : InPlay C m t) :
    Mirror τ C (m.add i j) (l.update i t) (l'.update j v) :=
  (h.update hs hs' (fun _ => ht) (fun _ => hp)).commit (SegmentList.get?_update_self hs)
    (SegmentList.get?_update_self hs') ht hp

end Fetched

theorem Pairing.linked_add (m : Pairing) (i j : Int) : (m.add i j).Linked i j :=
  .inr (.inr ⟨rfl, rfl⟩)

theorem Pairing.ahead_add (m : Pairing) (i j : Int) : (m.add i j).Ahead i := .inr (.inr rfl)

/-! ## Inserting a node -/

/-- Lists that mirror each other under a pairing that may have grown, and a node of
each, or none. -/
def Lands (τ : Nat → Nat) (C : Nat → Prop) (m : Pairing) (x y : Int × SegmentList) : Prop :=
  ∃ m', m.Grows m' ∧ Mirror τ C m' x.2 y.2 ∧ m'.Linked x.1 y.1 ∧ m'.Ahead x.1

namespace Mirror

theorem insertBeforeNode (h : Mirror τ C m l l') {next next' : Int} {seq len : Nat}
    (hn : m.Linked next next') (ha : m.Ahead next) (hseq : C seq) (hstop : C (seq + len)) :
    Sim (Lands τ C m) (l.insertBeforeNode next seq len)
      (l'.insertBeforeNode next' (τ seq) len) := by
  obtain ⟨m₁, i, j, l₁, l₁', hi, hj, hg, hF⟩ := h.fetch
  obtain ⟨s, hs⟩ := hF.left
  obtain ⟨s', hs'⟩ := hF.right
  replace hn := hg.linked hn
  replace ha := hg.ahead ha
  unfold SegmentList.insertBeforeNode
  rw [hi, hj]
  dsimp only
  rw [SegmentList.modify_of_get? hs, SegmentList.modify_of_get? hs', bind_ok, bind_ok]
  -- `prev` is still what it was before
  have hF₂ := hF.update hs hs' (t := { s with seq := seq, length := len, next := next })
    (v := { s' with seq := τ seq, length := len, next := next' })
    (fun ht => ⟨rfl, rfl, hn, ht.prev⟩) (fun _ => ⟨hseq, hstop, ha⟩)
  have hs₂ := SegmentList.get?_update_self
    (t := { s with seq := seq, length := len, next := next }) hs
  have hs₂' := SegmentList.get?_update_self
    (t := { s' with seq := τ seq, length := len, next := next' }) hs'
  have hg₁ := m₁.grows_add i j
  have hgm := hg.trans hg₁
  have hi₁ := m₁.linked_add i j
  by_cases hend : next = -1
  · have hend' := (hF.mirror.end_iff hn).mp hend
    rw [if_neg (not_not.mpr hend), if_neg (not_not.mpr hend'),
      SegmentList.modify_of_get? hs₂, SegmentList.modify_of_get? hs₂']
    exact ⟨_, hgm, hF₂.finish hs₂ hs₂' ⟨rfl, rfl, hn, .inl ⟨rfl, rfl⟩⟩ ⟨hseq, hstop, ha⟩, hi₁,
      m₁.ahead_add i j⟩
  · have hend' := mt (hF.mirror.end_iff hn).mpr hend
    rw [if_pos hend, if_pos hend']
    refine (hF₂.mirror.seg hn).bind ?_
    rintro n n' ⟨hnn, -, -⟩
    rw [SegmentList.modify_of_get? hs₂, SegmentList.modify_of_get? hs₂', bind_ok, bind_ok]
    -- from here on the new node is like any other
    have h₃ := hF₂.finish hs₂ hs₂' (t := { s with
        seq := seq, length := len, next := next, prev := n.prev }) (v := { s' with
        seq := τ seq, length := len, next := next', prev := n'.prev })
      ⟨rfl, rfl, hn, hnn.prev⟩ ⟨hseq, hstop, ha⟩
    refine (h₃.setPrev (hg₁.linked hn) hi₁).bind ?_
    intro l₄ l₄' h₄
    by_cases hprev : n.prev = -1
    · have hprev' := (hF₂.mirror.end_iff hnn.prev).mp hprev
      rw [if_neg (not_not.mpr hprev), if_neg (not_not.mpr hprev')]
      exact ⟨_, hgm, h₄.withHead hi₁ (m₁.ahead_add i j), hi₁, m₁.ahead_add i j⟩
    · have hprev' := mt (hF₂.mirror.end_iff hnn.prev).mpr hprev
      rw [if_pos hprev, if_pos hprev']
      refine (h₄.setNext (hg₁.linked hnn.prev) hi₁ (m₁.ahead_add i j)).bind ?_
      intro l₅ l₅' h₅
      exact ⟨_, hgm, h₅, hi₁, m₁.ahead_add i j⟩

theorem insertAfterNode (h : Mirror τ C m l l') {prev prev' : Int} {seq len : Nat}
    (hp : m.Linked prev prev') (ha : m.Ahead prev) (hseq : C seq) (hstop : C (seq + len)) :
    Sim (Lands τ C m) (l.insertAfterNode prev seq len)
      (l'.insertAfterNode prev' (τ seq) len) := by
  obtain ⟨m₁, i, j, l₁, l₁', hi, hj, hg, hF⟩ := h.fetch
  obtain ⟨s, hs⟩ := hF.left
  obtain ⟨s', hs'⟩ := hF.right
  replace hp := hg.linked hp
  replace ha := hg.ahead ha
  have hg₁ := m₁.grows_add i j
  have hgm := hg.trans hg₁
  have hi₁ := m₁.linked_add i j
  unfold SegmentList.insertAfterNode
  rw [hi, hj]
  dsimp only
  rw [SegmentList.modify_of_get? hs, SegmentList.modify_of_get? hs', bind_ok, bind_ok]
  -- `next` is still what it was before
  have hF₂ := hF.update hs hs' (t := { s with seq := seq, length := len, prev := prev })
    (v := { s' with seq := τ seq, length := len, prev := prev' })
    (fun ht => ⟨rfl, rfl, ht.next, hp⟩) (fun hp => ⟨hseq, hstop, hp.next⟩)
  have hs₂ := SegmentList.get?_update_self
    (t := { s with seq := seq, length := len, prev := prev }) hs
  have hs₂' := SegmentList.get?_update_self
    (t := { s' with seq := τ seq, length := len, prev := prev' }) hs'
  refine (hF₂.mirror.seg hp).bind ?_
  rintro p p' ⟨hpp, hget, -⟩
  have hnext : m₁.Ahead p.next := (hF₂.mirror.inPlay_of_ahead ha hget).next
  rw [SegmentList.modify_of_get? hs₂, SegmentList.modify_of_get? hs₂', bind_ok, bind_ok]
  have h₃ := hF₂.finish hs₂ hs₂' (t := { s with
      seq := seq, length := len, prev := prev, next := p.next }) (v := { s' with
      seq := τ seq, length := len, prev := prev', next := p'.next })
    ⟨rfl, rfl, hpp.next, hp⟩ ⟨hseq, hstop, hnext⟩
  refine (h₃.setNext (hg₁.linked hp) hi₁ (m₁.ahead_add i j)).bind ?_
  intro l₄ l₄' h₄
  refine (h₄.seg hi₁).bind ?_
  rintro t t' ⟨htt, -, -⟩
  by_cases hend : t.next = -1
  · rw [if_pos hend, if_pos ((h₄.end_iff htt.next).mp hend)]
    exact ⟨_, hgm, h₄.withTail hi₁, hi₁, m₁.ahead_add i j⟩
  · rw [if_neg hend, if_neg (mt (h₄.end_iff htt.next).mpr hend)]
    exact ⟨_, hgm, h₄, hi₁, m₁.ahead_add i j⟩

theorem insertAtTail (h : Mirror τ C m l l') {seq len : Nat} (hseq : C seq)
    (hstop : C (seq + len)) :
    Sim (Lands τ C m) (l.insertAtTail seq len) (l'.insertAtTail (τ seq) len) := by
  obtain ⟨m₁, i, j, l₁, l₁', hi, hj, hg, hF⟩ := h.fetch
  obtain ⟨s, hs⟩ := hF.left
  obtain ⟨s', hs'⟩ := hF.right
  have hi₁ := m₁.linked_add i j
  unfold SegmentList.insertAtTail
  rw [hi, hj]
  dsimp only
  rw [SegmentList.modify_of_get? hs, SegmentList.modify_of_get? hs', bind_ok, bind_ok]
  have h₂ := hF.finish hs hs' (t := { s with
      seq := seq, length := len, next := -1, prev := l₁.tail }) (v := { s' with
      seq := τ seq, length := len, next := -1, prev := l₁'.tail })
    ⟨rfl, rfl, .inl ⟨rfl, rfl⟩, hF.mirror.tail⟩ ⟨hseq, hstop, .inl rfl⟩
  refine (h₂.setNext h₂.tail hi₁ (m₁.ahead_add i j)).bind ?_
  intro l₃ l₃' h₃
  exact ⟨_, hg.trans (m₁.grows_add i j), h₃.withTail hi₁, hi₁, m₁.ahead_add i j⟩

theorem linkBack (h : Mirror τ C m l l') {node node' a b : Int} (hn : m.Linked node node')
    (hab : m.Linked a b) : Sim (Mirror τ C m) (l.linkBack node a) (l'.linkBack node' b) := by
  unfold SegmentList.linkBack
  by_cases hend : node = -1
  · rw [if_neg (not_not.mpr hend), if_neg (not_not.mpr ((h.end_iff hn).mp hend))]
    exact h
  · rw [if_pos hend, if_pos (mt (h.end_iff hn).mpr hend)]
    exact h.setPrev hn hab

theorem setLength (h : Mirror τ C m l l') {i j : Int} (hij : m.Linked i j) {f : Nat → Nat}
    (hf : ∀ s, l.get? i = some s → InPlay C m s → C (s.seq + f s.length)) :
    Sim (Mirror τ C m) (l.modify i (fun s => { s with length := f s.length }))
      (l'.modify j (fun s => { s with length := f s.length })) := by
  refine h.modify hij ?_ ?_
  · intro s s' _ ht
    exact ⟨ht.seq, congrArg f ht.length, ht.next, ht.prev⟩
  · intro s hs _ hp
    exact ⟨hp.seq, hf s hs hp, hp.next⟩

theorem mergeNext (h : Mirror τ C m l l') {idx idx' next next' : Int} {newLen : Nat}
    (hi : m.Linked idx idx') (hn : m.Linked next next') (ha : m.Ahead next)
    (hlen : ∀ s, l.get? idx = some s → C (s.seq + newLen)) :
    Sim (fun x y => Mirror τ C m x.2 y.2 ∧ m.Linked x.1 y.1 ∧ m.Ahead x.1)
      (l.mergeNext idx next newLen) (l'.mergeNext idx' next' newLen) := by
  unfold SegmentList.mergeNext
  refine (h.setLength hi (f := fun _ => newLen) (fun s hs _ => hlen s hs)).bind ?_
  intro l₁ l₁' h₁
  refine (h₁.seg hn).bind ?_
  rintro freed freed' ⟨hff, hget, -⟩
  have hnext := (h₁.inPlay_of_ahead ha hget).next
  refine (h₁.setNext hi hff.next hnext).bind ?_
  intro l₂ l₂' h₂
  refine (h₂.linkBack hff.next hi).bind ?_
  intro l₃ l₃' h₃
  refine (h₃.removeNode hn).bind ?_
  intro l₄ l₄' h₄
  exact ⟨h₄, hff.next, hnext⟩

end Mirror

/-! ## Merging and inserting segments -/

variable (hτ : Recoding 32 τ C)
include hτ

/-- The end of a twin is recoded too. -/
theorem Twin.stop {s s' : Segment} (h : Twin τ m s s') : s'.stop = τ s.stop := by
  unfold Segment.stop
  rw [h.seq, h.length, hτ.add]

theorem InPlay.end_mem {s : Segment} (h : InPlay C m s) : C s.stop := hτ.stop h.stop

namespace Mirror

theorem mergePart (h : Mirror τ C m l l') {idx idx' next next' : Int} {s : Segment}
    (hi : m.Linked idx idx') (hn : m.Linked next next')
    (hs : l.get? idx = some s) (hlen : u16Max ≥ s.length → C (s.seq + u16Max)) :
    Sim (Mirror τ C m) (l.mergePart idx next s.length) (l'.mergePart idx' next' s.length) := by
  unfold SegmentList.mergePart
  refine (sim_checkedSub _ _).bind ?_
  rintro maxLen _ ⟨rfl, hle, hmax⟩
  refine (h.setLength hi (f := fun n => n + maxLen) ?_).bind ?_
  · intro t ht _
    rw [hs] at ht
    cases ht
    have := hlen hle
    rwa [hmax, Nat.add_sub_cancel' hle]
  intro l₁ l₁' h₁
  refine (h₁.seg hn).bind ?_
  rintro n n' ⟨hnn, hget, -⟩
  rw [hnn.length]
  refine (sim_checkedSub _ _).bind ?_
  rintro rest _ ⟨rfl, hle', hrest⟩
  refine h₁.modify hn ?_ ?_
  · intro t t' _ ht
    exact ⟨by dsimp only; rw [ht.seq, hτ.add], rfl, ht.next, ht.prev⟩
  · intro t ht _ hp
    rw [hget] at ht
    cases ht
    refine ⟨hτ.stop (hτ.take hp.seq hp.stop hle'), ?_, hp.next⟩
    rw [hrest]
    exact hτ.drop hp.stop hle'

theorem mergeLoop : ∀ (fuel : Nat) {l l' : SegmentList} {idx idx' next next' : Int},
    Mirror τ C m l l' → m.Linked idx idx' → m.Ahead idx → m.Linked next next' → m.Ahead next →
    Sim (Mirror τ C m) (SegmentList.mergeLoop fuel l idx next)
      (SegmentList.mergeLoop fuel l' idx' next') := by
  intro fuel
  induction fuel with
  | zero =>
    intro l l' idx idx' next next' _ _ _ _ _
    exact trivial
  | succ fuel ih =>
    intro l l' idx idx' next next' h hi hai hn han
    unfold SegmentList.mergeLoop
    by_cases hend : next = -1
    · rw [if_pos hend, if_pos ((h.end_iff hn).mp hend)]
      exact h
    rw [if_neg hend, if_neg (mt (h.end_iff hn).mpr hend)]
    refine (h.seg hi).bind ?_
    rintro s s' ⟨hss, hs, -⟩
    refine (h.seg hn).bind ?_
    rintro n n' ⟨hnn, hget, -⟩
    have hps := h.inPlay_of_ahead hai hs
    have hpn := h.inPlay_of_ahead han hget
    have hstop := hps.end_mem hτ
    rw [hss.stop hτ, hnn.seq]
    by_cases htouch : s.stop ≥ n.seq
    · rw [if_pos htouch, if_pos ((hτ.le_iff hpn.seq hstop).mpr htouch),
        hτ.checkedSub_eq hstop hpn.seq, checkedSub_of_le htouch, bind_ok, bind_ok, hnn.length,
        hss.length]
      refine (sim_checkedSub _ _).bind ?_
      rintro mergeLen _ ⟨rfl, hover, hmerge⟩
      have hjoin : C (s.seq + (mergeLen + s.length)) := by
        rw [hmerge]
        exact hτ.join hps.stop hpn.stop htouch hover
      by_cases hfit : mergeLen + s.length ≤ u16Max
      · rw [if_pos hfit, if_pos hfit]
        refine (h.mergeNext hi hn han ?_).bind ?_
        · intro t ht
          rw [hs] at ht
          cases ht
          exact hjoin
        rintro ⟨next₁, l₁⟩ ⟨next₁', l₁'⟩ ⟨h₁, hn₁, han₁⟩
        exact ih h₁ hi hai hn₁ han₁
      · rw [if_neg hfit, if_neg hfit]
        refine h.mergePart hτ hi hn hs ?_
        intro hle
        exact hτ.take hps.seq hjoin (by omega)
    · rw [if_neg htouch, if_neg (mt (hτ.le_iff hpn.seq hstop).mp htouch)]
      exact ih h hi hai hn han

theorem mergeAtIdx (fuel : Nat) (h : Mirror τ C m l l') {idx idx' : Int} (hi : m.Linked idx idx')
    (ha : m.Ahead idx) :
    Sim (Mirror τ C m) (l.mergeAtIdx fuel idx) (l'.mergeAtIdx fuel idx') := by
  unfold SegmentList.mergeAtIdx
  refine (h.seg hi).bind ?_
  rintro s s' ⟨hss, hs, -⟩
  exact mergeLoop hτ fuel h hi ha hss.next (h.inPlay_of_ahead ha hs).next

theorem extend (h : Mirror τ C m l l') {idx idx' : Int} {s : Segment} {seq len : Nat}
    (hi : m.Linked idx idx') (ha : m.Ahead idx) (hs : l.get? idx = some s) (hseq : s.stop = seq)
    (hC : C seq) (hstop : C (seq + len)) :
    Sim (Lands τ C m) (l.extend idx s.length seq len) (l'.extend idx' s.length (τ seq) len) := by
  have hp := h.inPlay_of_ahead ha hs
  have happ : C (s.seq + (s.length + len)) := hτ.append hp.stop hseq hstop
  unfold SegmentList.extend
  by_cases hfit : s.length + len ≤ u16Max
  · rw [if_pos hfit, if_pos hfit]
    refine (h.setLength hi (f := fun _ => s.length + len) ?_).bind ?_
    · intro t ht _
      rw [hs] at ht
      cases ht
      exact happ
    intro l₁ l₁' h₁
    exact ⟨m, .refl m, h₁, hi, ha⟩
  · rw [if_neg hfit, if_neg hfit]
    refine (sim_checkedSub _ _).bind ?_
    rintro maxLen _ ⟨rfl, hle, hmax⟩
    refine (h.setLength hi (f := fun n => n + maxLen) ?_).bind ?_
    · intro t ht _
      rw [hs] at ht
      cases ht
      exact hτ.take hp.seq happ (by omega)
    intro l₁ l₁' h₁
    refine (sim_checkedSub _ _).bind ?_
    rintro lenNew _ ⟨rfl, hle', hnew⟩
    rw [hτ.add]
    have hC₁ : C (wrappingAdd 32 seq maxLen) := hτ.stop (hτ.take hC hstop hle')
    have hstop₁ : C (wrappingAdd 32 seq maxLen + lenNew) := by
      rw [hnew]
      exact hτ.drop hstop hle'
    refine (h₁.insertAfterNode hi ha hC₁ hstop₁).bind ?_
    rintro ⟨_, l₂⟩ ⟨_, l₂'⟩ ⟨m₂, hg, h₂, -, -⟩
    exact ⟨m₂, hg, h₂, hg.linked hi, hg.ahead ha⟩

theorem stretch (h : Mirror τ C m l l') {idx idx' : Int} {s : Segment} {newEnd : Nat}
    (hi : m.Linked idx idx') (ha : m.Ahead idx) (hs : l.get? idx = some s) (hend : C newEnd) :
    Sim (Lands τ C m) (l.stretch idx s.seq newEnd) (l'.stretch idx' (τ s.seq) (τ newEnd)) := by
  have hp := h.inPlay_of_ahead ha hs
  unfold SegmentList.stretch
  rw [hτ.checkedSub_eq hend hp.seq]
  refine (sim_checkedSub _ _).bind ?_
  rintro extent _ ⟨rfl, hle, hextent⟩
  refine (h.setLength hi (f := fun _ => truncate 16 extent) ?_).bind ?_
  · intro t ht _
    rw [hs] at ht
    cases ht
    refine hτ.upTo hp.seq hend hle ?_
    rw [← hextent]
    exact Nat.mod_le _ _
  intro l₁ l₁' h₁
  exact ⟨m, .refl m, h₁, hi, ha⟩

theorem walk {seq len : Nat} (hC : C seq) (hstop : C (seq + len)) :
    ∀ (fuel : Nat) {l l' : SegmentList} {idx idx' : Int}, Mirror τ C m l l' → m.Linked idx idx' →
    m.Ahead idx → Sim (Lands τ C m) (SegmentList.walk fuel l idx seq len)
      (SegmentList.walk fuel l' idx' (τ seq) len) := by
  intro fuel
  induction fuel with
  | zero =>
    intro l l' idx idx' _ _ _
    exact trivial
  | succ fuel ih =>
    intro l l' idx idx' h hi ha
    unfold SegmentList.walk
    by_cases hend : idx = -1
    · rw [if_pos hend, if_pos ((h.end_iff hi).mp hend)]
      exact ⟨m, .refl m, h, .inl ⟨rfl, rfl⟩, .inl rfl⟩
    rw [if_neg hend, if_neg (mt (h.end_iff hi).mpr hend)]
    refine (h.seg hi).bind ?_
    rintro s s' ⟨hss, hs, -⟩
    have hp := h.inPlay_of_ahead ha hs
    have hend := hτ.stop hstop
    rw [hss.stop hτ, hss.seq, hss.length, hτ.add]
    by_cases hat : s.stop = seq
    · rw [if_pos hat, if_pos (congrArg τ hat)]
      exact h.extend hτ hi ha hs hat hC hstop
    rw [if_neg hat, if_neg (mt (hτ.eq_iff (hp.end_mem hτ) hC).mp hat)]
    by_cases hbefore : s.seq ≥ wrappingAdd 32 seq len
    · rw [if_pos hbefore, if_pos ((hτ.le_iff hend hp.seq).mpr hbefore)]
      exact h.insertBeforeNode hi ha hC hstop
    rw [if_neg hbefore, if_neg (mt (hτ.le_iff hend hp.seq).mp hbefore)]
    by_cases hover : s.seq ≤ seq
    · rw [if_pos hover, if_pos ((hτ.le_iff hp.seq hC).mpr hover),
        hτ.max_eq (hp.end_mem hτ) hend]
      refine h.stretch hτ hi ha hs ?_
      rcases Nat.le_total s.stop (wrappingAdd 32 seq len) with hle | hle
      · rw [Nat.max_eq_right hle]
        exact hend
      · rw [Nat.max_eq_left hle]
        exact hp.end_mem hτ
    · rw [if_neg hover, if_neg (mt (hτ.le_iff hp.seq hC).mp hover)]
      exact ih h hss.next hp.next

theorem insertSegment (fuel : Nat) (h : Mirror τ C m l l') {seq len : Nat} (hC : C seq)
    (hstop : C (seq + len)) :
    Sim (fun x y => ∃ i j, x.1 = some i ∧ y.1 = some j ∧ Lands τ C m (i, x.2) (j, y.2))
      (l.insertSegment fuel seq len) (l'.insertSegment fuel (τ seq) len) := by
  unfold SegmentList.insertSegment
  by_cases hempty : l.head = -1
  · rw [if_pos hempty, if_pos ((h.end_iff h.head).mp hempty)]
    refine (h.insertBeforeNode (.inl ⟨rfl, rfl⟩) (.inl rfl) hC hstop).bind ?_
    rintro ⟨i, l₁⟩ ⟨j, l₁'⟩ ⟨m₁, hg, h₁, hij, hi⟩
    exact ⟨i, j, rfl, rfl, m₁, hg, (h₁.withHead hij hi).withTail hij, hij, hi⟩
  rw [if_neg hempty, if_neg (mt (h.end_iff h.head).mpr hempty)]
  refine (walk hτ hC hstop fuel h h.head h.front).bind ?_
  rintro ⟨i, l₁⟩ ⟨j, l₁'⟩ ⟨m₁, hg, h₁, hij, hi⟩
  dsimp only at h₁ hij hi ⊢
  by_cases hend : i = -1
  · rw [if_pos hend, if_pos ((h₁.end_iff hij).mp hend)]
    refine (h₁.insertAtTail hC hstop).bind ?_
    rintro ⟨i', l₂⟩ ⟨j', l₂'⟩ ⟨m₂, hg₂, h₂⟩
    exact ⟨i', j', rfl, rfl, m₂, hg.trans hg₂, h₂⟩
  · rw [if_neg hend, if_neg (mt (h₁.end_iff hij).mpr hend)]
    refine (h₁.mergeAtIdx hτ fuel hij hi).bind ?_
    intro l₂ l₂' h₂
    exact ⟨i, j, rfl, rfl, m₁, hg, h₂, hij, hi⟩

/-! ## Consuming and clearing -/

omit hτ in
theorem removeHead (h : Mirror τ C m l l') :
    Sim (Mirror τ C m) l.removeHead l'.removeHead := by
  unfold SegmentList.removeHead
  refine (h.seg h.head).bind ?_
  rintro s s' ⟨hss, hs, -⟩
  exact (h.withHead hss.next (h.inPlay_of_ahead h.front hs).next).removeNode h.head

theorem settleHead (fuel : Nat) (h : Mirror τ C m l l') (left : Nat) :
    Sim (Mirror τ C m) (l.settleHead fuel left) (l'.settleHead fuel left) := by
  unfold SegmentList.settleHead
  by_cases hleft : left = 0
  · rw [if_pos hleft, if_pos hleft]
    exact h.removeHead
  · rw [if_neg hleft, if_neg hleft]
    exact h.mergeAtIdx hτ fuel h.head h.front

theorem consumeHeadData (fuel : Nat) (h : Mirror τ C m l l') {seq consumed : Nat} (hC : C seq) :
    Sim (fun x y => x.1 = y.1 ∧ Mirror τ C m x.2 y.2) (l.consumeHeadData fuel seq consumed)
      (l'.consumeHeadData fuel (τ seq) consumed) := by
  unfold SegmentList.consumeHeadData
  refine (h.seg h.head).bind ?_
  rintro s s' ⟨hss, hs, -⟩
  have hp := h.inPlay_of_ahead h.front hs
  rw [hss.seq, hss.length]
  by_cases hseq : s.seq = seq
  · rw [if_neg (not_not.mpr hseq), if_neg (not_not.mpr (congrArg τ hseq))]
    dsimp only
    have hle : min consumed s.length ≤ s.length := Nat.min_le_right _ _
    generalize min consumed s.length = consume at hle ⊢
    refine (h.modify h.head ?_ ?_).bind ?_
    · intro t t' _ ht
      refine ⟨?_, ?_, ht.next, ht.prev⟩
      · dsimp only
        rw [ht.seq, hτ.add]
      · dsimp only
        rw [ht.length]
    · intro t ht _ hpt
      rw [hs] at ht
      cases ht
      exact ⟨hτ.stop (hτ.take hp.seq hp.stop hle), hτ.drop hp.stop hle, hp.next⟩
    intro l₁ l₁' h₁
    refine (h₁.settleHead hτ fuel _).bind ?_
    intro l₂ l₂' h₂
    exact ⟨rfl, h₂⟩
  · rw [if_pos hseq, if_pos (mt (hτ.eq_iff hp.seq hC).mp hseq)]
    exact ⟨rfl, h⟩

omit hτ in
theorem clearLoop : ∀ (fuel : Nat) {l l' : SegmentList} {idx idx' : Int}, Mirror τ C m l l' →
    m.Linked idx idx' →
    Sim (Mirror τ C m) (SegmentList.clearLoop fuel l idx) (SegmentList.clearLoop fuel l' idx') := by
  intro fuel
  induction fuel with
  | zero =>
    intro l l' idx idx' _ _
    exact trivial
  | succ fuel ih =>
    intro l l' idx idx' h hi
    unfold SegmentList.clearLoop
    by_cases hend : idx = -1
    · rw [if_pos hend, if_pos ((h.end_iff hi).mp hend)]
      exact h
    rw [if_neg hend, if_neg (mt (h.end_iff hi).mpr hend)]
    refine (h.seg hi).bind ?_
    rintro s s' ⟨hss, -, -⟩
    refine (h.removeNode hi).bind ?_
    intro l₁ l₁' h₁
    exact ih h₁ hss.next

omit hτ in
theorem clear (fuel : Nat) (h : Mirror τ C m l l') :
    Sim (Mirror τ C m) (l.clear fuel) (l'.clear fuel) := by
  unfold SegmentList.clear
  refine (clearLoop fuel h h.head).bind ?_
  intro l₁ l₁' h₁
  exact (h₁.withHead (.inl ⟨rfl, rfl⟩) (.inl rfl)).withTail (.inl ⟨rfl, rfl⟩)

omit hτ in
theorem oneSegment (h : Mirror τ C m l l') : Sim Eq l.oneSegment l'.oneSegment := by
  unfold SegmentList.oneSegment
  by_cases hempty : l.head = -1
  · rw [if_pos hempty, if_pos ((h.end_iff h.head).mp hempty)]
    exact rfl
  · rw [if_neg hempty, if_neg (mt (h.end_iff h.head).mpr hempty)]
    refine (h.seg h.head).bind ?_
    rintro s s' ⟨hss, -, -⟩
    have := h.end_iff hss.next
    show (s.next == -1) = (s'.next == -1)
    rw [Bool.eq_iff_iff, beq_iff_eq, beq_iff_eq, this]

omit hτ in
theorem isHead_eq (h : Mirror τ C m l l') {i j : Int} (hij : m.Linked i j) :
    l.isHead i = l'.isHead j := by
  unfold SegmentList.isHead
  rw [Bool.eq_iff_iff, beq_iff_eq, beq_iff_eq, h.eq_iff h.head hij]

end Mirror

end

end NetBricks.State
