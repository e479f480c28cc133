import NetBricks.Operators.RestoreHeader

/-!
# `group_by` hands packets over intact

Between the cycle in which a packet is grouped and the one in which the consumer of
its group gets it, the packet is an mbuf in a queue; where its header is lies in the
metadata slots of the mbuf (`Kept`). `Handing` relates the queues and the memory to one
list of packets for each group, as they were seen by the group function: the mbufs of
the list are what is in the queue, each has its packet in its slots, and no mbuf is
twice in the lists. A cycle of the producer adds the packets of a batch to the lists
(`Handing.execute`), and a cycle of a consumer takes its packets from the front of one
(`Handing.consume`).

`groupBy_hands_over` is the law for whole runs, with the producer's and the consumers'
cycles in any order. The rest of the world keeps to what holds for mbufs in general:
an mbuf that is received is not one that is in a queue (`Fresh`), addresses are words
and not null, and the private area is there (`GroupBy.Ready`).
-/

namespace NetBricks.Operators

open Lib
open Lib.Outcome
open Interface
open Queues

variable {σ : Type}

/-! ## The memory of other mbufs -/

/-- From `w₀` to `w` only mbufs received on the way were touched, and the pipeline
holds some of those. -/
def Touched (w₀ w : World σ) (held : List Ptr) : Prop :=
  ∃ new, w.received = w₀.received ++ new ∧ held.Sublist new ∧
    ∀ ptr, ptr ∉ new → w.mem ptr = w₀.mem ptr

theorem touched_self (w : World σ) : Touched w w [] :=
  ⟨[], (List.append_nil _).symm, List.Sublist.refl _, fun _ _ => rfl⟩

theorem store_of_not_mem {frames : List (Ptr × MBuf)} {ptr : Ptr} :
    ∀ {mem : Mem}, ptr ∉ frames.map (·.1) → World.store mem frames ptr = mem ptr := by
  induction frames with
  | nil => intro mem _; rfl
  | cons f frames ih =>
    intro mem h
    rw [List.map_cons, List.mem_cons, not_or] at h
    rw [World.store, List.foldl_cons]
    exact (ih h.2).trans (Function.update_of_ne h.1 _ _)

theorem sublist_select (keep : Bool) : ∀ (verdicts : List Bool) (pkts : List Ptr),
    (PacketBatch.select keep verdicts pkts).Sublist pkts := by
  intro verdicts
  induction verdicts with
  | nil => intro pkts; cases pkts <;> exact List.nil_sublist _
  | cons v verdicts ih =>
    intro pkts
    cases pkts with
    | nil => exact List.nil_sublist _
    | cons pkt pkts =>
      rw [PacketBatch.select]
      split
      · exact (ih pkts).cons_cons pkt
      · exact (ih pkts).cons pkt

theorem ledger_touched (w₀ : World σ) : Ledger (Touched w₀) where
  recv := by
    rintro w w' queue room pkts ⟨new, hreceived, -, hmem⟩ hres
    unfold World.recv at hres
    split at hres
    · cases hres
      exact ⟨new, hreceived, List.nil_sublist _, hmem⟩
    · cases hres
    · cases hres
      refine ⟨new ++ _, ?_, List.sublist_append_right new _, fun ptr hptr => ?_⟩
      · rw [← List.append_assoc, ← hreceived]
      · rw [List.mem_append, not_or] at hptr
        exact (store_of_not_mem hptr.2).trans (hmem ptr hptr.1)
  touch := by
    rintro w held ptr ⟨new, hreceived, hheld, hmem⟩ hptr m s
    refine ⟨new, hreceived, hheld, fun ptr' hptr' => ?_⟩
    have hne : ptr' ≠ ptr := fun h => hptr' (h ▸ hheld.subset hptr)
    exact (Function.update_of_ne hne _ _).trans (hmem ptr' hptr')
  state := fun h _ => h
  drop := by
    rintro w held verdicts ⟨new, hreceived, hheld, hmem⟩ _
    exact ⟨new, hreceived, (sublist_select true verdicts held).trans hheld, hmem⟩

/-! ## Saving what the group function saw -/

/-- The packet can be restored from its mbuf: the header that was saved there and the metadata
are still those that the group function has seen. -/
def Kept (size : Nat) (m : MBuf) (x : Seen) : Prop :=
  restoreSavedHeader x.packet.mbuf m = some x.packet ∧ readMetadata m size = .ok x.metadata

/-- The loop of the producer leaves every packet in its mbuf. -/
theorem watch_spec {view : View} {f : GroupFn σ} {size : Nat}
    (hview : ∀ mem ptr, Shows ptr (view mem ptr)) :
    ∀ {pkts : List Ptr} {w w' : World σ} {seen : List (Nat × Seen)}, pkts.Nodup →
      (∀ ptr ∈ pkts, (w.mem ptr).Slotted) →
      (∀ x ∈ seen, 0 < x.2.packet.header ∧ x.2.packet.header < 2 ^ 64) →
      watch view f size pkts w = .ok (seen, w') →
      assign view f pkts w = .ok (seen.map (·.1), w') ∧ seen.map (·.2.packet.mbuf) = pkts ∧
        (∀ ptr, ptr ∉ pkts → w'.mem ptr = w.mem ptr) ∧
        ∀ x ∈ seen, Kept size (w'.mem x.2.packet.mbuf) x.2 := by
  intro pkts
  induction pkts with
  | nil =>
    intro w w' seen _ _ _ h
    cases h
    exact ⟨rfl, rfl, fun _ _ => rfl, fun _ hx => absurd hx List.not_mem_nil⟩
  | cons ptr pkts ih =>
    intro w w' seen hnodup hslots haddr h
    rw [watch, bind_eq_ok] at h
    obtain ⟨p, hp, h⟩ := h
    rw [bind_eq_ok] at h
    obtain ⟨metadata, hmeta, h⟩ := h
    dsimp only at h
    rw [bind_eq_ok] at h
    obtain ⟨⟨rest, w₁⟩, hrest, h⟩ := h
    cases h
    have hmbuf : p.mbuf = ptr := (hview w.mem ptr).mbuf_eq hp
    obtain ⟨hnotin, hnodup⟩ := List.nodup_cons.mp hnodup
    -- saving this packet leaves the others alone
    have hother : ∀ ptr', ptr' ≠ ptr →
        (saved p (f p (w.mem p.mbuf) w.state).2 w).mem ptr' = w.mem ptr' := by
      intro ptr' hne
      exact Function.update_of_ne (hmbuf ▸ hne) _ _
    obtain ⟨hassign, hmbufs, hframe, hkept⟩ := ih hnodup
      (fun ptr' hptr' => by
        rw [hother ptr' fun h => hnotin (h ▸ hptr')]
        exact hslots ptr' (List.mem_cons_of_mem ptr hptr'))
      (fun x hx => haddr x (List.mem_cons_of_mem _ hx)) hrest
    refine ⟨?_, ?_, ?_, ?_⟩
    · rw [assign, hp, bind_ok]
      dsimp only
      rw [hassign, bind_ok, List.map_cons]
    · rw [List.map_cons, hmbufs]
      exact congrArg (· :: pkts) hmbuf
    · intro ptr' hptr'
      rw [List.mem_cons, not_or] at hptr'
      rw [hframe ptr' hptr'.2, hother ptr' hptr'.1]
    · intro x hx
      rcases List.mem_cons.mp hx with rfl | hx
      · obtain ⟨hpos, hlt⟩ := haddr _ List.mem_cons_self
        have hslot : (w.mem p.mbuf).Slotted := hslots p.mbuf (hmbuf ▸ List.mem_cons_self)
        have hmem : w₁.mem p.mbuf = p.saveHeaderAndOffset (w.mem p.mbuf) := by
          rw [hframe p.mbuf (hmbuf ▸ hnotin)]
          exact Function.update_self _ _ _
        show Kept size (w₁.mem p.mbuf) _
        rw [hmem]
        exact ⟨restoreSavedHeader_saveHeaderAndOffset hslot hpos hlt,
          (readMetadata_saveHeaderAndOffset hslot p size).trans hmeta⟩
      · exact hkept x hx

/-! ## The packets of a group -/

/-- The packets of a group, in the order they were seen. -/
def ofGroup (group : Nat) (seen : List (Nat × Seen)) : List Seen :=
  (seen.filter fun x => x.1 = group).map (·.2)

theorem members_eq_ofGroup (group : Nat) : ∀ seen : List (Nat × Seen),
    members group (seen.map (·.1)) (seen.map (·.2.packet.mbuf)) =
      (ofGroup group seen).map (·.packet.mbuf) := by
  intro seen
  induction seen with
  | nil => rfl
  | cons x seen ih =>
    rw [List.map_cons, List.map_cons, members, ih]
    by_cases hx : x.1 = group
    · rw [if_pos hx, ofGroup, ofGroup, List.filter_cons_of_pos (by simpa using hx)]
      rfl
    · rw [if_neg hx, ofGroup, ofGroup, List.filter_cons_of_neg (by simpa using hx)]

theorem mem_ofGroup {group : Nat} {seen : List (Nat × Seen)} {x : Seen} :
    x ∈ ofGroup group seen ↔ (group, x) ∈ seen := by
  rw [ofGroup, List.mem_map]
  constructor
  · rintro ⟨⟨i, y⟩, hy, rfl⟩
    rw [List.mem_filter] at hy
    obtain rfl : i = group := by simpa using hy.2
    exact hy.1
  · intro h
    exact ⟨(group, x), List.mem_filter.mpr ⟨h, by simp⟩, rfl⟩

theorem sublist_ofGroup (group : Nat) (seen : List (Nat × Seen)) :
    ((ofGroup group seen).map (·.packet.mbuf)).Sublist (seen.map (·.2.packet.mbuf)) := by
  rw [ofGroup, List.map_map]
  exact List.filter_sublist.map _

/-! ## The invariant -/

/-- The lists of packets that are on their way, one for each group. -/
abbrev Lists := Nat → List Seen

def mbufsOf (items : List Seen) : List Ptr := items.map (·.packet.mbuf)

/-- The invariant of a group-by between two cycles, with `lists` the packets on their way to
each consumer. Nothing is left in the batches at either end (`parent`, `empty`), no call on a
queue is under way (`quiet`), and each queue has the mbufs of its list (`queued`). The mbufs are
all different (`nodup`, `disjoint`), so that writing into one spoils no other, and each still
has the header and the metadata of its packet (`kept`). -/
structure Handing (n size : Nat) (s : GroupBy σ × World σ) (lists : Lists) : Prop where
  parent : s.1.producer.parent.Carries n []
  quiet : ∀ q ∈ s.1.producer.producers, Quiet q
  slots : ∀ q ∈ s.1.producer.producers, q.slots = GroupBy.defaultQueueSize
  queued : ∀ i q, s.1.producer.producers[i]? = some q → readable q = mbufsOf (lists i)
  beyond : ∀ i, s.1.producer.producers.length ≤ i → lists i = []
  consumers : s.1.consumers.length = s.1.producer.producers.length
  empty : ∀ r ∈ s.1.consumers, r.parent.Holds GroupBy.batchSize []
  nodup : ∀ i, (mbufsOf (lists i)).Nodup
  disjoint : ∀ i j, i ≠ j → (mbufsOf (lists i)).Disjoint (mbufsOf (lists j))
  kept : ∀ i, ∀ x ∈ lists i, Kept size (s.2.mem x.packet.mbuf) x

/-- The mbufs received from `w` to `w₁` are distinct, and in no queue. -/
def Fresh (qs : List (MpscQueue Ptr)) (w w₁ : World σ) : Prop :=
  (w₁.received.drop w.received.length).Nodup ∧
    ∀ ptr ∈ w₁.received.drop w.received.length, ∀ q ∈ qs, ptr ∉ readable q

/-- What is asked of a cycle: it does not panic, an mbuf that is received is not in a
queue, and mbufs are as they are: with their private area, at addresses that are words
and not null. A consumer is one that exists. -/
def GroupBy.Ready (fuel size : Nat) (s : GroupBy σ × World σ) : GroupByOp → Prop
  | .execute => ∃ b w₁ seen w₂, s.1.producer.parent.act fuel s.2 = .ok (b, w₁) ∧
      watch b.view s.1.producer.groupFn size b.packets w₁ = .ok (seen, w₂) ∧
      (∀ x ∈ seen, x.1 < s.1.producer.producers.length) ∧
      Fresh s.1.producer.producers s.2 w₁ ∧ (∀ ptr ∈ b.packets, (w₁.mem ptr).Slotted) ∧
      ∀ x ∈ seen, 0 < x.2.packet.header ∧ x.2.packet.header < 2 ^ 64
  | .consume group _ => group < s.1.consumers.length

/-- The lists after a cycle of the producer: each packet is put at the end of the list
of its group, if there is room in its queue. -/
def Lists.group (lists : Lists) (seen : List (Nat × Seen)) : Lists := fun i =>
  lists i ++ (ofGroup i seen).take (GroupBy.defaultQueueSize - 1 - (lists i).length)

theorem room_of_quiet {α : Type} {q : MpscQueue α} (hquiet : Quiet q) :
    q.room = q.slots - 1 - (readable q).length := by
  obtain ⟨hreg, k, ct, pt, hcnt⟩ := hquiet
  rw [hcnt.slots_eq]
  exact Queued.room_eq ⟨hreg, rfl, ct, pt, hcnt⟩

/-- What a cycle of the producer did: the packets it has seen are distinct (`nodup`) and were in
no queue (`fresh`), each is in its mbuf (`kept`), and they are stored in the queues of their
groups as far as there was room (`queues`). What was in a queue is as it was, and so is its mbuf
(`frame`). -/
structure Grouped (n size : Nat) (s s' : GroupBy σ × World σ) (seen : List (Nat × Seen)) :
    Prop where
  parent : s'.1.producer.parent.Carries n []
  length : s'.1.producer.producers.length = s.1.producer.producers.length
  queues : ∀ i q', s'.1.producer.producers[i]? = some q' →
    ∃ q, s.1.producer.producers[i]? = some q ∧ Quiet q' ∧ q'.slots = q.slots ∧
      readable q' = readable q ++ ((ofGroup i seen).map (·.packet.mbuf)).take q.room
  consumers : s'.1.consumers = s.1.consumers
  below : ∀ x ∈ seen, x.1 < s.1.producer.producers.length
  nodup : (seen.map (·.2.packet.mbuf)).Nodup
  fresh : ∀ x ∈ seen, ∀ q ∈ s.1.producer.producers, x.2.packet.mbuf ∉ readable q
  frame : ∀ q ∈ s.1.producer.producers, ∀ ptr ∈ readable q, s'.2.mem ptr = s.2.mem ptr
  kept : ∀ x ∈ seen, Kept size (s'.2.mem x.2.packet.mbuf) x.2

theorem GroupBy.cycle_execute {n fuel size : Nat} {s : GroupBy σ × World σ}
    (hparent : s.1.producer.parent.Carries n []) (hquiet : ∀ q ∈ s.1.producer.producers, Quiet q)
    (hn : n < fuel) (hfuel : 7 ≤ fuel) (hready : GroupBy.Ready fuel size s .execute) :
    ∃ seen s', GroupBy.cycle fuel size s .execute = .ok (.grouped seen, s') ∧
      Grouped n size s s' seen := by
  obtain ⟨b, w₁, seen, w₂, hact, hwatch, hbelow, ⟨hnodup, hfresh⟩, hslots, haddr⟩ := hready
  -- the parent touches what it receives, and nothing else
  have hacted := Batch.Carries.act (ledger_touched s.2) hn hparent (touched_self s.2)
  rw [hact] at hacted
  obtain ⟨pkts, hb, new, hreceived, hsub, hmem₁⟩ := hacted
  obtain ⟨rfl, -, -, hview⟩ := hb.yields
  rw [show w₁.received = s.2.received ++ new from hreceived, List.drop_left] at hnodup hfresh
  have hpackets := hnodup.sublist hsub
  obtain ⟨hassign, hmbufs, hmem₂, hkept⟩ := watch_spec hview hpackets hslots haddr hwatch
  have hclass : s.1.producer.classify fuel s.2 = .ok (seen.map (·.1), b.packets, w₂) := by
    unfold GroupByProducer.classify
    rw [hact, bind_ok]
    dsimp only
    rw [hassign]
    rfl
  have hbelow' : ∀ i ∈ seen.map (·.1), i < s.1.producer.producers.length := by
    intro i hi
    obtain ⟨x, hx, rfl⟩ := List.mem_map.mp hi
    exact hbelow x hx
  obtain ⟨-, g', hrun, hparent', hkeep, hstored⟩ :=
    GroupByProducer.execute_stores hparent hn hfuel hquiet hclass hbelow'
  have hlen : g'.producers.length = s.1.producer.producers.length := by
    simpa only [List.length_map] using congrArg List.length hkeep
  refine ⟨seen, ({ s.1 with producer := g' }, w₂), ?_, hparent', hlen, ?_, rfl, hbelow,
    hmbufs ▸ hpackets, ?_, ?_, hkept⟩
  · unfold GroupBy.cycle GroupByProducer.watch
    dsimp only
    rw [hact, bind_ok]
    dsimp only
    rw [hwatch, bind_ok, bind_ok, hrun]
    rfl
  · intro i q' hq'
    have hi : i < s.1.producer.producers.length := hlen ▸ (List.getElem?_eq_some_iff.mp hq').1
    obtain ⟨q₁, hq₁, hquiet, hread⟩ := hstored i _ (List.getElem?_eq_getElem hi)
    obtain rfl : q₁ = q' := Option.some.inj (hq₁.symm.trans hq')
    have hslot := congrArg (·[i]?) hkeep
    rw [List.getElem?_map, List.getElem?_map, hq₁, List.getElem?_eq_getElem hi] at hslot
    rw [← hmbufs, members_eq_ofGroup] at hread
    exact ⟨_, List.getElem?_eq_getElem hi, hquiet, Option.some.inj hslot, hread⟩
  · intro x hx
    have hpkt : x.2.packet.mbuf ∈ b.packets := hmbufs ▸ List.mem_map_of_mem hx
    exact hfresh _ (hsub.subset hpkt)
  · intro q hq ptr hptr
    have hnew : ptr ∉ new := fun hnew => hfresh ptr hnew q hq hptr
    exact (hmem₂ ptr fun hpkt => hnew (hsub.subset hpkt)).trans (hmem₁ ptr hnew)

/-- The packets that a cycle of the producer adds to the list of a group. -/
def Lists.added (lists : Lists) (seen : List (Nat × Seen)) (i : Nat) : List Seen :=
  (ofGroup i seen).take (GroupBy.defaultQueueSize - 1 - (lists i).length)

theorem Lists.mem_added {lists : Lists} {seen : List (Nat × Seen)} {i : Nat} {x : Seen}
    (h : x ∈ lists.added seen i) : (i, x) ∈ seen :=
  mem_ofGroup.mp (List.mem_of_mem_take h)

theorem Lists.mbufsOf_group (lists : Lists) (seen : List (Nat × Seen)) (i : Nat) :
    mbufsOf (lists.group seen i) = mbufsOf (lists i) ++ mbufsOf (lists.added seen i) :=
  List.map_append

theorem Lists.sublist_added (lists : Lists) (seen : List (Nat × Seen)) (i : Nat) :
    (mbufsOf (lists.added seen i)).Sublist (seen.map (·.2.packet.mbuf)) :=
  ((List.take_sublist _ _).map _).trans (sublist_ofGroup i seen)

theorem Lists.added_disjoint {lists : Lists} {seen : List (Nat × Seen)} {i j : Nat} (hij : i ≠ j)
    (hnodup : (seen.map (·.2.packet.mbuf)).Nodup) :
    (mbufsOf (lists.added seen i)).Disjoint (mbufsOf (lists.added seen j)) := by
  intro ptr hi hj
  obtain ⟨x, hx, hxptr⟩ := List.mem_map.mp hi
  obtain ⟨y, hy, hyptr⟩ := List.mem_map.mp hj
  have hinj := List.inj_on_of_nodup_map hnodup (mem_added hx) (mem_added hy)
    (hxptr.trans hyptr.symm)
  exact hij (congrArg Prod.fst hinj)

/-- A packet that is on its way is in a queue. -/
theorem Handing.in_queue {n size : Nat} {s : GroupBy σ × World σ} {lists : Lists}
    (h : Handing n size s lists) {i : Nat} {ptr : Ptr} (hptr : ptr ∈ mbufsOf (lists i)) :
    ∃ q ∈ s.1.producer.producers, ptr ∈ readable q := by
  by_cases hi : i < s.1.producer.producers.length
  · rw [← h.queued i _ (List.getElem?_eq_getElem hi)] at hptr
    exact ⟨_, List.getElem_mem hi, hptr⟩
  · rw [h.beyond i (by omega)] at hptr
    exact absurd hptr List.not_mem_nil

/-- The packets on their way are not among those that are added. -/
theorem Handing.added_disjoint {n size : Nat} {s s' : GroupBy σ × World σ} {lists : Lists}
    {seen : List (Nat × Seen)} (h : Handing n size s lists) (hg : Grouped n size s s' seen)
    (i j : Nat) : (mbufsOf (lists i)).Disjoint (mbufsOf (lists.added seen j)) := by
  intro ptr hold hnew
  obtain ⟨q, hq, hptr⟩ := h.in_queue hold
  obtain ⟨x, hx, rfl⟩ := List.mem_map.mp hnew
  exact hg.fresh _ (Lists.mem_added hx) q hq hptr

theorem Handing.group {n size : Nat} {s s' : GroupBy σ × World σ} {lists : Lists}
    {seen : List (Nat × Seen)} (h : Handing n size s lists) (hg : Grouped n size s s' seen) :
    Handing n size s' (lists.group seen) := by
  have hqueue : ∀ q' ∈ s'.1.producer.producers,
      Quiet q' ∧ ∃ q ∈ s.1.producer.producers, q'.slots = q.slots := by
    intro q' hq'
    obtain ⟨i, hi⟩ := List.mem_iff_getElem?.mp hq'
    obtain ⟨q, hq, hquiet, hslot, -⟩ := hg.queues i q' hi
    exact ⟨hquiet, q, List.mem_of_getElem? hq, hslot⟩
  refine ⟨hg.parent, fun q' hq' => (hqueue q' hq').1, ?_, ?_, ?_, ?_, hg.consumers ▸ h.empty,
    ?_, ?_, ?_⟩
  · intro q' hq'
    obtain ⟨-, q, hq, hslot⟩ := hqueue q' hq'
    exact hslot.trans (h.slots q hq)
  · intro i q' hq'
    obtain ⟨q, hq, -, -, hread⟩ := hg.queues i q' hq'
    have hmem := List.mem_of_getElem? hq
    have hroom := room_of_quiet (h.quiet q hmem)
    rw [h.slots q hmem, h.queued i q hq, mbufsOf, List.length_map] at hroom
    rw [hread, h.queued i q hq, hroom, ← List.map_take, Lists.mbufsOf_group]
    rfl
  · intro i hi
    have hnone : ofGroup i seen = [] := by
      refine List.eq_nil_iff_forall_not_mem.mpr fun x hx => ?_
      have hbelow : i < _ := hg.below _ (mem_ofGroup.mp hx)
      have hlen := hg.length
      omega
    rw [Lists.group, h.beyond i (hg.length ▸ hi), hnone, List.take_nil, List.append_nil]
  · rw [hg.consumers, h.consumers, hg.length]
  · intro i
    rw [Lists.mbufsOf_group]
    exact (h.nodup i).append (hg.nodup.sublist (lists.sublist_added seen i))
      (h.added_disjoint hg i i)
  · intro i j hij
    rw [Lists.mbufsOf_group, Lists.mbufsOf_group, List.disjoint_append_left,
      List.disjoint_append_right, List.disjoint_append_right]
    exact ⟨⟨h.disjoint i j hij, h.added_disjoint hg i j⟩, (h.added_disjoint hg j i).symm,
      Lists.added_disjoint hij hg.nodup⟩
  · intro i x hx
    rcases List.mem_append.mp hx with hold | hnew
    · obtain ⟨q, hq, hptr⟩ := h.in_queue (List.mem_map_of_mem hold)
      rw [hg.frame q hq _ hptr]
      exact h.kept i x hold
    · exact hg.kept (i, x) (Lists.mem_added hnew)

theorem Handing.execute {n fuel size : Nat} {s : GroupBy σ × World σ} {lists : Lists}
    (h : Handing n size s lists) (hn : n < fuel) (hfuel : 7 ≤ fuel)
    (hready : GroupBy.Ready fuel size s .execute) :
    ∃ seen s', GroupBy.cycle fuel size s .execute = .ok (.grouped seen, s') ∧
      Handing n size s' (lists.group seen) := by
  obtain ⟨seen, s', hcycle, hg⟩ := GroupBy.cycle_execute h.parent h.quiet hn hfuel hready
  exact ⟨seen, s', hcycle, h.group hg⟩

/-! ## A cycle of a consumer -/

/-- `act` of a consumer takes mbufs from the front of the queue, as many as the batch
has room for. -/
theorem MpscReceive.act_spec {room fuel : Nat} {r : MpscReceive} (hr : r.parent.Holds room [])
    {q : MpscQueue Ptr} (hq : Quiet q) (hfuel : room + 4 ≤ fuel) (w : World σ) :
    ∃ r' q', r.act fuel q w = .ok (r', q', w) ∧ r'.parent.Holds room ((readable q).take room) ∧
      Quiet q' ∧ q'.slots = q.slots ∧ readable q' = (readable q).drop room := by
  obtain ⟨hreg, k, ct, pt, hcnt⟩ := hq
  obtain ⟨p, hfree, hp⟩ := hr.freePacketBatch w
  rw [World.free_nil] at hfree
  obtain ⟨v, hset, hlen, hcap⟩ := RawVec.setLen_capacity p.array
  rw [hp.room] at hlen hcap
  have hslice : v.toList.length = room := by rw [RawVec.length_toList, hlen]
  obtain ⟨q', hdeq, hreg', hread, ct', hcnt'⟩ := 
    hcnt.dequeue v.toList (show v.toList.length + 4 ≤ fuel by omega)
  rw [hslice] at hdeq hread
  -- the slice as it is afterwards
  have hwritten : ((readable q).take room ++ v.toList.drop (readable q).length).length = room := by
    rw [List.length_append, List.length_take, List.length_drop, hslice]
    omega
  have htake : ((readable q).take room ++ v.toList.drop (readable q).length).take
      (min room (readable q).length) = (readable q).take room := by
    rw [List.take_append_of_le_length (by rw [List.length_take]), List.take_of_length_le (by
      rw [List.length_take])]
  obtain ⟨v', hset', hlist, hcap'⟩ :=
    RawVec.setLen_write v (k := min room (readable q).length)
      (show ((readable q).take room ++ v.toList.drop (readable q).length).length ≤ _ by
        rw [hwritten, hcap]) (by rw [hwritten]; omega)
  rw [htake] at hlist
  refine ⟨{ parent := { p with array := v' }
            received := r.received + min room (readable q).length },
    q', ?_, ⟨hlist, hcap'.trans hcap, hp.scratch⟩, ⟨hreg' ▸ hreg, k, ct', pt, hcnt'⟩,
    hcnt'.slots_eq.trans hcnt.slots_eq.symm, hread⟩
  unfold MpscReceive.act
  rw [hfree, bind_ok]
  dsimp only
  rw [hset, bind_ok, hdeq, bind_ok]
  dsimp only
  rw [hset', bind_ok]

/-- `RestoreHeader` shows the packets that were saved. -/
theorem RestoreHeader.collect_spec {size room : Nat} {mem : Mem} {r : MpscReceive}
    {items : List Seen} (hr : r.parent.Holds room (mbufsOf items))
    (hkept : ∀ x ∈ items, Kept size (mem x.packet.mbuf) x) :
    ∀ {fuel idx : Nat}, idx ≤ items.length → items.length < idx + fuel →
      RestoreHeader.collect size mem r fuel idx = .ok (items.drop idx) := by
  have hlen : r.parent.array.len = items.length := by rw [hr.len, mbufsOf, List.length_map]
  intro fuel
  induction fuel with
  | zero =>
    intro idx hle hlt
    omega
  | succ fuel ih =>
    intro idx hle hlt
    unfold RestoreHeader.collect RestoreHeader.nextPayload MpscReceive.nextPayload
    by_cases hidx : idx < items.length
    · have hitem : items[idx] ∈ items := List.getElem_mem hidx
      obtain ⟨hrestore, hmeta⟩ := hkept _ hitem
      have hget : r.parent.array.get idx = .ok items[idx].packet.mbuf := by
        unfold RawVec.get
        rw [if_pos (by omega)]
        refine index_of_some ?_
        rw [← RawVec.getElem?_toList _ (by omega), hr.contents, mbufsOf, List.getElem?_map,
          List.getElem?_eq_getElem hidx]
        rfl
      rw [if_pos (by omega), hget, bind_ok, bind_ok, mapSome]
      show ((unwrapSaved (restoreSavedHeader items[idx].packet.mbuf
        (mem items[idx].packet.mbuf)) >>= _) >>= _) = _
      rw [hrestore, unwrapSaved, bind_ok, bind_ok]
      dsimp only
      rw [hmeta, bind_ok, ih (by omega) (by omega), bind_ok, List.drop_eq_getElem_cons hidx]
    · rw [if_neg (by omega), bind_ok, List.drop_of_length_le (by omega)]
      rfl

/-- The lists after a cycle of the consumer of `group`. -/
def Lists.take (lists : Lists) (group : Nat) : Lists :=
  Function.update lists group ((lists group).drop GroupBy.batchSize)

theorem Lists.sublist_take (lists : Lists) (group i : Nat) :
    (lists.take group i).Sublist (lists i) := by
  unfold Lists.take
  by_cases hi : i = group
  · rw [hi, Function.update_self]
    exact List.drop_sublist _ _
  · rw [Function.update_of_ne hi]

/-- The packets that are taken are none of those that stay. -/
theorem Handing.taken_disjoint {n size : Nat} {s : GroupBy σ × World σ} {lists : Lists}
    (h : Handing n size s lists) (group i : Nat) :
    (mbufsOf ((lists group).take GroupBy.batchSize)).Disjoint (mbufsOf (lists.take group i)) := by
  intro ptr htaken hstays
  have hptr : ptr ∈ mbufsOf (lists group) := ((List.take_sublist _ _).map _).subset htaken
  by_cases hi : i = group
  · have hnodup := h.nodup group
    rw [← List.take_append_drop GroupBy.batchSize (lists group), mbufsOf, List.map_append] at hnodup
    rw [hi, Lists.take, Function.update_self] at hstays
    exact (List.nodup_append.mp hnodup).2.2 ptr htaken ptr hstays rfl
  · have hmem := ((lists.sublist_take group i).map _).subset hstays
    exact h.disjoint group i (Ne.symm hi) hptr hmem

/-- What a cycle of the consumer of `group` did: it took the mbufs `taken` from its queue,
which is `q'` now, touched no others, and is left as `r'`. -/
structure Taken (group : Nat) (taken : List Ptr) (q' : MpscQueue Ptr) (r' : MpscReceive)
    (s s' : GroupBy σ × World σ) : Prop where
  state : s'.1 = { producer := { s.1.producer with
                     producers := s.1.producer.producers.set group q' }
                   consumers := s.1.consumers.set group r' }
  quiet : Quiet q'
  slots : q'.slots = GroupBy.defaultQueueSize
  empty : r'.parent.Holds GroupBy.batchSize []
  frame : ∀ ptr, ptr ∉ taken → s'.2.mem ptr = s.2.mem ptr

theorem Handing.cycle_consume {n fuel size group : Nat} {s : GroupBy σ × World σ} {lists : Lists}
    (h : Handing n size s lists) (hfuel : GroupBy.batchSize + 4 ≤ fuel)
    (hgroup : group < s.1.consumers.length) (use : Mem → Mem) :
    ∃ q' r' s', GroupBy.cycle fuel size s (.consume group use) =
        .ok (.yielded group ((lists group).take GroupBy.batchSize), s') ∧
      readable q' = mbufsOf ((lists group).drop GroupBy.batchSize) ∧
      Taken group (mbufsOf ((lists group).take GroupBy.batchSize)) q' r' s s' := by
  have hproducer : group < s.1.producer.producers.length := h.consumers ▸ hgroup
  have hr := List.getElem?_eq_getElem hgroup
  have hq := List.getElem?_eq_getElem hproducer
  have hqmem := List.getElem_mem hproducer
  obtain ⟨r₁, q₁, hact, hr₁, hquiet₁, hslots₁, hread₁⟩ :=
    MpscReceive.act_spec (h.empty _ (List.getElem_mem hgroup)) (h.quiet _ hqmem) hfuel s.2
  rw [h.queued group _ hq, mbufsOf, ← List.map_take] at hr₁
  rw [h.queued group _ hq, mbufsOf, ← List.map_drop] at hread₁
  have hkept : ∀ x ∈ (lists group).take GroupBy.batchSize,
      Kept size (s.2.mem x.packet.mbuf) x :=
    fun x hx => h.kept group x (List.mem_of_mem_take hx)
  have hcollect := RestoreHeader.collect_spec hr₁ hkept (Nat.zero_le _)
    (show _ < 0 + fuel by rw [List.length_take]; omega)
  rw [List.drop_zero] at hcollect
  generalize hmem : (fun ptr => if ptr ∈ r₁.parent.array.toList then use s.2.mem ptr
    else s.2.mem ptr : Mem) = mem
  obtain ⟨p₂, hdone, hp₂⟩ := hr₁.freePacketBatch { s.2 with mem := mem }
  refine ⟨q₁, { r₁ with parent := p₂ },
    ({ producer := { s.1.producer with producers := s.1.producer.producers.set group q₁ }
       consumers := s.1.consumers.set group { r₁ with parent := p₂ } },
      World.free { s.2 with mem := mem } (mbufsOf ((lists group).take GroupBy.batchSize))), ?_,
    hread₁, rfl, hquiet₁, hslots₁.trans (h.slots _ hqmem), hp₂, ?_⟩
  · unfold GroupBy.cycle GroupBy.consume
    dsimp only
    rw [index_of_some hr, bind_ok, index_of_some hq, bind_ok, hact, bind_ok]
    dsimp only
    rw [hcollect, bind_ok, hmem]
    unfold MpscReceive.done
    rw [hdone]
    rfl
  · intro ptr hptr
    show mem ptr = s.2.mem ptr
    rw [← hmem]
    dsimp only
    rw [hr₁.contents]
    exact if_neg hptr

theorem Handing.take {n size group : Nat} {s s' : GroupBy σ × World σ} {lists : Lists}
    {q' : MpscQueue Ptr} {r' : MpscReceive} (h : Handing n size s lists)
    (hgroup : group < s.1.consumers.length)
    (hread : readable q' = mbufsOf ((lists group).drop GroupBy.batchSize))
    (ht : Taken group (mbufsOf ((lists group).take GroupBy.batchSize)) q' r' s s') :
    Handing n size s' (lists.take group) := by
  have hproducer : group < s.1.producer.producers.length := h.consumers ▸ hgroup
  obtain ⟨g, w⟩ := s'
  obtain ⟨rfl, hquiet, hslots, hempty, hframe⟩ := ht
  refine ⟨h.parent, ?_, ?_, ?_, ?_, ?_, ?_, ?_, ?_, ?_⟩
  · intro q hq
    rcases List.mem_or_eq_of_mem_set hq with hq | rfl
    · exact h.quiet q hq
    · exact hquiet
  · intro q hq
    rcases List.mem_or_eq_of_mem_set hq with hq | rfl
    · exact h.slots q hq
    · exact hslots
  · intro i q hq
    dsimp only at hq
    unfold Lists.take
    by_cases hi : i = group
    · subst hi
      rw [List.getElem?_set_self hproducer] at hq
      rw [Function.update_self, ← Option.some.inj hq, hread]
    · rw [List.getElem?_set_ne (Ne.symm hi)] at hq
      rw [Function.update_of_ne hi]
      exact h.queued i q hq
  · intro i hi
    dsimp only at hi
    rw [List.length_set] at hi
    have hsub := lists.sublist_take group i
    rw [h.beyond i hi] at hsub
    exact List.sublist_nil.mp hsub
  · dsimp only
    rw [List.length_set, List.length_set]
    exact h.consumers
  · intro r hr
    rcases List.mem_or_eq_of_mem_set hr with hr | rfl
    · exact h.empty r hr
    · exact hempty
  · intro i
    exact (h.nodup i).sublist ((lists.sublist_take group i).map _)
  · intro i j hij ptr hi hj
    exact h.disjoint i j hij (((lists.sublist_take group i).map _).subset hi)
      (((lists.sublist_take group j).map _).subset hj)
  · intro i x hx
    have hstays : x.packet.mbuf ∉ mbufsOf ((lists group).take GroupBy.batchSize) :=
      fun htaken => h.taken_disjoint group i htaken (List.mem_map_of_mem hx)
    rw [hframe _ hstays]
    exact h.kept i x ((lists.sublist_take group i).subset hx)

theorem Handing.consume {n fuel size group : Nat} {s : GroupBy σ × World σ} {lists : Lists}
    (h : Handing n size s lists) (hfuel : GroupBy.batchSize + 4 ≤ fuel)
    (hgroup : group < s.1.consumers.length) (use : Mem → Mem) :
    ∃ s', GroupBy.cycle fuel size s (.consume group use) =
        .ok (.yielded group ((lists group).take GroupBy.batchSize), s') ∧
      Handing n size s' (lists.take group) := by
  obtain ⟨q', r', s', hcycle, hread, ht⟩ := h.cycle_consume hfuel hgroup use
  exact ⟨s', hcycle, h.take hgroup hread ht⟩

/-! ## Runs -/

/-- The cycles are those of lists, one for each group: a packet that is grouped goes to
the end of the list of its group, as the group function has seen it, if there is room;
a consumer is given the packets at the front of its list. -/
def Explained : Lists → List GroupByCycle → Prop
  | _, [] => True
  | lists, .grouped seen :: cycles => Explained (lists.group seen) cycles
  | lists, .yielded group items :: cycles =>
    items = (lists group).take GroupBy.batchSize ∧ Explained (lists.take group) cycles

theorem Handing.run {n fuel size : Nat} (hn : n < fuel) (hfuel : GroupBy.batchSize + 4 ≤ fuel) :
    ∀ (ops : List GroupByOp) {s : GroupBy σ × World σ} {lists : Lists}, Handing n size s lists →
      Meets (GroupBy.cycle fuel size) (GroupBy.Ready fuel size) s ops →
      ∃ cycles s', runOps (GroupBy.cycle fuel size) s ops = .ok (cycles, s') ∧
        Explained lists cycles := by
  intro ops
  induction ops with
  | nil => intro s lists _ _; exact ⟨[], s, rfl, trivial⟩
  | cons op ops ih =>
    intro s lists h hmeets
    obtain ⟨hready, hrest⟩ := hmeets
    have hseven : 7 ≤ fuel := Nat.le_trans (by decide) hfuel
    cases op with
    | execute =>
      obtain ⟨seen, s₁, hcycle, h₁⟩ := h.execute hn hseven hready
      obtain ⟨cycles, s₂, hrun, hex⟩ := ih h₁ (hrest _ s₁ hcycle)
      refine ⟨.grouped seen :: cycles, s₂, ?_, hex⟩
      rw [runOps, hcycle, bind_ok]
      dsimp only
      rw [hrun]
      rfl
    | consume group use =>
      obtain ⟨s₁, hcycle, h₁⟩ := h.consume hfuel hready use
      obtain ⟨cycles, s₂, hrun, hex⟩ := ih h₁ (hrest _ s₁ hcycle)
      refine ⟨.yielded group _ :: cycles, s₂, ?_, rfl, hex⟩
      rw [runOps, hcycle, bind_ok]
      dsimp only
      rw [hrun]
      rfl

/-- The queues and the consumers of a new `GroupBy`. -/
theorem GroupBy.newPairs_eq : ∀ groups : Nat, ∃ q : MpscQueue Ptr, Quiet q ∧ readable q = [] ∧
    q.slots = defaultQueueSize ∧
    newPairs groups = .ok (List.replicate groups q,
      List.replicate groups (MpscReceive.new (List.replicate batchSize 0))) := by
  obtain ⟨q, hnew, hslots⟩ := new_slots (α := Ptr) (k := 10) (by decide)
    (show defaultQueueSize ≤ 2 ^ 10 by decide) (by decide)
  obtain ⟨hquiet, hread, -⟩ := quiet_new (by decide) hnew
  intro groups
  refine ⟨q.referenceProducers, hquiet, hread, hslots, ?_⟩
  induction groups with
  | zero => rfl
  | succ groups ih =>
    rw [newPairs, ih, bind_ok]
    dsimp only
    rw [hnew, bind_ok, List.replicate_succ', List.replicate_succ']

theorem handing_new {n : Nat} (size : Nat) {parent : Batch σ} (hparent : parent.Carries n [])
    (groups : Nat) (f : GroupFn σ) (w : World σ) :
    ∃ g, GroupBy.new parent groups f = .ok g ∧ g.consumers.length = groups ∧
      Handing n size (g, w) fun _ => [] := by
  obtain ⟨q, hquiet, hread, hslots, hpairs⟩ := GroupBy.newPairs_eq groups
  refine ⟨_, by rw [GroupBy.new, hpairs]; rfl, List.length_replicate, ?_⟩
  refine ⟨hparent, ?_, ?_, ?_, fun _ _ => rfl, ?_, ?_, fun _ => List.nodup_nil, ?_, ?_⟩
  · intro q' hq'
    rw [List.eq_of_mem_replicate hq']
    exact hquiet
  · intro q' hq'
    rw [List.eq_of_mem_replicate hq']
    exact hslots
  · intro i q' hq'
    rw [List.eq_of_mem_replicate (List.mem_of_getElem? hq')]
    exact hread
  · exact List.length_replicate.trans List.length_replicate.symm
  · intro r hr
    rw [List.eq_of_mem_replicate hr]
    exact PacketBatch.holds_new (List.replicate GroupBy.batchSize 0)
  · exact fun _ _ _ _ hptr => absurd hptr List.not_mem_nil
  · exact fun _ _ hx => absurd hx List.not_mem_nil

/-- Whatever the parent of a `group_by` is and however its producer and the consumers
of its groups take turns, what a consumer is given is what the group function saw: the
packets of its group for which there was room, in order, each in the same mbuf, with
the same header address, the same offset and the same metadata. The slots of the header
and the offset and the metadata do not get into each other's way. -/
theorem groupBy_hands_over {n fuel : Nat} {parent : Batch σ} (hparent : parent.Carries n [])
    (hn : n < fuel) (hfuel : GroupBy.batchSize + 4 ≤ fuel) (size groups : Nat) (f : GroupFn σ)
    (w : World σ) :
    (∃ g, GroupBy.new parent groups f = .ok g ∧ g.consumers.length = groups ∧
      ∀ ops, Meets (GroupBy.cycle fuel size) (GroupBy.Ready fuel size) (g, w) ops →
        ∃ cycles s', runOps (GroupBy.cycle fuel size) (g, w) ops = .ok (cycles, s') ∧
          Explained (fun _ => []) cycles) ∧
    ∀ m : MBuf, m.Slotted →
      (∀ (k : Nat) (metadata : Vector UInt8 k) (m' : MBuf), writeMetadata m metadata = .ok m' →
        readMetadataSlot m' 0 = readMetadataSlot m 0 ∧
          readMetadataSlot m' 1 = readMetadataSlot m 1) ∧
      ∀ p : Packet, readMetadata (p.saveHeaderAndOffset m) size = readMetadata m size := by
  constructor
  · obtain ⟨g, hnew, hlen, h⟩ := handing_new size hparent groups f w
    exact ⟨g, hnew, hlen, fun ops hmeets => h.run hn hfuel ops hmeets⟩
  · intro m hm
    refine ⟨fun k metadata m' hwrite => ?_, fun p => readMetadata_saveHeaderAndOffset hm p size⟩
    exact ⟨readMetadataSlot_writeMetadata hm hwrite (by decide),
      readMetadataSlot_writeMetadata hm hwrite (by decide)⟩

/-- An mbuf with two bytes of metadata. -/
def markedMbuf : MBuf :=
  { bufAddr := 4096
    buf := []
    dataOff := 0
    dataLen := 0
    slots := List.replicate 24 0 ++ [7, 8] ++ List.replicate 102 0 }

/-- Two such mbufs arrive. -/
def markedArrivals : World Unit :=
  { state := ()
    mem := fun _ => markedMbuf
    rx := fun _ => [.ok [(9, markedMbuf), (10, markedMbuf)]]
    tx := [] }

/-- The packet in one of them. -/
def marked (ptr : Ptr) : Seen :=
  { packet := { mbuf := ptr, header := 4096, offset := 0 }, metadata := [7, 8] }

/-- What the group function sees of them. -/
theorem watch_parity (qs : List (MpscQueue Ptr)) :
    (parityGroups qs).watch 40 2 markedArrivals = .ok [(1, marked 9), (0, marked 10)] := rfl

theorem ready_parity {q : MpscQueue Ptr} (hread : readable q = []) (rs : List MpscReceive) :
    GroupBy.Ready 40 2 ({ producer := parityGroups (List.replicate 2 q), consumers := rs },
      markedArrivals) .execute := by
  refine ⟨_, _, [(1, marked 9), (0, marked 10)], _, rfl, rfl,
    show ∀ x ∈ [(1, marked 9), (0, marked 10)], x.1 < 2 by decide,
    ⟨show ([9, 10] : List Ptr).Nodup by decide, ?_⟩, ?_, by decide⟩
  · intro ptr _ q' hq'
    rw [List.eq_of_mem_replicate hq', hread]
    exact List.not_mem_nil
  · intro ptr hptr
    have hslotted : markedMbuf.Slotted := by simp [MBuf.Slotted, markedMbuf, metadataSlots]
    rcases List.mem_pair.mp hptr with rfl | rfl
    · exact hslotted
    · exact hslotted

theorem groupBy_hands_over_parity :
    ∃ g s', GroupBy.new (parityGroups []).parent 2 (parityGroups []).groupFn = .ok g ∧
      runOps (GroupBy.cycle 40 2) (g, markedArrivals) [.execute, .consume 1 id] =
        .ok ([.grouped [(1, marked 9), (0, marked 10)], .yielded 1 [marked 9]], s') := by
  have hparent : (parityGroups []).parent.Carries 2 [] :=
    carries_build (.receive 0 [0, 0]) (Nat.le_refl _)
  obtain ⟨⟨g, hnew, -, hrun⟩, -⟩ := groupBy_hands_over hparent (by decide)
    (show GroupBy.batchSize + 4 ≤ 40 by decide) 2 2 (parityGroups []).groupFn markedArrivals
  refine ⟨g, ?_⟩
  obtain ⟨q, -, hread, -, hpairs⟩ := GroupBy.newPairs_eq 2
  have hg := hnew
  rw [GroupBy.new, hpairs, bind_ok] at hg
  obtain rfl : GroupBy.mk (parityGroups (List.replicate 2 q))
    (List.replicate 2 (MpscReceive.new (List.replicate GroupBy.batchSize 0))) = g :=
    Outcome.ok.inj hg
  have hmeets : Meets (GroupBy.cycle 40 2) (GroupBy.Ready 40 2)
      ({ producer := parityGroups (List.replicate 2 q)
         consumers := List.replicate 2 (MpscReceive.new (List.replicate GroupBy.batchSize 0)) },
        markedArrivals) [.execute, .consume 1 id] := by
    refine ⟨ready_parity hread _, fun r s' hcycle => ⟨?_, fun _ _ _ => trivial⟩⟩
    unfold GroupBy.cycle at hcycle
    dsimp only at hcycle
    rw [watch_parity, bind_ok, bind_eq_ok] at hcycle
    obtain ⟨⟨producer, w⟩, -, hcycle⟩ := hcycle
    cases hcycle
    exact (by decide : 1 < 2)
  obtain ⟨cycles, s', hcycles, hex⟩ := hrun _ hmeets
  obtain ⟨r₁, s₁, rest, h₁, hrest, rfl⟩ := runOps_cons_ok hcycles
  obtain ⟨r₂, s₂, rest', h₂, hrest', rfl⟩ := runOps_cons_ok hrest
  cases hrest'
  -- the two results
  unfold GroupBy.cycle at h₁ h₂
  dsimp only at h₁ h₂
  rw [watch_parity, bind_ok, bind_eq_ok] at h₁
  obtain ⟨⟨producer, w⟩, -, h₁⟩ := h₁
  cases h₁
  rw [bind_eq_ok] at h₂
  obtain ⟨⟨items, g, w'⟩, -, h₂⟩ := h₂
  cases h₂
  obtain rfl : items = [marked 9] := hex.1
  exact ⟨_, hnew, hcycles⟩

end NetBricks.Operators
