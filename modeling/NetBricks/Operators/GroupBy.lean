import NetBricks.Operators.Ownership
import NetBricks.Queues.MpscProducer

/-!
# `GroupByProducer` and what a full queue does to a packet

`src/framework/src/operators/group_by.rs`. A cycle of the producer passes every
packet of its parent's batch to the queue of its group, clears the batch without
freeing it, since the mbufs now belong to the queues, and ends the parent's
cycle. The result of `enqueue_one` is not looked at. A queue that is full takes
nothing, and then the mbuf is neither in a queue nor in the batch, and nobody
frees it: it is lost. `MpscProducer::enqueue` loses the part of its vector that
the queue does not take.

So packets are kept exactly when there is room for them. `groupBy_keeps_iff` says
so for the three calls; the queues are `Quiet`, so the consumers move between the
cycles and not during one.

Mirroring notes:

* A producer and its queue are one: `Arc` and the consumer's end are not here.
* The indices `group_fn` returns are positions in the vector of producers; one
  that is too large is an index out of bounds.
-/

namespace NetBricks.Operators

open Lib
open Lib.Outcome
open Interface
open Queues

variable {σ : Type}

/-- `GroupFn`. -/
abbrev GroupFn (σ : Type) := Packet → MBuf → σ → Nat × σ

structure GroupByProducer (σ : Type) where
  parent : Batch σ
  producers : List (MpscQueue Ptr)
  groupFn : GroupFn σ

/-- What a packet leaves behind when its header and offset are saved. -/
def saved (p : Packet) (s : σ) (w : World σ) : World σ :=
  { w with
    mem := Function.update w.mem p.mbuf (p.saveHeaderAndOffset (w.mem p.mbuf))
    state := s }

namespace GroupByProducer

/-- The body of the loop. -/
def groupLoop (fuel : Nat) (f : GroupFn σ) (_ : Nat) (p : Packet)
    (acc : List (MpscQueue Ptr) × World σ) : Outcome (List (MpscQueue Ptr) × World σ) := do
  let (group, s) := f p (acc.2.mem p.mbuf) acc.2.state
  let w := saved p s acc.2
  let q ← index acc.1 group
  -- whether the queue has taken the packet is ignored
  let (_, q) ← MpscProducer.enqueueOne fuel q p
  .ok (acc.1.set group q, w)

/-- `execute`. -/
def execute (fuel : Nat) (g : GroupByProducer σ) (w : World σ) :
    Outcome (GroupByProducer σ × World σ) := do
  let (parent, w) ← g.parent.act fuel w
  let (producers, w) ← parent.forEach fuel (groupLoop fuel g.groupFn) (g.producers, w)
  let (_, parent, w) ← parent.withPacketBatch (fun p => do
    let p ← p.consumeBatch
    .ok ((), p, w))
  let (parent, w) ← parent.done w
  .ok ({ g with parent := parent, producers := producers }, w)

end GroupByProducer

/-! ## Which packet belongs where -/

/-- The groups of the packets, in order. -/
def assign (view : View) (f : GroupFn σ) : List Ptr → World σ → Outcome (List Nat × World σ)
  | [], w => .ok ([], w)
  | ptr :: pkts, w => do
    let p ← view w.mem ptr
    let (group, s) := f p (w.mem p.mbuf) w.state
    let (groups, w) ← assign view f pkts (saved p s w)
    .ok (group :: groups, w)

/-- The packets the parent brings, with the groups they belong to. -/
def GroupByProducer.classify (fuel : Nat) (g : GroupByProducer σ) (w : World σ) :
    Outcome (List Nat × List Ptr × World σ) := do
  let (parent, w) ← g.parent.act fuel w
  let (groups, w) ← assign parent.view g.groupFn parent.packets w
  .ok (groups, parent.packets, w)

/-- The packets of one group. -/
def members (group : Nat) : List Nat → List Ptr → List Ptr
  | i :: groups, ptr :: pkts =>
    if i = group then ptr :: members group groups pkts else members group groups pkts
  | _, _ => []

theorem length_members (group : Nat) : ∀ {groups : List Nat} {pkts : List Ptr},
    groups.length = pkts.length → (members group groups pkts).length = groups.count group := by
  intro groups
  induction groups with
  | nil => intro pkts _; rfl
  | cons i groups ih =>
    intro pkts hlen
    cases pkts with
    | nil => cases hlen
    | cons ptr pkts =>
      have hrest := ih (Nat.succ.inj hlen)
      rw [members]
      by_cases hi : i = group
      · rw [if_pos hi, List.length_cons, hrest, hi, List.count_cons_self]
      · rw [if_neg hi, hrest, List.count_cons_of_ne hi]

theorem length_assign {view : View} {f : GroupFn σ} :
    ∀ {pkts : List Ptr} {w : World σ} {r : List Nat × World σ}, assign view f pkts w = .ok r →
      r.1.length = pkts.length := by
  intro pkts
  induction pkts with
  | nil =>
    intro w r h
    cases h
    rfl
  | cons ptr pkts ih =>
    intro w r h
    rw [assign, bind_eq_ok] at h
    obtain ⟨p, -, h⟩ := h
    dsimp only at h
    rw [bind_eq_ok] at h
    obtain ⟨rest, hrest, h⟩ := h
    cases h
    exact congrArg (· + 1) (ih hrest)

/-! ## What a cycle stores -/

/-- Every queue has taken the packets of its group, as many as it had room for. -/
def Stored (groups : List Nat) (pkts : List Ptr) (before after : List (MpscQueue Ptr)) : Prop :=
  ∀ i q, before[i]? = some q → ∃ q', after[i]? = some q' ∧ Quiet q' ∧
    readable q' = readable q ++ (members i groups pkts).take q.room

theorem stored_nil {qs : List (MpscQueue Ptr)} (h : ∀ q ∈ qs, Quiet q) : Stored [] [] qs qs := by
  intro i q hq
  refine ⟨q, hq, h q (List.mem_of_getElem? hq), ?_⟩
  show _ = _ ++ ([] : List Ptr).take q.room
  rw [List.take_nil, List.append_nil]

/-- The first packet, and then the others. -/
theorem Stored.cons {group : Nat} {ptr : Ptr} {groups : List Nat} {pkts : List Ptr}
    {qs qs' : List (MpscQueue Ptr)} {q q₁ : MpscQueue Ptr} (hq : qs[group]? = some q)
    (hread : readable q₁ = readable q ++ [ptr].take q.room) (hroom : q₁.room = q.room - 1)
    (h : Stored groups pkts (qs.set group q₁) qs') :
    Stored (group :: groups) (ptr :: pkts) qs qs' := by
  intro i qi hqi
  have hlt : group < qs.length := (List.getElem?_eq_some_iff.mp hq).1
  rw [members]
  by_cases hi : group = i
  · subst hi
    obtain rfl : q = qi := Option.some.inj (hq.symm.trans hqi)
    obtain ⟨q', hq', hquiet, hread'⟩ := h group q₁ (List.getElem?_set_self hlt)
    refine ⟨q', hq', hquiet, ?_⟩
    rw [if_pos rfl, hread', hread, hroom, List.append_assoc]
    congr 1
    -- the packet takes one of the free slots, if there is one
    cases q.room with
    | zero => rfl
    | succ room =>
      rw [List.take_succ_cons, List.take_succ_cons, List.take_nil]
      rfl
  · obtain ⟨q', hq', hquiet, hread'⟩ := h i qi ((List.getElem?_set_ne hi).trans hqi)
    rw [if_neg hi]
    exact ⟨q', hq', hquiet, hread'⟩

/-- A queue is replaced by one with as many slots. -/
theorem map_slots_set {qs : List (MpscQueue Ptr)} {group : Nat} {q q₁ : MpscQueue Ptr}
    (hq : qs[group]? = some q) (hslots : q₁.slots = q.slots) :
    (qs.set group q₁).map (·.slots) = qs.map (·.slots) := by
  have hlt : group < qs.length := (List.getElem?_eq_some_iff.mp hq).1
  apply List.ext_getElem?
  intro i
  rw [List.getElem?_map, List.getElem?_map]
  by_cases hi : group = i
  · subst hi
    rw [List.getElem?_set_self hlt, hq, Option.map_some, Option.map_some, hslots]
  · rw [List.getElem?_set_ne hi]

theorem walk_groupLoop {view : View} {f : GroupFn σ} {fuel : Nat} (hfuel : 7 ≤ fuel)
    (hview : ∀ mem ptr, Shows ptr (view mem ptr)) :
    ∀ {pkts : List Ptr} {w w' : World σ} {groups : List Nat} {qs : List (MpscQueue Ptr)}
      (idx : Nat),
      assign view f pkts w = .ok (groups, w') → (∀ i ∈ groups, i < qs.length) →
      (∀ q ∈ qs, Quiet q) →
      ∃ qs', Batch.walk view (GroupByProducer.groupLoop fuel f) idx pkts (qs, w) = .ok (qs', w') ∧
        Stored groups pkts qs qs' ∧ qs'.map (·.slots) = qs.map (·.slots) := by
  intro pkts
  induction pkts with
  | nil =>
    intro w w' groups qs idx h _ hquiet
    cases h
    exact ⟨qs, rfl, stored_nil hquiet, rfl⟩
  | cons ptr pkts ih =>
    intro w w' groups qs idx h hbelow hquiet
    rw [assign, bind_eq_ok] at h
    obtain ⟨p, hp, h⟩ := h
    dsimp only at h
    rw [bind_eq_ok] at h
    obtain ⟨⟨rest, w₁⟩, hrest, h⟩ := h
    cases h
    have hmbuf : p.mbuf = ptr := (hview w.mem ptr).mbuf_eq hp
    generalize hgroup : (f p (w.mem p.mbuf) w.state).1 = group at hbelow
    have hlt : group < qs.length := hbelow group List.mem_cons_self
    have hq : qs[group]? = some (qs[group]) := List.getElem?_eq_getElem hlt
    obtain ⟨r, q₁, henq, hquiet₁, hread, hroom, hslots⟩ :=
      (hquiet _ (List.getElem_mem hlt)).enqueueOne p.mbuf hfuel
    obtain ⟨qs', hwalk, hstored, hkeep⟩ := @ih _ _ _ (qs.set group q₁) (idx + 1) hrest
      (fun i hi => by rw [List.length_set]; exact hbelow i (List.mem_cons_of_mem _ hi))
      (fun q hmem => by
        rcases List.mem_or_eq_of_mem_set hmem with h | rfl
        · exact hquiet q h
        · exact hquiet₁)
    rw [hmbuf] at hread
    refine ⟨qs', ?_, hstored.cons hq hread hroom, hkeep.trans (map_slots_set hq hslots)⟩
    have hbody : GroupByProducer.groupLoop fuel f idx p (qs, w) =
        .ok (qs.set group q₁, saved p (f p (w.mem p.mbuf) w.state).2 w) := by
      unfold GroupByProducer.groupLoop MpscProducer.enqueueOne
      dsimp only
      rw [hgroup, index_of_some hq, bind_ok, henq]
      rfl
    rw [Batch.walk]
    dsimp only
    rw [hp, bind_ok, hbody, bind_ok]
    exact hwalk

/-- A cycle of the producer: the queues have taken what they had room for, the
batch is empty and nothing was freed. -/
theorem GroupByProducer.execute_stores {n fuel : Nat} {g : GroupByProducer σ} {w w' : World σ}
    {groups : List Nat} {pkts : List Ptr} (hparent : g.parent.Carries n []) (hn : n < fuel)
    (hfuel : 7 ≤ fuel) (hquiet : ∀ q ∈ g.producers, Quiet q)
    (hclass : g.classify fuel w = .ok (groups, pkts, w'))
    (hbelow : ∀ i ∈ groups, i < g.producers.length) :
    groups.length = pkts.length ∧
    ∃ g', g.execute fuel w = .ok (g', w') ∧ g'.parent.Carries n [] ∧
      g'.producers.map (·.slots) = g.producers.map (·.slots) ∧
      Stored groups pkts g.producers g'.producers := by
  unfold GroupByProducer.classify at hclass
  rw [bind_eq_ok] at hclass
  obtain ⟨⟨b, w₁⟩, hact, hclass⟩ := hclass
  rw [bind_eq_ok] at hclass
  obtain ⟨⟨groups', w₂⟩, hassign, hclass⟩ := hclass
  cases hclass
  -- the batch after the parent's `act`
  have hacted := Batch.Carries.act (ledger_accounts w) hn hparent (accounts_self w)
  rw [hact] at hacted
  obtain ⟨pkts, hb, -⟩ := hacted
  obtain ⟨rfl, hle, hyields, hview⟩ := hb.yields
  refine ⟨length_assign hassign, ?_⟩
  obtain ⟨qs, hwalk, hstored, hkeep⟩ := walk_groupLoop hfuel hview 0 hassign hbelow hquiet
  -- clearing it, and ending the parent's cycle
  have hclear := hb.withPacketBatch (F := fun _ => False)
    (f := fun p => do
      let p ← p.consumeBatch
      .ok ((), p, w'))
    (Q := fun _ left w => left = [] ∧ w = w') (by
      intro room p hp
      obtain ⟨p', hconsume, hp'⟩ := hp.consumeBatch
      rw [hconsume]
      exact ⟨[], hp', rfl, rfl⟩)
  obtain ⟨⟨_, b₂, w₂⟩, hclear, left, hb₂, hleft, hw₂⟩ := hclear.exists_ok
  subst hleft
  obtain ⟨b₃, hdone, hb₃⟩ := hb₂.done w₂
  obtain rfl : w₂ = w' := hw₂
  rw [World.free_nil] at hdone
  refine ⟨{ g with parent := b₃, producers := qs }, ?_, hb₃, hkeep, hstored⟩
  unfold GroupByProducer.execute
  rw [hact, bind_ok]
  dsimp only
  rw [hyields.forEach (by omega), hwalk, bind_ok]
  dsimp only
  rw [hclear, bind_ok]
  dsimp only
  rw [hdone]
  rfl

/-! ## When every packet is kept -/

/-- Every packet is in the queue of its group, or was freed, exactly once: for
each group, what was in the queue and the packets of the group are what is in the
queue and those of the group that were freed. -/
def Placed (groups : List Nat) (pkts : List Ptr) (before after : List (MpscQueue Ptr))
    (freed freed' : List Ptr) : Prop :=
  ∃ back : Nat → List Ptr, freed'.Perm (freed ++ (List.range before.length).flatMap back) ∧
    ∀ i q q', before[i]? = some q → after[i]? = some q' →
      (readable q ++ members i groups pkts).Perm (readable q' ++ back i)

/-- What a queue takes of a list is all of it when there is room. -/
theorem perm_append_take_iff {held new : List Ptr} {room : Nat} :
    (held ++ new).Perm (held ++ new.take room) ↔ new.length ≤ room := by
  constructor
  · intro h
    have hlen := h.length_eq
    rw [List.length_append, List.length_append, List.length_take] at hlen
    omega
  · intro h
    rw [List.take_of_length_le h]

theorem Stored.placed_iff {groups : List Nat} {pkts : List Ptr} {qs qs' : List (MpscQueue Ptr)}
    (h : Stored groups pkts qs qs') (hlen : groups.length = pkts.length) (freed : List Ptr) :
    Placed groups pkts qs qs' freed freed ↔
      ∀ i q, qs[i]? = some q → groups.count i ≤ q.room := by
  constructor
  · rintro ⟨back, hfreed, hplaced⟩ i q hq
    -- nothing was freed
    have hnil : (List.range qs.length).flatMap back = [] := by
      have hcount := hfreed.length_eq
      rw [List.length_append] at hcount
      exact List.length_eq_zero_iff.mp (by omega)
    have hback : back i = [] := List.flatMap_eq_nil_iff.mp hnil i
      (List.mem_range.mpr (List.getElem?_eq_some_iff.mp hq).1)
    obtain ⟨q', hq', -, hread⟩ := h i q hq
    have hperm := hplaced i q q' hq hq'
    rw [hback, List.append_nil, hread] at hperm
    rw [← length_members i hlen]
    exact perm_append_take_iff.mp hperm
  · intro hroom
    refine ⟨fun _ => [], ?_, fun i q q' hq hq' => ?_⟩
    · rw [List.flatMap_eq_nil_iff.mpr fun _ _ => rfl, List.append_nil]
    · obtain ⟨q₁, hq₁, -, hread⟩ := h i q hq
      obtain rfl : q₁ = q' := Option.some.inj (hq₁.symm.trans hq')
      rw [List.append_nil, hread]
      refine perm_append_take_iff.mpr ?_
      rw [length_members i hlen]
      exact hroom i q hq

/-- Whether packets are kept, for the three calls. `enqueue` keeps the packets of
its vector, in the queue or in the vector, when the queue has room for all of
them; `enqueue_one` keeps its packet when there is a free slot; and a cycle of
`GroupByProducer` keeps the packets of its parent's batch when every queue has
room for the packets of its group. Otherwise packets are lost. -/
theorem groupBy_keeps_iff {n fuel : Nat} {g : GroupByProducer σ} {w w₁ : World σ}
    {groups : List Nat} {pkts : List Ptr} (hparent : g.parent.Carries n []) (hn : n < fuel)
    (hfuel : 7 ≤ fuel) (hquiet : ∀ q ∈ g.producers, Quiet q)
    (hclass : g.classify fuel w = .ok (groups, pkts, w₁))
    (hbelow : ∀ i ∈ groups, i < g.producers.length) {q : MpscQueue Ptr} (hq : Quiet q)
    (packets : List Packet) (hpackets : packets.length + 6 ≤ fuel) (packet : Packet) :
    (∃ count q' packets', MpscProducer.enqueue fuel q packets = .ok (count, q', packets') ∧
      ((readable q ++ packets.map (·.mbuf)).Perm (readable q' ++ packets'.map (·.mbuf)) ↔
        packets.length ≤ q.room)) ∧
    (∃ r q', MpscProducer.enqueueOne fuel q packet = .ok (r, q') ∧
      ((readable q ++ [packet.mbuf]).Perm (readable q') ↔ 1 ≤ q.room)) ∧
    ∃ g' w', g.execute fuel w = .ok (g', w') ∧ g'.parent.Carries n [] ∧
      (∀ q ∈ g'.producers, Quiet q) ∧
      (Placed groups pkts g.producers g'.producers w₁.freed w'.freed ↔
        ∀ i q, g.producers[i]? = some q → groups.count i ≤ q.room) := by
  refine ⟨?_, ?_, ?_⟩
  · obtain ⟨count, q', hrun, hread⟩ := hq.enqueuePackets packets hpackets
    refine ⟨count, q', [], hrun, ?_⟩
    rw [List.map_nil, List.append_nil, hread, perm_append_take_iff, List.length_map]
  · obtain ⟨r, q', hrun, -, hread, -, -⟩ := hq.enqueueOne packet.mbuf hfuel
    refine ⟨r, q', hrun, ?_⟩
    rw [hread]
    exact perm_append_take_iff
  · obtain ⟨hlen, g', hrun, hparent', hkeep, hstored⟩ :=
      GroupByProducer.execute_stores hparent hn hfuel hquiet hclass hbelow
    have hcount : g'.producers.length = g.producers.length := by
      simpa only [List.length_map] using congrArg List.length hkeep
    refine ⟨g', w₁, hrun, hparent', fun q' hq' => ?_, hstored.placed_iff hlen _⟩
    obtain ⟨i, hi⟩ := List.mem_iff_getElem?.mp hq'
    have hlt : i < g.producers.length := hcount ▸ (List.getElem?_eq_some_iff.mp hi).1
    obtain ⟨q₁, hq₁, hquiet₁, -⟩ := hstored i _ (List.getElem?_eq_getElem hlt)
    obtain rfl : q₁ = q' := Option.some.inj (hq₁.symm.trans hi)
    exact hquiet₁

/-- A producer that receives up to two packets a cycle and groups them by the
parity of their addresses. -/
def parityGroups (producers : List (MpscQueue Ptr)) : GroupByProducer Unit :=
  { parent := (Pipe.receive 0 [0, 0]).build
    producers := producers
    groupFn := fun p _ s => (p.mbuf % 2, s) }

/-- A queue that brings the packets in the mbufs `ptrs`. -/
def arrivals (ptrs : List Ptr) : World Unit :=
  let m : MBuf := { bufAddr := 0, buf := [], dataOff := 0, dataLen := 0, slots := [] }
  { state := (), mem := fun _ => m, rx := fun _ => [.ok (ptrs.map (·, m))], tx := [] }

/-- An empty queue of four slots. -/
def fourSlots : MpscQueue Ptr :=
  { slots := 4
    mask := 3
    producer := { head := 0, tail := 0 }
    consumer := { head := 0, tail := 0 }
    queue := [0, 0, 0, 0]
    nProducers := 1 }

theorem quiet_fourSlots : Quiet fourSlots :=
  (quiet_new (show (4 : Nat) < 2 ^ 64 by decide)
    (show MpscQueue.new 4 = .ok { fourSlots with nProducers := 0 } from rfl)).1

theorem groupBy_keeps_iff_empty :
    ∃ g' w', (parityGroups [fourSlots, fourSlots]).execute 8 (arrivals [9, 10]) = .ok (g', w') ∧
      Placed [1, 0] [9, 10] [fourSlots, fourSlots] g'.producers [] w'.freed := by
  have hquiet : ∀ q ∈ [fourSlots, fourSlots], Quiet q := by
    intro q hq
    rcases List.mem_pair.mp hq with rfl | rfl <;> exact quiet_fourSlots
  obtain ⟨-, -, g', w', hrun, -, -, hiff⟩ :=
    @groupBy_keeps_iff Unit 2 8 (parityGroups [fourSlots, fourSlots]) (arrivals [9, 10]) _ [1, 0]
      [9, 10] (carries_build (.receive 0 [0, 0]) (Nat.le_refl _)) (by decide) (by decide) hquiet rfl
      (by decide) fourSlots quiet_fourSlots [] (by decide) (Packet.fromMbuf 1)
  refine ⟨g', w', hrun, hiff.mpr fun i q hq => ?_⟩
  have hroom : q.room = 3 := by
    rcases List.mem_pair.mp (List.mem_of_getElem? hq) with rfl | rfl <;> rfl
  rw [hroom]
  exact List.count_le_length.trans (by decide)

/-- A queue of the default size that has taken 1023 mbufs is full. Then a packet
is lost: it was received, and it is in no queue, not in the batch and not freed. -/
theorem groupBy_loses_packet :
    ∃ q₀ q : MpscQueue Ptr, MpscQueue.new 1024 = .ok q₀ ∧
      q₀.referenceProducers.enqueue 1029 (List.replicate 1023 7) = .ok (1023, q) ∧
      (∃ n q', MpscProducer.enqueue 7 q [Packet.fromMbuf 8] = .ok (n, q', []) ∧ 8 ∉ readable q') ∧
      (∃ r q', MpscProducer.enqueueOne 7 q (Packet.fromMbuf 8) = .ok (r, q') ∧ 8 ∉ readable q') ∧
      ∃ g' w' q', (parityGroups [q]).execute 7 (arrivals [8]) = .ok (g', w') ∧
        w'.received = [8] ∧ g'.producers = [q'] ∧ 8 ∉ readable q' ∧ g'.parent.packets = [] ∧
        w'.dropped = [] ∧ w'.freed = [] ∧
        ¬ Placed [0] [8] [q] g'.producers [] w'.freed := by
  have hnew : MpscQueue.new 1024 = .ok (MpscQueue.mk 1024 1023 ⟨0, 0⟩ ⟨0, 0⟩
    (List.replicate 1024 (0 : Ptr)) 0) := rfl
  obtain ⟨hquiet₀, hread₀, -⟩ := quiet_new (by decide) hnew
  obtain ⟨q, hfill, hquiet, hread, hroom, -⟩ := hquiet₀.enqueue (List.replicate 1023 7)
    (show (List.replicate 1023 7).length + 6 ≤ 1029 by rw [List.length_replicate])
  rw [List.length_replicate] at hfill hroom
  rw [hread₀, List.nil_append] at hread
  have hfull : q.room = 0 := hroom
  -- nothing gets into a full queue
  have hlost : ∀ {q' : MpscQueue Ptr} {new : List Ptr},
      readable q' = readable q ++ new.take q.room → 8 ∉ readable q' := by
    intro q' new hq' hmem
    rw [hq', hfull, List.take_zero, List.append_nil, hread] at hmem
    exact absurd (List.eq_of_mem_replicate (List.mem_of_mem_take hmem)) (by decide)
  refine ⟨_, q, hnew, hfill, ?_, ?_, ?_⟩
  · obtain ⟨n, q', hrun, hq'⟩ := hquiet.enqueuePackets [Packet.fromMbuf 8] (Nat.le_refl 7)
    exact ⟨n, q', hrun, hlost hq'⟩
  · obtain ⟨r, q', hrun, -, hq', -, -⟩ := hquiet.enqueueOne (Packet.fromMbuf 8).mbuf (Nat.le_refl 7)
    exact ⟨r, q', hrun, hlost hq'⟩
  · obtain ⟨hlen, g', hrun, hparent, hkeep, hstored⟩ :=
      @GroupByProducer.execute_stores Unit 2 7 (parityGroups [q]) (arrivals [8]) _ [0] [8]
        (carries_build (.receive 0 [0, 0]) (Nat.le_refl _)) (by decide) (Nat.le_refl 7)
        (fun q' hq' => List.mem_singleton.mp hq' ▸ hquiet) rfl
        (fun i hi => List.mem_singleton.mp hi ▸ Nat.zero_lt_one)
    obtain ⟨q', hq', -, hread'⟩ := hstored 0 q rfl
    have hcount := congrArg List.length hkeep
    rw [List.length_map, List.length_map] at hcount
    have hqueues : g'.producers = [q'] := by
      obtain ⟨a, ha⟩ := List.length_eq_one_iff.mp hcount
      rw [ha] at hq' ⊢
      exact congrArg (fun q => [q]) (Option.some.inj hq')
    refine ⟨g', _, q', hrun, rfl, hqueues, hlost hread', hparent.yields.1, rfl, rfl, ?_⟩
    intro hplaced
    have hfits := (hstored.placed_iff hlen _).mp hplaced 0 q rfl
    rw [hfull] at hfits
    exact absurd hfits (by decide)

end NetBricks.Operators
