import NetBricks.Interface.Packet
import NetBricks.Queues.MpscSafety

/-!
# Calls on the queue while nothing else moves

`MpscProducer` of `src/framework/src/queues/mpsc_mbuf_queue.rs`. A call of
`enqueue` is the sequence of its accesses; here they are made one after the other
(`alone`), on a queue on which no other thread is in a call (`Quiet`). The queue
then takes the front of the batch, as much as there is room for.

Mirroring notes:

* `get_mbuf` moves the mbuf out of a packet and leaves a null pointer in it, and
  a `Packet` does nothing when it is dropped. So a packet passed to `enqueue_one`
  is gone, and `enqueue` leaves an empty vector behind.
* The result of the queue is passed on: a count, or whether the count is 1.
-/

namespace NetBricks.Queues

open Lib
open Interface

variable {α : Type}

namespace MpscQueue

/-- The rest of a call of `enqueue`, with no other access in between. -/
def alone : Nat → MpscQueue α → ProducerPc α → Outcome (Nat × MpscQueue α)
  | _, _, .panicked why => .panic why
  | 0, _, _ => .timeout
  | fuel + 1, q, pc =>
    let e := producerStep q 0 pc
    match e.returned with
    | some r => .ok (r.2, e.q)
    | none => alone fuel e.q e.pc

/-- `enqueue`. -/
def enqueue (fuel : Nat) (q : MpscQueue α) (mbufs : List α) : Outcome (Nat × MpscQueue α) :=
  alone fuel q (.loadProducers mbufs)

/-- `enqueue_one`. -/
def enqueueOne (fuel : Nat) (q : MpscQueue α) (mbuf : α) : Outcome (Bool × MpscQueue α) := do
  let (n, q) ← q.enqueue fuel [mbuf]
  .ok (n == 1, q)

/-- How many slots are free, as `enqueue` computes it. -/
def room (q : MpscQueue α) : Nat :=
  wrappingSub 64 (wrappingAdd 64 q.mask q.consumer.tail) q.producer.head

end MpscQueue

namespace MpscProducer

/-- `MpscProducer::enqueue`: the result, the queue and what is in the vector of
packets afterwards. -/
def enqueue (fuel : Nat) (q : MpscQueue Ptr) (packets : List Packet) :
    Outcome (Nat × MpscQueue Ptr × List Packet) := do
  let mbufs := packets.map (·.mbuf)
  let (n, q) ← q.enqueue fuel mbufs
  .ok (n, q, [])

/-- `MpscProducer::enqueue_one`, which consumes the packet. -/
def enqueueOne (fuel : Nat) (q : MpscQueue Ptr) (packet : Packet) :
    Outcome (Bool × MpscQueue Ptr) :=
  q.enqueueOne fuel packet.mbuf

end MpscProducer

/-! ## One call after the other -/

/-- A queue with a registered producer on which no call is under way: everything
reserved is committed and everything taken is released. -/
def Quiet (q : MpscQueue α) : Prop :=
  1 ≤ q.nProducers ∧ ∃ k ct pt, Counters k ct ct pt pt q

theorem quiet_new [Inhabited α] {size : Nat} (hsize : size < 2 ^ 64) {q : MpscQueue α}
    (h : MpscQueue.new size = .ok q) :
    Quiet q.referenceProducers ∧ readable q.referenceProducers = [] ∧
      size - 1 ≤ q.referenceProducers.room := by
  obtain ⟨k, hcnt, -, hle⟩ := counters_of_new hsize h
  have hcnt' : Counters k 0 0 0 0 q.referenceProducers :=
    ⟨hcnt.lt, hcnt.slots_eq, hcnt.mask_eq, hcnt.length_queue, hcnt.consTail_eq, hcnt.consHead_eq,
      hcnt.prodTail_eq, hcnt.prodHead_eq, hcnt.ct_le, hcnt.ch_le, hcnt.pt_le, hcnt.room⟩
  refine ⟨⟨Nat.succ_le_succ (Nat.zero_le _), k, 0, 0, hcnt'⟩, ?_, ?_⟩
  · unfold readable
    rw [hcnt'.readableCount_eq]
    rfl
  · unfold MpscQueue.room
    rw [hcnt'.prodHead_eq, hcnt'.free_eq]
    omega

/-- A call goes on with the next access. -/
theorem alone_next {q : MpscQueue α} {pc : ProducerPc α} {e : ProducerEffect α}
    (he : producerStep q 0 pc = e) (hr : e.returned = none) (hpc : ∀ why, pc ≠ .panicked why)
    (fuel : Nat) : MpscQueue.alone (fuel + 1) q pc = MpscQueue.alone fuel e.q e.pc := by
  rw [MpscQueue.alone, he, hr]
  exact hpc

theorem alone_return {q : MpscQueue α} {pc : ProducerPc α} {e : ProducerEffect α}
    {r : List α × Nat} (he : producerStep q 0 pc = e) (hr : e.returned = some r)
    (hpc : ∀ why, pc ≠ .panicked why) (fuel : Nat) :
    MpscQueue.alone (fuel + 1) q pc = .ok (r.2, e.q) := by
  rw [MpscQueue.alone, he, hr]
  exact hpc

/-- The accesses of `enqueue_mbufs` from iteration `j` on: the front of the batch
gets into the slots from position `base` on, and the rest of the turn stays. -/
theorem alone_store {k insert : Nat} {mbufs : List α} (hinsert : insert < 2 ^ k)
    (hle : insert ≤ mbufs.length) (mode : Mode) (base head since fuel : Nat) :
    ∀ (n : Nat) {j : Nat} {q : MpscQueue α}, j + n = insert → q.slots = 2 ^ k →
      q.queue.length = 2 ^ k → (∀ i, i < j → cell q.queue (base + i) = mbufs[i]?) →
      ∃ queue : List α, queue.length = 2 ^ k ∧
        (∀ i, i < insert → cell queue (base + i) = mbufs[i]?) ∧
        (∀ i, insert ≤ i → i < 2 ^ k → cell queue (base + i) = cell q.queue (base + i)) ∧
        MpscQueue.alone (n + fuel) q (storeOrLeave mode mbufs head insert since
            (Cursor.atStep (2 ^ k) base insert j)) =
          MpscQueue.alone fuel { q with queue := queue } (storeOrLeave mode mbufs head insert since
            (Cursor.atStep (2 ^ k) base insert insert)) := by
  intro n
  induction n with
  | zero =>
    intro j q hj hslots hlen hstored
    obtain rfl : j = insert := hj
    exact ⟨q.queue, hlen, hstored, fun _ _ _ => rfl, by rw [Nat.zero_add]⟩
  | succ n ih =>
    intro j q hj hslots hlen hstored
    have hlt : j < insert := by omega
    have hm : mbufs[j]? = some (mbufs[j]) := List.getElem?_eq_getElem (by omega)
    -- the slot of this iteration
    have hself : cell (q.queue.set ((base + j) % q.queue.length) (mbufs[j])) (base + j) =
        mbufs[j]? := by
      rw [cell_set_self (by omega), hm]
    have hother : ∀ i, i < 2 ^ k → j ≠ i →
        cell (q.queue.set ((base + j) % q.queue.length) (mbufs[j])) (base + i) =
          cell q.queue (base + i) := by
      intro i hi hne
      exact cell_set_ne (by omega) (by omega) (by omega) _
    obtain ⟨queue, hlen', hall, hrest, hrun⟩ :=
      @ih (j + 1) { q with queue := q.queue.set ((base + j) % q.queue.length) (mbufs[j]) }
        (by omega) hslots (by rw [← hlen]; exact List.length_set) (by
          intro i hi
          by_cases hij : i = j
          · rw [hij]
            exact hself
          · rw [hother i (by omega) (by omega)]
            exact hstored i (by omega))
    refine ⟨queue, hlen', hall, fun i hi hi' => ?_, ?_⟩
    · rw [hrest i hi hi']
      exact hother i hi' (by omega)
    · have hmore : storeOrLeave mode mbufs head insert since (Cursor.atStep (2 ^ k) base insert j) =
          .store mode mbufs head insert since (Cursor.atStep (2 ^ k) base insert j) := by
        unfold storeOrLeave
        rw [Cursor.more_atStep (by omega), decide_eq_true hlt, if_pos rfl]
      rw [← hrun, hmore, Nat.succ_add]
      exact alone_next (producerStep_store hslots hlen hlt hinsert hm) rfl (by simp) _

/-- All accesses of `enqueue_mbufs`: a block write from position `base` on. -/
theorem alone_stores {k insert : Nat} {mbufs : List α} (hinsert : insert < 2 ^ k)
    (hle : insert ≤ mbufs.length) {q : MpscQueue α} (hslots : q.slots = 2 ^ k)
    (hlen : q.queue.length = 2 ^ k) (mode : Mode) (base head since fuel : Nat) :
    MpscQueue.alone (insert + fuel) q (storeOrLeave mode mbufs head insert since
        (Cursor.atStep (2 ^ k) base insert 0)) =
      MpscQueue.alone fuel
        { q with queue := blit q.queue (base % 2 ^ k) (mbufs.take insert) }
        (storeOrLeave mode mbufs head insert since (Cursor.atStep (2 ^ k) base insert insert)) := by
  obtain ⟨queue, hlen', hall, hrest, hrun⟩ :=
    alone_store hinsert hle mode base head since fuel insert (Nat.zero_add _) hslots hlen
      (fun i hi => absurd hi (Nat.not_lt_zero i))
  have htake : (mbufs.take insert).length = insert := List.length_take_of_le hle
  have hblit : queue = blit q.queue (base % 2 ^ k) (mbufs.take insert) := by
    rw [← hlen] at hinsert hlen' hrest ⊢
    have hmod : base % q.queue.length < q.queue.length := Nat.mod_lt _ (by omega)
    refine eq_of_cells ?_ base fun j hj => ?_
    · rw [hlen', length_blit (by omega) (by omega)]
    · rw [cell_blit (by omega) base (by omega), htake]
      by_cases hlt : j < insert
      · rw [if_pos hlt, hall j hlt, List.getElem?_take_of_lt hlt]
      · rw [if_neg hlt, hrest j (by omega) (by omega)]
  rw [hrun, hblit]

/-- The queue after a call that inserted the front of `mbufs`. -/
theorem Counters.inserted {k ct pt insert : Nat} {q : MpscQueue α} (h : Counters k ct ct pt pt q)
    {mbufs : List α} (hfree : pt + insert ≤ ct + (2 ^ k - 1)) (hle : insert ≤ mbufs.length)
    {q' : MpscQueue α}
    (hq' : q' = { q with
      producer := { head := wrappingAdd 64 (pt % 2 ^ 64) insert,
                    tail := wrappingAdd 64 (pt % 2 ^ 64) insert }
      queue := blit q.queue (pt % 2 ^ k) (mbufs.take insert) }) :
    Counters k ct ct (pt + insert) (pt + insert) q' ∧
      readable q' = readable q ++ mbufs.take insert := by
  have hk := h.two_pow_pos
  have hge := h.ch_le
  have hroom := h.room
  have hlen₀ := h.length_queue
  have hdvd : (2 : Nat) ^ k ∣ 2 ^ 64 := Nat.pow_dvd_pow 2 (Nat.le_of_lt h.lt)
  have hmod : wrappingAdd 64 (pt % 2 ^ 64) insert = (pt + insert) % 2 ^ 64 := Nat.mod_add_mod _ _ _
  have htake : (mbufs.take insert).length = insert := List.length_take_of_le hle
  have hidx : pt % 2 ^ k < 2 ^ k := Nat.mod_lt _ hk
  have hlen : (blit q.queue (pt % 2 ^ k) (mbufs.take insert)).length = 2 ^ k := by
    rw [length_blit (by omega) (by omega), hlen₀]
  have hcnt : Counters k ct ct (pt + insert) (pt + insert) q' := by
    subst hq'
    exact ⟨h.lt, h.slots_eq, h.mask_eq, hlen, h.consTail_eq, h.consHead_eq, hmod, hmod,
      Nat.le_refl _, by omega, Nat.le_refl _, hfree⟩
  refine ⟨hcnt, ?_⟩
  have htail : q'.consumer.tail = ct % 2 ^ 64 := hcnt.consTail_eq
  have hqueue : q'.queue = blit q.queue (pt % 2 ^ k) (mbufs.take insert) := by rw [hq']
  -- what was readable is still there, and what was stored comes after it
  have hcell : ∀ i, ct ≤ i → i < ct + 2 ^ k →
      cell (blit q.queue (pt % 2 ^ k) (mbufs.take insert)) i =
        if pt ≤ i ∧ i < pt + insert then (mbufs.take insert)[i - pt]? else cell q.queue i := by
    intro i hi hlt
    rw [← hlen₀] at hlt ⊢
    rw [cell_blit_window hge (by omega) hi hlt, htake]
  have hgrow := @window_extend _ q.queue (blit q.queue (pt % 2 ^ k) (mbufs.take insert))
    (mbufs.take insert) ct (pt - ct) (by omega) (by omega)
    (fun i hi => by rw [hcell _ (by omega) (by omega), if_neg (by omega)])
    (fun i hi => by
      rw [hcell _ (by omega) (by omega), if_pos (by omega)]
      congr 1
      omega)
  unfold readable
  rw [hcnt.readableCount_eq, h.readableCount_eq, htail, h.consTail_eq, hqueue,
    window_mod (hlen.symm ▸ hdvd), window_mod (hlen₀.symm ▸ hdvd), ← hgrow, htake]
  congr 1
  omega

/-- Behind the last slot: wait for one's turn, which has come, and commit. -/
theorem alone_leave (q : MpscQueue α) (mode : Mode) (mbufs : List α)
    (k base insert since fuel : Nat) :
    MpscQueue.alone (fuel + 2) q (storeOrLeave mode mbufs q.producer.tail insert since
        (Cursor.atStep (2 ^ k) base insert insert)) =
      .ok (insert, { q with
        producer := { q.producer with tail := wrappingAdd 64 q.producer.tail insert } }) := by
  have hcommit : ∀ fuel, MpscQueue.alone (fuel + 1) q (.commit mbufs q.producer.tail insert since) =
      .ok (insert, { q with
        producer := { q.producer with tail := wrappingAdd 64 q.producer.tail insert } }) :=
    fun fuel => @alone_return _ q (.commit mbufs q.producer.tail insert since) _ _ rfl rfl
      (by simp) fuel
  unfold storeOrLeave
  rw [Cursor.more_atStep (Nat.le_refl _), decide_eq_false (Nat.lt_irrefl _), if_neg (by decide)]
  cases mode with
  | sp => exact hcommit (fuel + 1)
  | mp =>
    have hwait : producerStep q 0 (.wait mbufs q.producer.tail insert since) =
        { pc := .commit mbufs q.producer.tail insert since, q := q } := by
      rw [producerStep, if_neg (fun h => h rfl)]
    dsimp only
    rw [alone_next hwait rfl (by simp)]
    exact hcommit fuel

/-- The accesses of a call that has found room, from the reservation on. What it
leaves behind does not depend on the mode. -/
theorem alone_reserve {k ct pt insert : Nat} {q : MpscQueue α} (h : Counters k ct ct pt pt q)
    {mbufs : List α} (hfree : pt + insert ≤ ct + (2 ^ k - 1)) (hle : insert ≤ mbufs.length)
    (mode : Mode) (since fuel : Nat) :
    MpscQueue.alone (insert + 3 + fuel) q (.reserve mode mbufs (pt % 2 ^ 64) insert since) =
      .ok (insert, { q with
        producer := { head := wrappingAdd 64 (pt % 2 ^ 64) insert,
                      tail := wrappingAdd 64 (pt % 2 ^ 64) insert }
        queue := blit q.queue (pt % 2 ^ k) (mbufs.take insert) }) := by
  have hk := h.two_pow_pos
  have hge := h.ch_le
  have hreserve : producerStep q 0 (.reserve mode mbufs (pt % 2 ^ 64) insert since) =
      reserved q mode mbufs (pt % 2 ^ 64) insert since := by
    cases mode with
    | sp => rfl
    | mp => rw [producerStep, if_pos h.prodHead_eq]
  have hbegin : Cursor.begin q.slots q.mask (pt % 2 ^ 64) insert =
      Cursor.atStep (2 ^ k) pt insert 0 := by
    rw [Cursor.begin_eq (h.masked pt) (by rw [h.slots_eq]; omega), h.slots_eq]
  have hstores := alone_stores (show insert < 2 ^ k by omega) hle
    (q := { q with producer := { q.producer with head := wrappingAdd 64 (pt % 2 ^ 64) insert } })
    h.slots_eq h.length_queue mode pt (pt % 2 ^ 64) since (fuel + 2)
  rw [show insert + 3 + fuel = (insert + (fuel + 2)) + 1 by omega,
    alone_next hreserve rfl (by simp)]
  unfold reserved
  dsimp only
  rw [hbegin, hstores]
  have hleave := alone_leave { q with
      producer := { q.producer with head := wrappingAdd 64 (pt % 2 ^ 64) insert }
      queue := blit q.queue (pt % 2 ^ k) (mbufs.take insert) } mode mbufs k pt insert since fuel
  dsimp only at hleave ⊢
  rw [h.prodTail_eq] at hleave ⊢
  exact hleave

/-- How many slots are free, from the true positions. -/
theorem Counters.room_eq {k ct pt : Nat} {q : MpscQueue α} (h : Counters k ct ct pt pt q) :
    q.room = ct + (2 ^ k - 1) - pt := by
  unfold MpscQueue.room
  rw [h.prodHead_eq]
  exact h.free_eq

/-- `enqueue_sp` and `enqueue_mp` take the front of the batch, as much as there is
room for, and leave the same queue. -/
theorem Counters.enqueueMode {k ct pt : Nat} {q : MpscQueue α} (h : Counters k ct ct pt pt q)
    (mbufs : List α) :
    ∃ q', (∀ mode fuel, mbufs.length + 5 ≤ fuel →
        MpscQueue.alone fuel q (.loadHead mode mbufs) = .ok (min q.room mbufs.length, q')) ∧
      q'.nProducers = q.nProducers ∧
      Counters k ct ct (pt + min q.room mbufs.length) (pt + min q.room mbufs.length) q' ∧
      readable q' = readable q ++ mbufs.take q.room := by
  have hroom := h.room_eq
  have hle := h.room
  have hhead : ∀ mode, producerStep q 0 (.loadHead mode mbufs) =
      { pc := .loadTail mode mbufs q.producer.head 0, q := q } := fun _ => rfl
  have htail : ∀ mode, producerStep q 0 (.loadTail mode mbufs q.producer.head 0) =
      if min q.room mbufs.length = 0 then { pc := .idle, q := q, returned := some (mbufs, 0) }
      else { pc := .reserve mode mbufs q.producer.head (min q.room mbufs.length) 0, q := q } :=
    fun _ => rfl
  have htake : mbufs.take (min q.room mbufs.length) = mbufs.take q.room :=
    List.take_eq_take_min.symm
  by_cases hzero : min q.room mbufs.length = 0
  · refine ⟨q, fun mode fuel hfuel => ?_, rfl, by rw [hzero]; exact h, ?_⟩
    · obtain ⟨n, rfl⟩ : ∃ n, fuel = n + 1 + 1 := ⟨fuel - 2, by omega⟩
      have htail := htail mode
      rw [if_pos hzero] at htail
      rw [alone_next (hhead mode) rfl (by simp), alone_return htail rfl (by simp),
        hzero]
    · rw [← htake, hzero, List.take_zero, List.append_nil]
  · obtain ⟨hcnt, hread⟩ := h.inserted
      (show pt + min q.room mbufs.length ≤ ct + (2 ^ k - 1) by omega)
      (Nat.min_le_right q.room mbufs.length) rfl
    refine ⟨_, fun mode fuel hfuel => ?_, ?_, hcnt, by rw [hread, htake]⟩
    swap
    · rfl
    obtain ⟨n, rfl⟩ : ∃ n, fuel = min q.room mbufs.length + 3 + n + 1 + 1 :=
      ⟨fuel - (min q.room mbufs.length + 5), by omega⟩
    have htail := htail mode
    rw [if_neg hzero] at htail
    rw [alone_next (hhead mode) rfl (by simp), alone_next htail rfl (by simp),
      h.prodHead_eq]
    exact alone_reserve h (by omega) (Nat.min_le_right q.room mbufs.length) mode 0 n

/-- With a producer registered `enqueue` is `enqueue_sp` or `enqueue_mp`. -/
theorem enqueue_eq_mode {q : MpscQueue α} (hreg : 1 ≤ q.nProducers) (mbufs : List α) :
    ∃ mode, ∀ fuel, q.enqueue (fuel + 1) mbufs =
      MpscQueue.alone fuel q (.loadHead mode mbufs) := by
  obtain ⟨mode, hmode⟩ : ∃ mode, producerStep q 0 (.loadProducers mbufs) =
      { pc := .loadHead mode mbufs, q := q } := by
    rw [producerStep, if_pos hreg]
    split
    · exact ⟨.sp, rfl⟩
    · exact ⟨.mp, rfl⟩
  exact ⟨mode, alone_next hmode rfl (by simp)⟩

/-- `enqueue` on a quiet queue takes the front of the batch, as much as there is
room for. -/
theorem Quiet.enqueue {q : MpscQueue α} (h : Quiet q) (mbufs : List α) {fuel : Nat}
    (hfuel : mbufs.length + 6 ≤ fuel) :
    ∃ q', q.enqueue fuel mbufs = .ok (min q.room mbufs.length, q') ∧ Quiet q' ∧
      readable q' = readable q ++ mbufs.take q.room ∧ q'.room = q.room - mbufs.length ∧
      q'.slots = q.slots := by
  obtain ⟨hreg, k, ct, pt, hcnt⟩ := h
  have hroom := hcnt.room_eq
  have hle := hcnt.room
  obtain ⟨q', hrun, hreg', hcnt', hread⟩ := hcnt.enqueueMode mbufs
  obtain ⟨mode, hmode⟩ := enqueue_eq_mode hreg mbufs
  refine ⟨q', ?_, ⟨hreg' ▸ hreg, k, ct, _, hcnt'⟩, hread, ?_,
    hcnt'.slots_eq.trans hcnt.slots_eq.symm⟩
  · obtain ⟨n, rfl⟩ : ∃ n, fuel = n + 1 := ⟨fuel - 1, by omega⟩
    rw [hmode]
    exact hrun mode n (by omega)
  · rw [hcnt'.room_eq]
    omega

/-- The vector of packets is empty afterwards, whatever the queue has taken. -/
theorem Quiet.enqueuePackets {q : MpscQueue Ptr} (h : Quiet q) (packets : List Packet) {fuel : Nat}
    (hfuel : packets.length + 6 ≤ fuel) :
    ∃ n q', MpscProducer.enqueue fuel q packets = .ok (n, q', []) ∧
      readable q' = readable q ++ (packets.map (·.mbuf)).take q.room := by
  rw [← List.length_map (·.mbuf)] at hfuel
  obtain ⟨q', hrun, -, hread, -, -⟩ := h.enqueue (packets.map (·.mbuf)) hfuel
  refine ⟨min q.room (packets.map (·.mbuf)).length, q', ?_, hread⟩
  unfold MpscProducer.enqueue
  dsimp only
  rw [hrun]
  rfl

theorem Quiet.enqueueOne {q : MpscQueue α} (h : Quiet q) (mbuf : α) {fuel : Nat}
    (hfuel : 7 ≤ fuel) :
    ∃ r q', q.enqueueOne fuel mbuf = .ok (r, q') ∧ Quiet q' ∧
      readable q' = readable q ++ [mbuf].take q.room ∧ q'.room = q.room - 1 ∧
      q'.slots = q.slots := by
  obtain ⟨q', hrun, hquiet, hread, hroom, hslots⟩ := h.enqueue [mbuf] hfuel
  refine ⟨min q.room 1 == 1, q', ?_, hquiet, hread, hroom, hslots⟩
  unfold MpscQueue.enqueueOne
  rw [hrun]
  rfl

end NetBricks.Queues
