import NetBricks.Lib.Machine
import NetBricks.Queues.MpscProducer

/-!
# The queue used by one thread is a bounded FIFO

`MpscQueue` of `src/framework/src/queues/mpsc_mbuf_queue.rs`, with its calls made
one after the other. `dequeue` is the sequence of the consumer's accesses with
nothing in between (`drain`), as `enqueue` is for a producer in
`NetBricks.Queues.MpscProducer`.

What the queue is for is a list of at most `2 ^ k - 1` mbufs (`Fifo.step`): new
ones go to the back as far as there is room, and the oldest ones come out first.
Main result: `mpscQueue_refines_fifo` — on a new queue of any size, with any
number of producers registered, every run of calls returns what the list returns,
and `enqueue_sp` and `enqueue_mp` are the same function of every queue the run
leads to. The counters behind the slots are `usize`s; `Counters` carries the true
positions, so a wrapped counter is no special case here.

Mirroring notes:

* A slot index out of range is a panic of the model (`Fault.index`), so a run that
  returns has stayed inside the vector.
* `dequeue` writes the front of the caller's slice and leaves the rest of it; the
  model returns the slice with the count.
-/

namespace NetBricks.Queues

open Lib

variable {α : Type}

/-! ## A call of `dequeue` -/

/-- What `dequeue` returns, and the caller's slice, if the access at this point is
the last of the call. -/
def ConsumerPc.result : ConsumerPc α → Option (Nat × List α)
  | .loadTail mbufs _ => some (0, mbufs)
  | .commit mbufs _ dequeue => some (dequeue, mbufs)
  | _ => none

namespace MpscQueue

/-- The rest of a call of `dequeue`, with no other access in between. -/
def drain : Nat → MpscQueue α → ConsumerPc α → Outcome ((Nat × List α) × MpscQueue α)
  | _, _, .panicked why => .panic why
  | 0, _, _ => .timeout
  | fuel + 1, q, pc =>
    let e := consumerStep q pc
    match e.pc, pc.result with
    | .idle, some r => .ok (r, e.q)
    | pc', _ => drain fuel e.q pc'

/-- `dequeue`. -/
def dequeue (fuel : Nat) (q : MpscQueue α) (mbufs : List α) :
    Outcome ((Nat × List α) × MpscQueue α) :=
  drain fuel q (.loadHead mbufs)

/-- `enqueue_sp`. -/
def enqueueSp (fuel : Nat) (q : MpscQueue α) (mbufs : List α) : Outcome (Nat × MpscQueue α) :=
  alone fuel q (.loadHead .sp mbufs)

/-- `enqueue_mp`. -/
def enqueueMp (fuel : Nat) (q : MpscQueue α) (mbufs : List α) : Outcome (Nat × MpscQueue α) :=
  alone fuel q (.loadHead .mp mbufs)

end MpscQueue

/-- A call of `dequeue` goes on with the next access. -/
theorem drain_next {q : MpscQueue α} {pc : ConsumerPc α} {e : ConsumerEffect α}
    (he : consumerStep q pc = e) (hidle : e.pc ≠ .idle) (hpc : ∀ why, pc ≠ .panicked why)
    (fuel : Nat) : MpscQueue.drain (fuel + 1) q pc = MpscQueue.drain fuel e.q e.pc := by
  rw [MpscQueue.drain, he]
  · split
    · exact absurd ‹e.pc = .idle› hidle
    · rfl
  · exact hpc

theorem drain_return {q : MpscQueue α} {pc : ConsumerPc α} {e : ConsumerEffect α}
    {r : Nat × List α} (he : consumerStep q pc = e) (hidle : e.pc = .idle)
    (hr : pc.result = some r) (hpc : ∀ why, pc ≠ .panicked why) (fuel : Nat) :
    MpscQueue.drain (fuel + 1) q pc = .ok (r, e.q) := by
  rw [MpscQueue.drain, he, hidle, hr]
  exact hpc

/-- One round of the copy: the slice holds one more slot. -/
theorem set_window_append {v slice : List α} {m : α} {p j : Nat} (hj : j < v.length)
    (hslice : j < slice.length) (hm : cell v (p + j) = some m) :
    (window v p j ++ slice.drop j).set j m = window v p (j + 1) ++ slice.drop (j + 1) := by
  have hlen : (window v p j).length = j := length_window (by omega) p
  have hone : [m] = window v (p + j) 1 := eq_window (l := [m]) (by simp; omega) (by
    intro i hi
    obtain rfl : i = 0 := by simpa using hi
    exact hm.symm)
  rw [List.set_append_right _ _ (by omega), hlen, Nat.sub_self, List.drop_eq_getElem_cons hslice,
    List.set_cons_zero, ← window_append (by omega) p, ← hone, List.append_assoc,
    List.singleton_append]

theorem loadOrLeave_ne_idle (mbufs : List α) (head count : Nat) (c : Cursor) :
    loadOrLeave mbufs head count c ≠ .idle := by
  unfold loadOrLeave
  split
  · simp
  · simp

/-- The accesses of `dequeue_mbufs` from iteration `j` on: the slots from position
`base` on get into the front of the slice. -/
theorem drain_loads {k count : Nat} {slice : List α} (hcount : count < 2 ^ k)
    (hle : count ≤ slice.length) {q : MpscQueue α} (hslots : q.slots = 2 ^ k)
    (hlen : q.queue.length = 2 ^ k) (base head fuel : Nat) :
    ∀ (n : Nat) {j : Nat}, j + n = count →
      MpscQueue.drain (n + fuel) q (loadOrLeave (window q.queue base j ++ slice.drop j) head count
          (Cursor.atStep (2 ^ k) base count j)) =
        MpscQueue.drain fuel q
          (.commit (window q.queue base count ++ slice.drop count) head count) := by
  intro n
  induction n with
  | zero =>
    intro j hj
    obtain rfl : j = count := hj
    unfold loadOrLeave
    rw [Cursor.more_atStep (Nat.le_refl _), decide_eq_false (Nat.lt_irrefl _),
      if_neg (by decide), Nat.zero_add]
  | succ n ih =>
    intro j hj
    have hlt : j < count := by omega
    obtain ⟨m, hm⟩ := cell_isSome (v := q.queue) (by omega) (base + j)
    have hget : q.queue[(base + j) % 2 ^ k]? = some m := by
      rw [← hm, cell, hlen]
    have hslice : j < (window q.queue base j ++ slice.drop j).length := by
      rw [List.length_append, length_window (by omega), List.length_drop]
      omega
    have hload : loadOrLeave (window q.queue base j ++ slice.drop j) head count
          (Cursor.atStep (2 ^ k) base count j) =
        .load (window q.queue base j ++ slice.drop j) head count
          (Cursor.atStep (2 ^ k) base count j) := by
      unfold loadOrLeave
      rw [Cursor.more_atStep (by omega), decide_eq_true hlt, if_pos rfl]
    have hstep : consumerStep q (.load (window q.queue base j ++ slice.drop j) head count
          (Cursor.atStep (2 ^ k) base count j)) =
        { pc := loadOrLeave (window q.queue base (j + 1) ++ slice.drop (j + 1)) head count
            (Cursor.atStep (2 ^ k) base count (j + 1))
          q := q } := by
      rw [consumerStep]
      unfold Cursor.atStep at hget ⊢
      rw [hget]
      dsimp only
      rw [if_pos hslice, set_window_append (by omega) (by omega) hm, hslots]
      exact congrArg (fun c => ({ pc := loadOrLeave _ head count c, q := q } : ConsumerEffect α))
        (Cursor.next_atStep hlt hcount)
    rw [hload, Nat.succ_add, drain_next hstep (loadOrLeave_ne_idle _ _ _ _)
      (by simp)]
    exact ih (by omega)

/-- The accesses of a call that has found mbufs, from the reservation on. -/
theorem drain_reserve {k ct pt count : Nat} {q : MpscQueue α} (h : Counters k ct ct pt pt q)
    {slice : List α} (hcount : ct + count ≤ pt) (hle : count ≤ slice.length) (fuel : Nat) :
    MpscQueue.drain (count + 2 + fuel) q (.reserve slice (ct % 2 ^ 64) count) =
      .ok ((count, window q.queue ct count ++ slice.drop count),
        { q with consumer := { head := wrappingAdd 64 (ct % 2 ^ 64) count,
                               tail := wrappingAdd 64 (ct % 2 ^ 64) count } }) := by
  have hk := h.two_pow_pos
  have hroom := h.room
  have hbegin : Cursor.begin q.slots q.mask (ct % 2 ^ 64) count =
      Cursor.atStep (2 ^ k) ct count 0 := by
    rw [Cursor.begin_eq (h.masked ct) (by rw [h.slots_eq]; omega), h.slots_eq]
  have hreserve : consumerStep q (.reserve slice (ct % 2 ^ 64) count) =
      { pc := loadOrLeave slice (ct % 2 ^ 64) count (Cursor.atStep (2 ^ k) ct count 0)
        q := { q with
          consumer := { q.consumer with head := wrappingAdd 64 (ct % 2 ^ 64) count } } } := by
    rw [consumerStep, hbegin]
  have hloads := drain_loads (show count < 2 ^ k by omega) hle
    (q := { q with consumer := { q.consumer with head := wrappingAdd 64 (ct % 2 ^ 64) count } })
    h.slots_eq h.length_queue ct (ct % 2 ^ 64) (fuel + 1) count (Nat.zero_add _)
  rw [show window q.queue ct 0 ++ slice.drop 0 = slice from rfl] at hloads
  rw [show count + 2 + fuel = count + (fuel + 1) + 1 by omega,
    drain_next hreserve (loadOrLeave_ne_idle _ _ _ _) (by simp)]
  dsimp only
  rw [hloads]
  refine drain_return rfl rfl rfl ?_ fuel
  simp

/-- The queue after a call that took the front of it. -/
theorem Counters.released {k ct pt count : Nat} {q : MpscQueue α} (h : Counters k ct ct pt pt q)
    (hcount : ct + count ≤ pt) {q' : MpscQueue α}
    (hq' : q' = { q with
      consumer := { head := wrappingAdd 64 (ct % 2 ^ 64) count,
                    tail := wrappingAdd 64 (ct % 2 ^ 64) count } }) :
    Counters k (ct + count) (ct + count) pt pt q' := by
  have hroom := h.room
  have hmod : wrappingAdd 64 (ct % 2 ^ 64) count = (ct + count) % 2 ^ 64 := Nat.mod_add_mod _ _ _
  subst hq'
  exact ⟨h.lt, h.slots_eq, h.mask_eq, h.length_queue, hmod, hmod, h.prodTail_eq, h.prodHead_eq,
    Nat.le_refl _, hcount, Nat.le_refl _, by omega⟩

/-- The readable mbufs, from the true positions. -/
theorem Counters.readable_eq {k ct ch pt ph : Nat} {q : MpscQueue α}
    (h : Counters k ct ch pt ph q) :
    readable q = window q.queue ct (pt - ct) := by
  have hdvd : q.queue.length ∣ 2 ^ 64 :=
    h.length_queue.symm ▸ Nat.pow_dvd_pow 2 (Nat.le_of_lt h.lt)
  rw [readable, h.readableCount_eq, h.consTail_eq, window_mod hdvd]

/-- Copying as much of `l` to the front of `slice` as fits. -/
theorem take_append_drop_min (l slice : List α) :
    l.take slice.length ++ slice.drop l.length =
      l.take (min slice.length l.length) ++ slice.drop (min slice.length l.length) := by
  rw [← List.take_eq_take_min]
  congr 1
  rcases Nat.le_total slice.length l.length with h | h
  · rw [Nat.min_eq_left h, List.drop_of_length_le h, List.drop_length]
  · rw [Nat.min_eq_right h]

/-- `dequeue` on a queue on which nothing else moves takes the oldest mbufs, as
many as the slice has room for. -/
theorem Counters.dequeue {k ct pt : Nat} {q : MpscQueue α} (h : Counters k ct ct pt pt q)
    (slice : List α) {fuel : Nat} (hfuel : slice.length + 4 ≤ fuel) :
    ∃ q', q.dequeue fuel slice =
        .ok ((min slice.length (readable q).length,
          (readable q).take slice.length ++ slice.drop (readable q).length), q') ∧
      q'.nProducers = q.nProducers ∧ readable q' = (readable q).drop slice.length ∧
      ∃ ct', Counters k ct' ct' pt pt q' := by
  have hroom := h.room
  have hge := h.ch_le
  have hlen := h.length_queue
  have hread := h.readable_eq
  have hcount : (readable q).length = pt - ct := by
    rw [hread]
    exact length_window (by omega) ct
  have hslice := take_append_drop_min (readable q) slice
  have hrest : (readable q).drop slice.length =
      (readable q).drop (min slice.length (readable q).length) := List.drop_eq_drop_min
  rw [hslice, hrest, hcount]
  generalize hn : min slice.length (pt - ct) = n
  rw [hread, window_take (by omega), window_drop (by omega) (by omega)]
  have hhead : consumerStep q (.loadHead slice) =
      { pc := .loadTail slice (ct % 2 ^ 64), q := q } := by
    rw [consumerStep, h.consHead_eq]
  have havail : wrappingSub 64 q.producer.tail (ct % 2 ^ 64) = pt - ct := by
    rw [← h.consTail_eq]
    exact h.readableCount_eq
  have htail : consumerStep q (.loadTail slice (ct % 2 ^ 64)) =
      if n > 0 then { pc := .reserve slice (ct % 2 ^ 64) n, q := q }
      else { pc := .idle, q := q } := by
    rw [consumerStep, havail, hn]
  obtain ⟨rest, rfl⟩ : ∃ rest, fuel = n + 2 + rest + 1 + 1 := ⟨fuel - (n + 4), by omega⟩
  rw [MpscQueue.dequeue, drain_next hhead (by simp) (by simp)]
  by_cases hpos : n > 0
  · rw [if_pos hpos] at htail
    have hle : ct + n ≤ pt := by omega
    have hcnt := h.released hle rfl
    rw [drain_next htail (by simp) (by simp), drain_reserve h hle (by omega)]
    refine ⟨_, rfl, rfl, ?_, _, hcnt⟩
    rw [hcnt.readable_eq, Nat.sub_sub]
  · rw [if_neg hpos] at htail
    obtain rfl : n = 0 := by omega
    refine ⟨q, ?_, rfl, hread, ct, h⟩
    rw [drain_return htail rfl rfl (by simp)]
    rfl

/-! ## The list the queue is for -/

/-- The calls on the queue; `dequeue` is given the caller's slice. -/
inductive QueueOp (α : Type) where
  | enqueue (mbufs : List α)
  | dequeue (mbufs : List α)
  deriving DecidableEq, Repr

/-- What a call returns; `dequeue` with the slice as it is afterwards. -/
inductive QueueResult (α : Type) where
  | enqueued (n : Nat)
  | dequeued (n : Nat) (mbufs : List α)
  deriving DecidableEq, Repr

/-- The batch, or the slice, of a call. -/
def QueueOp.mbufs : QueueOp α → List α
  | .enqueue mbufs => mbufs
  | .dequeue mbufs => mbufs

/-- One call on the queue. -/
def MpscQueue.call (fuel : Nat) (q : MpscQueue α) :
    QueueOp α → Outcome (QueueResult α × MpscQueue α)
  | .enqueue mbufs => do
    let (n, q) ← q.enqueue fuel mbufs
    .ok (.enqueued n, q)
  | .dequeue mbufs => do
    let ((n, mbufs), q) ← q.dequeue fuel mbufs
    .ok (.dequeued n mbufs, q)

/-- The same call on a list of at most `cap` mbufs, oldest first: `enqueue` takes
the front of the batch that fits, `dequeue` gives the oldest ones that fit the
slice and leaves the rest of the slice. -/
def Fifo.step (cap : Nat) (held : List α) : QueueOp α → QueueResult α × List α
  | .enqueue mbufs =>
    (.enqueued (min mbufs.length (cap - held.length)), held ++ mbufs.take (cap - held.length))
  | .dequeue mbufs =>
    (.dequeued (min mbufs.length held.length)
      (held.take mbufs.length ++ mbufs.drop held.length), held.drop mbufs.length)

/-- A queue of `2 ^ k` slots with a registered producer, on which no call is under
way, holds `held`. -/
structure Queued (k : Nat) (q : MpscQueue α) (held : List α) : Prop where
  registered : 1 ≤ q.nProducers
  readable_eq : readable q = held
  counters : ∃ ct pt, Counters k ct ct pt pt q

/-- What is left of the capacity is what `enqueue` computes as free. -/
theorem Queued.room_eq {k : Nat} {q : MpscQueue α} {held : List α} (h : Queued k q held) :
    q.room = 2 ^ k - 1 - held.length := by
  obtain ⟨ct, pt, hcnt⟩ := h.counters
  have hge := hcnt.ch_le
  have hroom := hcnt.room
  have hpos := hcnt.two_pow_pos
  have hlenq := hcnt.length_queue
  have hlen : held.length = pt - ct := by
    rw [← h.readable_eq, hcnt.readable_eq]
    exact length_window (by omega) ct
  rw [hcnt.room_eq, hlen]
  omega

/-- Both ways to enqueue do on the queue what `Fifo.step` does on the list, and
leave the same queue. -/
theorem Queued.enqueueMode {k : Nat} {q : MpscQueue α} {held : List α} (h : Queued k q held)
    (mbufs : List α) :
    ∃ q', (∀ mode fuel, mbufs.length + 5 ≤ fuel →
        MpscQueue.alone fuel q (.loadHead mode mbufs) =
          .ok (min mbufs.length (2 ^ k - 1 - held.length), q')) ∧
      Queued k q' (held ++ mbufs.take (2 ^ k - 1 - held.length)) := by
  obtain ⟨ct, pt, hcnt⟩ := h.counters
  obtain ⟨q', hrun, hreg, hcnt', hread⟩ := hcnt.enqueueMode mbufs
  rw [h.room_eq, Nat.min_comm] at hrun
  refine ⟨q', hrun, hreg ▸ h.registered, ?_, ct, _, hcnt'⟩
  rw [hread, h.readable_eq, h.room_eq]

/-- A call with enough fuel returns what it returns on the list. -/
theorem call_queued (k fuel : Nat) (q : MpscQueue α) (held : List α) (op : QueueOp α)
    (h : Queued k q held) (hfuel : op.mbufs.length + 6 ≤ fuel) :
    ∃ q', q.call fuel op = .ok ((Fifo.step (2 ^ k - 1) held op).1, q') ∧
      Queued k q' (Fifo.step (2 ^ k - 1) held op).2 := by
  cases op with
  | enqueue mbufs =>
    have hfuel : mbufs.length + 6 ≤ fuel := hfuel
    obtain ⟨q', hrun, h'⟩ := h.enqueueMode mbufs
    obtain ⟨mode, hmode⟩ := enqueue_eq_mode h.registered mbufs
    obtain ⟨n, rfl⟩ : ∃ n, fuel = n + 1 := ⟨fuel - 1, by omega⟩
    refine ⟨q', ?_, h'⟩
    simp only [MpscQueue.call, hmode, hrun mode n (by omega), Outcome.bind_ok, Fifo.step]
  | dequeue mbufs =>
    have hfuel : mbufs.length + 6 ≤ fuel := hfuel
    obtain ⟨ct, pt, hcnt⟩ := h.counters
    obtain ⟨q', hrun, hreg, hread, ct', hcnt'⟩ :=
      hcnt.dequeue mbufs (show mbufs.length + 4 ≤ fuel by omega)
    rw [h.readable_eq] at hrun hread
    refine ⟨q', ?_, hreg ▸ h.registered, hread, ct', pt, hcnt'⟩
    simp only [MpscQueue.call, hrun, Outcome.bind_ok, Fifo.step]

/-- `new` rounds the size up to a power of two of slots. -/
theorem new_slots [Inhabited α] {k size : Nat} (hk : k < 64) (hle : size ≤ 2 ^ k)
    (hlt : 2 ^ k < 2 * size) :
    ∃ q : MpscQueue α, MpscQueue.new size = .ok q ∧ q.slots = 2 ^ k := by
  have hpos := Nat.two_pow_pos k
  have hslots : (if size &&& (size - 1) ≠ 0 then roundToPowerOf2 size else size) = 2 ^ k := by
    by_cases hand : size &&& (size - 1) ≠ 0
    · have htwo : size ≠ 1 := by
        rintro rfl
        exact hand rfl
      rw [if_pos hand]
      exact roundToPowerOf2_of_le (by omega) hk hle hlt
    · obtain ⟨j, rfl⟩ := (Nat.and_sub_one_eq_zero_iff_isPowerOfTwo (by omega)).mp
        (Decidable.not_not.mp hand)
      rw [if_neg hand, two_pow_unique (Nat.le_refl _) (by omega) hle hlt]
  refine ⟨{ slots := 2 ^ k, mask := 2 ^ k - 1, queue := List.replicate (2 ^ k) default,
            producer := { head := 0, tail := 0 }, consumer := { head := 0, tail := 0 },
            nProducers := 0 }, ?_, rfl⟩
  unfold MpscQueue.new
  rw [checkedSub_of_le (show 1 ≤ size by omega), Outcome.bind_ok]
  dsimp only
  rw [hslots, checkedSub_of_le hpos]
  rfl

/-- Registering producers on a new queue leaves it empty. -/
theorem queued_new [Inhabited α] {k size : Nat} {q : MpscQueue α} (hk : k < 64)
    (hle : size ≤ 2 ^ k) (hnew : MpscQueue.new size = .ok q) (hslots : q.slots = 2 ^ k)
    {producers : Nat} (hprod : 1 ≤ producers) :
    Queued k (MpscQueue.referenceProducers^[producers] q) [] := by
  have hbound : 2 ^ k < 2 ^ 64 := Nat.pow_lt_pow_right (by decide) hk
  obtain ⟨j, hcnt, hn, -⟩ := counters_of_new (by omega) hnew
  obtain rfl : j = k := Nat.pow_right_injective (Nat.le_refl 2) (hcnt.slots_eq.symm.trans hslots)
  rw [referenceProducers_iterate]
  have hcnt' : Counters j 0 0 0 0 { q with nProducers := q.nProducers + producers } :=
    ⟨hcnt.lt, hcnt.slots_eq, hcnt.mask_eq, hcnt.length_queue, hcnt.consTail_eq, hcnt.consHead_eq,
      hcnt.prodTail_eq, hcnt.prodHead_eq, hcnt.ct_le, hcnt.ch_le, hcnt.pt_le, hcnt.room⟩
  refine ⟨?_, ?_, 0, 0, hcnt'⟩
  · show 1 ≤ q.nProducers + producers
    omega
  · rw [hcnt'.readable_eq]
    rfl

/-- **The queue is a bounded FIFO.** On a new queue of any size, rounded up to
`2 ^ k` slots, with any number of producers registered: every run of calls returns
what the list of at most `2 ^ k - 1` mbufs returns, the queue then holds that list,
and `enqueue_sp` and `enqueue_mp` of any batch return the same number from there
and leave the same queue. -/
theorem mpscQueue_refines_fifo [Inhabited α] {k size producers : Nat} (hk : k < 64)
    (hle : size ≤ 2 ^ k) (hlt : 2 ^ k < 2 * size) (hprod : 1 ≤ producers) :
    ∃ q : MpscQueue α, MpscQueue.new size = .ok q ∧ q.slots = 2 ^ k ∧
      ∀ (fuel : Nat) (ops : List (QueueOp α)), (∀ op ∈ ops, op.mbufs.length + 6 ≤ fuel) →
        ∃ q', runOps (MpscQueue.call fuel) (MpscQueue.referenceProducers^[producers] q) ops =
            .ok ((runSpec (Fifo.step (2 ^ k - 1)) [] ops).1, q') ∧
          readable q' = (runSpec (Fifo.step (2 ^ k - 1)) [] ops).2 ∧
          ∀ (fuel : Nat) (mbufs : List α), mbufs.length + 5 ≤ fuel → ∃ n q'',
            q'.enqueueSp fuel mbufs = .ok (n, q'') ∧ q'.enqueueMp fuel mbufs = .ok (n, q'') := by
  obtain ⟨q, hnew, hslots⟩ := new_slots (α := α) hk hle hlt
  refine ⟨q, hnew, hslots, fun fuel ops hfuel => ?_⟩
  have hlegal : LegalRun (Fifo.step (2 ^ k - 1)) (fun _ op => op.mbufs.length + 6 ≤ fuel)
      ([] : List α) ops := legalRun_of_forall ops [] hfuel
  obtain ⟨q', hrun, h'⟩ := runOps_simulates (R := Queued k)
    (call_queued k fuel) ops (queued_new hk hle hnew hslots hprod) hlegal
  refine ⟨q', hrun, h'.readable_eq, fun fuel mbufs hfuel => ?_⟩
  obtain ⟨q'', hmode, -⟩ := h'.enqueueMode mbufs
  exact ⟨_, q'', hmode .sp fuel hfuel, hmode .mp fuel hfuel⟩

/-- Three slots asked for, two producers: a batch that does not fit, and calls that
go around the end of the four slots. -/
theorem mpscQueue_refines_fifo_around :
    ∃ q q' : MpscQueue Nat, MpscQueue.new 3 = .ok q ∧ q.slots = 4 ∧
      runOps (MpscQueue.call 10) (MpscQueue.referenceProducers^[2] q)
          [.enqueue [1, 2, 3, 4], .dequeue [0, 0], .enqueue [5, 6], .dequeue [0, 0, 0, 0]] =
        .ok ([.enqueued 3, .dequeued 2 [1, 2], .enqueued 2, .dequeued 3 [3, 5, 6, 0]], q') ∧
      q'.enqueueSp 6 [7] = q'.enqueueMp 6 [7] := by
  obtain ⟨q, hnew, hslots, hrun⟩ := mpscQueue_refines_fifo (α := Nat) (k := 2)
    (show 2 < 64 by decide) (show 3 ≤ 2 ^ 2 by decide) (by decide) (show 1 ≤ 2 by decide)
  obtain ⟨q', hrun, -, hsame⟩ := hrun 10
    [.enqueue [1, 2, 3, 4], .dequeue [0, 0], .enqueue [5, 6], .dequeue [0, 0, 0, 0]] (by decide)
  obtain ⟨n, q'', hsp, hmp⟩ := hsame 6 [7] (by decide)
  exact ⟨q, q', hnew, hslots, hrun, hsp.trans hmp.symm⟩

end NetBricks.Queues
