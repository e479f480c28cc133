import Mathlib.Logic.Relation
import Mathlib.Logic.Function.Basic
import NetBricks.Common
import NetBricks.Lib.Circular

/-!
# The multi-producer single-consumer queue, one atomic access at a time

`src/framework/src/queues/mpsc_mbuf_queue.rs`. A producer reserves slots by
advancing `producer.head`, stores its mbufs into them one by one, and commits
by advancing `producer.tail`; the consumer does the same on its side. With one
producer registered the head is simply stored, with more it is advanced by
compare-and-swap and the commit waits for earlier reservations.

A thread is a program counter that carries the locals live at that point; one
step is one atomic load, store or compare-exchange, followed by the local
computation up to the next access (`producerStep`, `consumerStep`). `Sys` puts
the threads around one queue and `Step` lets any of them move.

Mirroring notes:

* Every access is sequentially consistent, so the `Ordering` arguments are gone.
* `enqueue_mbufs` and `dequeue_mbufs` run the same two loops — up to the end of
  the vector, then from its front. `Cursor` is their loop state.
* `queue_idx + enqueue` stays below twice the number of slots and is not
  reduced; `n_producers` counts live handles and is not reduced either.
* `pause` does nothing.
* `since` in a producer's program counter is a history variable, not part of
  the code: the number of mbufs reserved when the head was loaded, so the
  unbounded value the loaded head stands for. The fields of `Sys` below
  `consumer` are histories too. No access reads any of them.
-/

namespace NetBricks.Queues

open Lib

variable {α : Type} {P : Nat}

/-! ## The shared queue -/

structure QueueMetadata where
  head : Nat
  tail : Nat
  deriving DecidableEq, Repr

/-- `MpscQueue`, over any type of mbuf pointers; `default` is the null pointer. -/
structure MpscQueue (α : Type) where
  slots : Nat
  mask : Nat
  producer : QueueMetadata
  consumer : QueueMetadata
  queue : List α
  nProducers : Nat
  deriving DecidableEq, Repr

namespace MpscQueue

/-- `MpscQueue::new`. -/
def new [Inhabited α] (size : Nat) : Outcome (MpscQueue α) := do
  let less ← checkedSub size 1
  let slots := if size &&& less ≠ 0 then roundToPowerOf2 size else size
  let mask ← checkedSub slots 1
  .ok { slots := slots
        mask := mask
        queue := List.replicate slots default
        producer := { head := 0, tail := 0 }
        consumer := { head := 0, tail := 0 }
        nProducers := 0 }

/-- `reference_producers`. -/
def referenceProducers (q : MpscQueue α) : MpscQueue α := { q with nProducers := q.nProducers + 1 }

end MpscQueue

/-! ## The two copy loops -/

/-- The state of the loops of `enqueue_mbufs` and `dequeue_mbufs`. `toEnd` says
that the first loop, up to the end of the vector, is running. -/
structure Cursor where
  mbufIdx : Nat
  queueIdx : Nat
  toEnd : Bool
  deriving DecidableEq, Repr

namespace Cursor

/-- Leave the first loop when it has reached the end of the vector. -/
def settle (len : Nat) (c : Cursor) : Cursor :=
  if c.toEnd = true ∧ ¬ c.queueIdx < len then { c with queueIdx := 0, toEnd := false } else c

/-- Before the first iteration. -/
def begin (len mask start count : Nat) : Cursor :=
  settle len { mbufIdx := 0, queueIdx := start &&& mask,
               toEnd := decide ((start &&& mask) + count ≥ len) }

/-- After one iteration of either loop. -/
def next (len : Nat) (c : Cursor) : Cursor :=
  settle len { c with mbufIdx := c.mbufIdx + 1, queueIdx := c.queueIdx + 1 }

/-- There is another iteration. -/
def more (count : Nat) (c : Cursor) : Bool := c.toEnd || decide (c.mbufIdx < count)

/-- Where the loops are before iteration `j` of a copy of `count` slots from
position `base`. -/
def atStep (len base count j : Nat) : Cursor :=
  { mbufIdx := j
    queueIdx := (base + j) % len
    toEnd := decide (base % len + j < len ∧ len ≤ base % len + count) }

theorem begin_eq {len mask start base count : Nat} (hstart : start &&& mask = base % len)
    (hcount : count < len) : begin len mask start count = atStep len base count 0 := by
  have hb : base % len < len := Nat.mod_lt _ (by omega)
  unfold begin settle atStep
  rw [hstart, if_neg (fun h => h.2 hb), Nat.add_zero, Nat.add_zero]
  congr 1
  exact decide_eq_decide.mpr ⟨fun h => ⟨hb, h⟩, fun h => h.2⟩

theorem next_atStep {len base count j : Nat} (hj : j < count) (hcount : count < len) :
    next len (atStep len base count j) = atStep len base count (j + 1) := by
  have hb : base % len < len := Nat.mod_lt _ (by omega)
  have hidx := add_mod_cases (n := len) (p := base) (j := j) (by omega)
  have hidx' := add_mod_cases (n := len) (p := base) (j := j + 1) (by omega)
  unfold next settle atStep
  dsimp only
  rw [hidx, hidx']
  by_cases hwrap : len ≤ base % len + count
  · by_cases hin : base % len + j < len
    · by_cases hin' : base % len + (j + 1) < len
      · rw [if_pos hin, if_pos hin', if_neg (fun h => h.2 (by omega))]
        simp only [hin, hin', hwrap]
        rfl
      · -- the first loop ends here: the next slot is the front of the vector
        rw [if_pos hin, if_neg hin', if_pos ⟨by simp [hin, hwrap], by omega⟩]
        simp only [hin', false_and, decide_false, Cursor.mk.injEq, true_and, and_true]
        omega
    · have hin' : ¬ base % len + (j + 1) < len := by omega
      rw [if_neg hin, if_neg hin', if_neg (fun h => by simp [hin] at h)]
      simp only [hin, hin', false_and, decide_false, Cursor.mk.injEq, true_and, and_true]
      omega
  · have hin : base % len + j < len := by omega
    have hin' : base % len + (j + 1) < len := by omega
    rw [if_pos hin, if_pos hin', if_neg (fun h => by simp [hwrap] at h)]
    simp only [hwrap, and_false]
    rfl

theorem more_atStep {len base count j : Nat} (hj : j ≤ count) :
    more count (atStep len base count j) = decide (j < count) := by
  unfold more atStep
  dsimp only
  by_cases h : j < count
  · simp [h]
  · have hno : ¬ (base % len + j < len ∧ len ≤ base % len + count) := by omega
    simp [h, hno]

end Cursor

/-! ## A producer -/

/-- `enqueue_sp` or `enqueue_mp`. -/
inductive Mode where
  | sp
  | mp
  deriving DecidableEq, Repr

/-- Where a producer is: between calls, or about to make the named access. -/
inductive ProducerPc (α : Type) where
  | idle
  /-- `enqueue`: load `n_producers`. -/
  | loadProducers (mbufs : List α)
  | loadHead (mode : Mode) (mbufs : List α)
  /-- Load `consumer.tail`. -/
  | loadTail (mode : Mode) (mbufs : List α) (head since : Nat)
  /-- Store, or compare-and-swap, `producer.head`. -/
  | reserve (mode : Mode) (mbufs : List α) (head insert since : Nat)
  /-- `enqueue_mbufs`: store into the slot the cursor is at. -/
  | store (mode : Mode) (mbufs : List α) (head insert since : Nat) (c : Cursor)
  /-- Load `producer.tail` and compare. -/
  | wait (mbufs : List α) (head insert since : Nat)
  /-- Store `producer.tail`. -/
  | commit (mbufs : List α) (head insert since : Nat)
  | panicked (why : Fault)
  deriving DecidableEq, Repr

/-- What one access of a producer does. `accepted` are the mbufs it reserves
slots for, `returned` the batch and the result of the call it completes. -/
structure ProducerEffect (α : Type) where
  pc : ProducerPc α
  q : MpscQueue α
  accepted : Option (List α) := none
  returned : Option (List α × Nat) := none

/-- On to the next slot, or out of `enqueue_mbufs`: the single producer commits
at once, the others wait for the reservations before theirs. -/
def storeOrLeave (mode : Mode) (mbufs : List α) (head insert since : Nat) (c : Cursor) :
    ProducerPc α :=
  if c.more insert then .store mode mbufs head insert since c
  else match mode with
    | .sp => .commit mbufs head insert since
    | .mp => .wait mbufs head insert since

/-- The reservation has succeeded. -/
def reserved (q : MpscQueue α) (mode : Mode) (mbufs : List α) (head insert since : Nat) :
    ProducerEffect α :=
  { pc := storeOrLeave mode mbufs head insert since (.begin q.slots q.mask head insert)
    q := { q with producer := { q.producer with head := wrappingAdd 64 head insert } }
    accepted := some (mbufs.take insert) }

/-- One access of a producer; `count` mbufs have been reserved so far. -/
def producerStep (q : MpscQueue α) (count : Nat) : ProducerPc α → ProducerEffect α
  | .idle => { pc := .idle, q := q }
  | .loadProducers mbufs =>
    if q.nProducers ≥ 1 then
      if q.nProducers = 1 then { pc := .loadHead .sp mbufs, q := q }
      else { pc := .loadHead .mp mbufs, q := q }
    else { pc := .panicked (.assertion "Insertion into a queue without producers"), q := q }
  | .loadHead mode mbufs => { pc := .loadTail mode mbufs q.producer.head count, q := q }
  | .loadTail mode mbufs head since =>
    let free := wrappingSub 64 (wrappingAdd 64 q.mask q.consumer.tail) head
    let insert := min free mbufs.length
    if insert = 0 then { pc := .idle, q := q, returned := some (mbufs, 0) }
    else { pc := .reserve mode mbufs head insert since, q := q }
  | .reserve .sp mbufs head insert since => reserved q .sp mbufs head insert since
  | .reserve .mp mbufs head insert since =>
    if q.producer.head = head then reserved q .mp mbufs head insert since
    else { pc := .loadHead .mp mbufs, q := q }
  | .store mode mbufs head insert since c =>
    match (mbufs.take insert)[c.mbufIdx]? with
    | none => { pc := .panicked .index, q := q }
    | some m =>
      if c.queueIdx < q.queue.length then
        { pc := storeOrLeave mode mbufs head insert since (c.next q.slots)
          q := { q with queue := q.queue.set c.queueIdx m } }
      else { pc := .panicked .index, q := q }
  | .wait mbufs head insert since =>
    if q.producer.tail ≠ head then { pc := .wait mbufs head insert since, q := q }
    else { pc := .commit mbufs head insert since, q := q }
  | .commit mbufs head insert _ =>
    { pc := .idle
      q := { q with producer := { q.producer with tail := wrappingAdd 64 head insert } }
      returned := some (mbufs, insert) }
  | .panicked why => { pc := .panicked why, q := q }

/-! ## The consumer -/

/-- Where the consumer is; `mbufs` is the caller's slice. -/
inductive ConsumerPc (α : Type) where
  | idle
  | loadHead (mbufs : List α)
  /-- Load `producer.tail`. -/
  | loadTail (mbufs : List α) (head : Nat)
  /-- Store `consumer.head`. -/
  | reserve (mbufs : List α) (head dequeue : Nat)
  /-- `dequeue_mbufs`: load the slot the cursor is at. -/
  | load (mbufs : List α) (head dequeue : Nat) (c : Cursor)
  /-- Store `consumer.tail`. -/
  | commit (mbufs : List α) (head dequeue : Nat)
  | panicked (why : Fault)
  deriving DecidableEq, Repr

/-- What one access of the consumer does. `obtained` are the mbufs of the call
it completes. -/
structure ConsumerEffect (α : Type) where
  pc : ConsumerPc α
  q : MpscQueue α
  obtained : List α := []

/-- On to the next slot, or out of `dequeue_mbufs`. -/
def loadOrLeave (mbufs : List α) (head dequeue : Nat) (c : Cursor) : ConsumerPc α :=
  if c.more dequeue then .load mbufs head dequeue c else .commit mbufs head dequeue

/-- One access of the consumer. -/
def consumerStep (q : MpscQueue α) : ConsumerPc α → ConsumerEffect α
  | .idle => { pc := .idle, q := q }
  | .loadHead mbufs => { pc := .loadTail mbufs q.consumer.head, q := q }
  | .loadTail mbufs head =>
    let availableEntries := wrappingSub 64 q.producer.tail head
    let dequeue := min mbufs.length availableEntries
    if dequeue > 0 then { pc := .reserve mbufs head dequeue, q := q }
    else { pc := .idle, q := q }
  | .reserve mbufs head dequeue =>
    { pc := loadOrLeave mbufs head dequeue (.begin q.slots q.mask head dequeue)
      q := { q with consumer := { q.consumer with head := wrappingAdd 64 head dequeue } } }
  | .load mbufs head dequeue c =>
    match q.queue[c.queueIdx]? with
    | none => { pc := .panicked .index, q := q }
    | some m =>
      if c.mbufIdx < mbufs.length then
        { pc := loadOrLeave (mbufs.set c.mbufIdx m) head dequeue (c.next q.slots), q := q }
      else { pc := .panicked .index, q := q }
  | .commit mbufs head dequeue =>
    { pc := .idle
      q := { q with consumer := { q.consumer with tail := wrappingAdd 64 head dequeue } }
      obtained := mbufs.take dequeue }
  | .panicked why => { pc := .panicked why, q := q }

/-! ## Producers and the consumer around one queue -/

structure Sys (P : Nat) (α : Type) where
  q : MpscQueue α
  producers : Fin P → ProducerPc α
  consumer : ConsumerPc α
  /-- Who reserved slots for which mbufs, in the order of the reservations. -/
  reservations : List (Fin P × List α)
  /-- The completed `enqueue` calls: who, the batch, and the result. -/
  returns : List (Fin P × List α × Nat)
  /-- What the completed `dequeue` calls obtained. -/
  obtained : List α

namespace Sys

/-- The accepted mbufs in the order of their reservation. -/
def log (s : Sys P α) : List α := s.reservations.flatMap Prod.snd

/-- `P` producers registered on a queue, before any call. -/
def init (P : Nat) (q : MpscQueue α) : Sys P α :=
  { q := MpscQueue.referenceProducers^[P] q
    producers := fun _ => .idle
    consumer := .idle
    reservations := []
    returns := []
    obtained := [] }

/-- Producer `p` makes its next access. -/
def stepProducer (s : Sys P α) (p : Fin P) : Sys P α :=
  let e := producerStep s.q s.log.length (s.producers p)
  { s with
    q := e.q
    producers := Function.update s.producers p e.pc
    reservations := s.reservations ++ (e.accepted.map (fun xs => (p, xs))).toList
    returns := s.returns ++ (e.returned.map (fun r => (p, r))).toList }

/-- The consumer makes its next access. -/
def stepConsumer (s : Sys P α) : Sys P α :=
  let e := consumerStep s.q s.consumer
  { s with q := e.q, consumer := e.pc, obtained := s.obtained ++ e.obtained }

end Sys

/-- What the scheduler can choose next. -/
inductive Action (P : Nat) (α : Type) where
  | enqueue (p : Fin P) (mbufs : List α)
  | producer (p : Fin P)
  | dequeue (mbufs : List α)
  | consumer

/-- The next state. -/
def Sys.act (s : Sys P α) : Action P α → Sys P α
  | .enqueue p mbufs =>
    { s with producers := Function.update s.producers p (.loadProducers mbufs) }
  | .producer p => s.stepProducer p
  | .dequeue mbufs => { s with consumer := .loadHead mbufs }
  | .consumer => s.stepConsumer

/-- The head did not go around its whole range since it was loaded: what a
compare-exchange on a wrapping counter relies on. -/
def NoFullWrap (count : Nat) : ProducerPc α → Prop
  | .reserve .mp _ _ _ since => count < since + 2 ^ 64
  | _ => True

/-- A thread takes a new call when its last one is complete; a compare-exchange
runs before the head has gone all the way around. -/
def Enabled (s : Sys P α) : Action P α → Prop
  | .enqueue p _ => s.producers p = .idle
  | .producer p => NoFullWrap s.log.length (s.producers p)
  | .dequeue _ => s.consumer = .idle
  | .consumer => True

/-- One atomic step of some thread: a load, a store, a compare-exchange or the copy of one slot.
A run is any interleaving of these. -/
def Step (s s' : Sys P α) : Prop := ∃ a, Enabled s a ∧ s' = s.act a

/-- What the threads can reach from `P` registered producers on the queue `q`. -/
def Reachable (q : MpscQueue α) (s : Sys P α) : Prop :=
  Relation.ReflTransGen Step (Sys.init P q) s

/-- The mbufs a producer has reserved slots for and not committed: from which
position on, and how many. -/
def ProducerPc.span : ProducerPc α → Option (Nat × Nat)
  | .store _ _ _ insert since _ => some (since, insert)
  | .wait _ _ insert since => some (since, insert)
  | .commit _ _ insert since => some (since, insert)
  | _ => none

end NetBricks.Queues
