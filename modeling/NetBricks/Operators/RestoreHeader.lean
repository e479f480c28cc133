import NetBricks.Interface.Metadata
import NetBricks.Operators.GroupBy
import NetBricks.Queues.MpscFifo

/-!
# `GroupBy`: the model of both ends

`GroupBy` of `src/framework/src/operators/group_by.rs` with its producer, and for each
group the consumer: a `ReceiveBatch` over an `MpscConsumer` (`receive_batch.rs`,
`queues/mpsc_mbuf_queue.rs`) in a `RestoreHeader` (`restore_header.rs`).

`Seen` is a packet as one of the two ends sees it. What the group function is given is
recorded by `watch`, what a consumer is given by `RestoreHeader.collect`.

Mirroring notes:

* The queue of a group is kept with its producer; a `MpscReceive` is the `ReceiveBatch`
  around its other end.
* `get_group` hands out the consumer of a group once. Here it is the one at the index
  of the group.
* What the pipeline behind a `RestoreHeader` does to the mbufs it is given is open
  (`use`). At the end of its cycle it has given them away.
-/

namespace NetBricks.Operators

open Lib
open Lib.Outcome
open Interface
open Queues

variable {σ : Type}

/-! ## The consumer of a group -/

/-- `ReceiveBatch<MpscConsumer>`. -/
structure MpscReceive where
  parent : PacketBatch
  received : Nat

namespace MpscReceive

/-- `ReceiveBatch::new`, with a batch in an allocation of `slots`. -/
def new (slots : List Ptr) : MpscReceive := { parent := PacketBatch.new slots, received := 0 }

/-- `act`: `recv` of the batch, from the queue. -/
def act (fuel : Nat) (r : MpscReceive) (q : MpscQueue Ptr) (w : World σ) :
    Outcome (MpscReceive × MpscQueue Ptr × World σ) := do
  let (parent, w) ← r.parent.freePacketBatch w
  let array ← parent.array.setLen parent.array.capacity
  let ((n, mbufs), q) ← q.dequeue fuel array.toList
  let array ← (array.write mbufs).setLen n
  .ok ({ parent := { parent with array := array }, received := r.received + n }, q, w)

/-- `next_payload`. -/
def nextPayload (idx : Nat) (r : MpscReceive) : Outcome (Option Packet) :=
  if idx < r.parent.array.len then do
    let mbuf ← r.parent.array.get idx
    .ok (some (Packet.fromMbuf mbuf))
  else .ok none

/-- `done`. -/
def done (r : MpscReceive) (w : World σ) : Outcome (MpscReceive × World σ) := do
  let (parent, w) ← r.parent.freePacketBatch w
  .ok ({ r with parent := parent }, w)

end MpscReceive

/-- A packet and its metadata, as they are seen. -/
structure Seen where
  packet : RawPacket
  metadata : List UInt8
  deriving DecidableEq, Repr

namespace RestoreHeader

/-- `restore_saved_header().unwrap()`. -/
def unwrapSaved : Option RawPacket → Outcome RawPacket
  | some p => .ok p
  | none => .panic (.explicit "called `Option::unwrap()` on a `None` value")

/-- `next_payload`. -/
def nextPayload (mem : Mem) (idx : Nat) (r : MpscReceive) : Outcome (Option RawPacket) := do
  let item ← r.nextPayload idx
  mapSome (fun p => unwrapSaved (restoreSavedHeader p.mbuf (mem p.mbuf))) item

/-- The packets from index `idx` on, with metadata of `size` bytes. -/
def collect (size : Nat) (mem : Mem) (r : MpscReceive) : Nat → Nat → Outcome (List Seen)
  | 0, _ => .timeout
  | fuel + 1, idx => do
    let item ← nextPayload mem idx r
    match item with
    | none => .ok []
    | some p => do
      let metadata ← readMetadata (mem p.mbuf) size
      let rest ← collect size mem r fuel (idx + 1)
      .ok ({ packet := p, metadata := metadata } :: rest)

end RestoreHeader

/-! ## Both ends -/

structure GroupBy (σ : Type) where
  producer : GroupByProducer σ
  consumers : List MpscReceive

namespace GroupBy

/-- `DEFAULT_QUEUE_SIZE`. -/
def defaultQueueSize : Nat := 1024

/-- The size of the batch of a `ReceiveBatch`. -/
def batchSize : Nat := 32

/-- The loop over the groups: `new_mpsc_queue_pair` for each. -/
def newPairs : Nat → Outcome (List (MpscQueue Ptr) × List MpscReceive)
  | 0 => .ok ([], [])
  | groups + 1 => do
    let (producers, consumers) ← newPairs groups
    let q ← MpscQueue.new defaultQueueSize
    .ok (producers ++ [q.referenceProducers],
      consumers ++ [MpscReceive.new (List.replicate batchSize 0)])

/-- `new`. -/
def new (parent : Batch σ) (groups : Nat) (f : GroupFn σ) : Outcome (GroupBy σ) := do
  let (producers, consumers) ← newPairs groups
  .ok { producer := { parent := parent, producers := producers, groupFn := f }
        consumers := consumers }

end GroupBy

/-- The packets as the group function sees them, each with the group it chooses. -/
def watch (view : View) (f : GroupFn σ) (size : Nat) :
    List Ptr → World σ → Outcome (List (Nat × Seen) × World σ)
  | [], w => .ok ([], w)
  | ptr :: pkts, w => do
    let p ← view w.mem ptr
    let metadata ← readMetadata (w.mem p.mbuf) size
    let (group, s) := f p (w.mem p.mbuf) w.state
    let (rest, w') ← watch view f size pkts (saved p s w)
    .ok ((group, { packet := p.raw (w.mem p.mbuf), metadata := metadata }) :: rest, w')

/-- What the group function sees in the next cycle of the producer. -/
def GroupByProducer.watch (fuel size : Nat) (g : GroupByProducer σ) (w : World σ) :
    Outcome (List (Nat × Seen)) := do
  let (parent, w) ← g.parent.act fuel w
  let (seen, _) ← Operators.watch parent.view g.groupFn size parent.packets w
  .ok seen

/-- A cycle of the producer, or of the consumer of a group. -/
inductive GroupByOp where
  | execute
  | consume (group : Nat) (use : Mem → Mem)

/-- What can be seen of a cycle. -/
inductive GroupByCycle where
  | grouped (seen : List (Nat × Seen))
  | yielded (group : Nat) (items : List Seen)
  deriving DecidableEq, Repr

namespace GroupBy

/-- A cycle of the consumer of a group. -/
def consume (fuel size group : Nat) (use : Mem → Mem) (g : GroupBy σ) (w : World σ) :
    Outcome (List Seen × GroupBy σ × World σ) := do
  let r ← index g.consumers group
  let q ← index g.producer.producers group
  let (r, q, w) ← r.act fuel q w
  let items ← RestoreHeader.collect size w.mem r fuel 0
  let mem := w.mem
  let mbufs := r.parent.array.toList
  let w := { w with mem := fun ptr => if ptr ∈ mbufs then use mem ptr else mem ptr }
  let (r, w) ← r.done w
  let producer := { g.producer with producers := g.producer.producers.set group q }
  .ok (items, { producer := producer, consumers := g.consumers.set group r }, w)

/-- One cycle. -/
def cycle (fuel size : Nat) (s : GroupBy σ × World σ) :
    GroupByOp → Outcome (GroupByCycle × GroupBy σ × World σ)
  | .execute => do
    let seen ← s.1.producer.watch fuel size s.2
    let (producer, w) ← s.1.producer.execute fuel s.2
    .ok (.grouped seen, { s.1 with producer := producer }, w)
  | .consume group use => do
    let (items, g, w) ← s.1.consume fuel size group use s.2
    .ok (.yielded group items, g, w)

end GroupBy

end NetBricks.Operators
