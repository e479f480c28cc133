import NetBricks.Operators.PacketBatch

/-!
# Batches: the model

The operators of `src/framework/src/operators/`, from `ReceiveBatch` up to
`SendBatch`. A pipeline is a tree of operators, each wrapped around its parent;
`act` pulls packets through it, `done` ends the cycle.

Mirroring notes:

* The operators that define their `Act` by the macro `act!` only change how a
  packet is seen (`next_payload`). They are `through`, with the view.
* `MapBatch`, `TransformBatch`, `AddMetadataBatch` and `MutableAddMetadataBatch`
  have the same `act`, guarded by `applied`, around a different loop body. They
  are `each`, with the body.
* `drop_packets`, `send_q` and `get_packet_batch` of every operator go to the
  parent, down to the `PacketBatch`: `withPacketBatch`.
* A closure reads and writes the mbuf of the packet it is given, and the state
  the closures of the pipeline share.
* `while let Some(..) = iter.next(..)` is `enumerate`; it takes fuel.
* The counters `received` and `sent` are unbounded. `capacity`, which only sizes
  an allocation, and the task dependencies are not here.
-/

namespace NetBricks.Operators

open Lib
open Lib.Outcome
open Interface

/-! ## Closures -/

/-- `MapFn`. -/
abbrev MapFn (σ : Type) := Packet → MBuf → σ → σ

/-- `TransformFn`. -/
abbrev TransformFn (σ : Type) := Packet → MBuf → σ → MBuf × σ

/-- `FilterFn`. -/
abbrev FilterFn (σ : Type) := Packet → MBuf → σ → Bool × σ

/-- `MetadataFn`, for metadata of `size` bytes. -/
abbrev MetadataFn (σ : Type) (size : Nat) := Packet → MBuf → σ → Vector UInt8 size × σ

/-- `MutableMetadataFn`, for metadata of `size` bytes. -/
abbrev MutableMetadataFn (σ : Type) (size : Nat) := Packet → MBuf → σ → Vector UInt8 size × MBuf × σ

/-- The body of a loop over the packets of a batch. -/
abbrev Body (σ : Type) := Packet → MBuf → σ → Outcome (MBuf × σ)

def mapBody {σ : Type} (f : MapFn σ) : Body σ := fun p m s => .ok (m, f p m s)

def transformBody {σ : Type} (f : TransformFn σ) : Body σ := fun p m s => .ok (f p m s)

/-- `packet.write_metadata(&metadata).unwrap()`. -/
def unwrapMetadata {σ : Type} {size : Nat} (m : MBuf) (metadata : Vector UInt8 size) (s : σ) :
    Outcome (MBuf × σ) :=
  match writeMetadata m metadata with
  | .ok m => .ok (m, s)
  | .error _ => .panic (.explicit "called `Result::unwrap()` on an `Err` value: MetadataTooLarge")

def metadataBody {σ : Type} {size : Nat} (f : MetadataFn σ size) : Body σ := fun p m s =>
  unwrapMetadata m (f p m s).1 (f p m s).2

def metadataMutBody {σ : Type} {size : Nat} (f : MutableMetadataFn σ size) : Body σ := fun p m s =>
  unwrapMetadata (f p m s).2.1 (f p m s).1 (f p m s).2.2

/-- Run a body on the mbuf of a packet. -/
def applyBody {σ : Type} (body : Body σ) (p : Packet) (w : World σ) : Outcome (World σ) := do
  let (m, s) ← body p (w.mem p.mbuf) w.state
  .ok { w with mem := Function.update w.mem p.mbuf m, state := s }

/-! ## Operators -/

/-- An operator and what it is wrapped around. -/
inductive Batch (σ : Type) where
  | receive (parent : PacketBatch) (queue received : Nat)
  | through (view : Packet → MBuf → Outcome Packet) (parent : Batch σ)
  | each (body : Body σ) (applied : Bool) (parent : Batch σ)
  | filter (keep : FilterFn σ) (remove : List Nat) (parent : Batch σ)
  | merge (count : Nat) (parents : Fin count → Batch σ) (which : Nat)

namespace Batch

variable {σ : Type}

/-- `ReceiveBatch::new_with_parent`, with an empty batch in an allocation of
`slots`. -/
def receiveBatch (queue : Nat) (slots : List Ptr) : Batch σ :=
  .receive (PacketBatch.new slots) queue 0

/-- `ParsedBatch::new`. -/
def parsedBatch (header : EndOffset) (parent : Batch σ) : Batch σ :=
  .through (fun p m => p.parseHeader header m) parent

/-- `MapBatch::new`. -/
def mapBatch (f : MapFn σ) (parent : Batch σ) : Batch σ := .each (mapBody f) false parent

/-- `TransformBatch::new`. -/
def transformBatch (f : TransformFn σ) (parent : Batch σ) : Batch σ :=
  .each (transformBody f) false parent

/-- `AddMetadataBatch::new`. -/
def addMetadataBatch {size : Nat} (f : MetadataFn σ size) (parent : Batch σ) : Batch σ :=
  .each (metadataBody f) false parent

/-- `MutableAddMetadataBatch::new`. -/
def mutableAddMetadataBatch {size : Nat} (f : MutableMetadataFn σ size) (parent : Batch σ) :
    Batch σ :=
  .each (metadataMutBody f) false parent

/-- `FilterBatch::new`. -/
def filterBatch (f : FilterFn σ) (parent : Batch σ) : Batch σ := .filter f [] parent

/-- `ResetParsingBatch::new`. -/
def resetParsingBatch (parent : Batch σ) : Batch σ := .through (fun p _ => .ok p.reset) parent

/-- `CompositionBatch::new`, which resets its parent. -/
def compositionBatch (parent : Batch σ) : Batch σ :=
  .through (fun p _ => .ok p) (resetParsingBatch parent)

/-- `MergeBatch::new`. -/
def mergeBatch {count : Nat} (parents : Fin count → Batch σ) : Batch σ := .merge count parents 0

/-! ## Iteration -/

/-- `start`. -/
def start : Batch σ → Outcome Nat
  | .receive _ _ _ => .ok 0
  | .through _ parent => parent.start
  | .each _ _ parent => parent.start
  | .filter _ _ parent => parent.start
  | .merge count parents which =>
    if h : which < count then (parents ⟨which, h⟩).start else .panic .index

/-- `next_payload`. -/
def nextPayload (mem : Mem) (idx : Nat) : Batch σ → Outcome (Option Packet)
  | .receive parent _ _ =>
    if idx < parent.array.len then do
      let mbuf ← parent.array.get idx
      .ok (some (Packet.fromMbuf mbuf))
    else .ok none
  | .through view parent => do
    let item ← parent.nextPayload mem idx
    mapSome (fun p => view p (mem p.mbuf)) item
  | .each _ _ parent => parent.nextPayload mem idx
  | .filter _ _ parent => parent.nextPayload mem idx
  | .merge count parents which =>
    if h : which < count then (parents ⟨which, h⟩).nextPayload mem idx else .panic .index

/-- The loop over a `PayloadEnumerator`, from index `idx` on. -/
def enumerate {β : Type} (b : Batch σ)
    (body : Nat → Packet → β × World σ → Outcome (β × World σ)) :
    Nat → Nat → β × World σ → Outcome (β × World σ)
  | 0, _, _ => .timeout
  | fuel + 1, idx, acc => do
    let item ← b.nextPayload acc.2.mem idx
    match item with
    | none => .ok acc
    | some packet =>
      let acc ← body idx packet acc
      enumerate b body fuel (idx + 1) acc

/-- `PayloadEnumerator::new` and the loop over it. -/
def forEach {β : Type} (fuel : Nat) (b : Batch σ)
    (body : Nat → Packet → β × World σ → Outcome (β × World σ)) (acc : β × World σ) :
    Outcome (β × World σ) := do
  let idx ← b.start
  enumerate b body fuel idx acc

/-! ## Acting -/

/-- `get_packet_batch`, and a call on what it returns. -/
def withPacketBatch {α : Type} (f : PacketBatch → Outcome (α × PacketBatch × World σ)) :
    Batch σ → Outcome (α × Batch σ × World σ)
  | .receive parent queue received => do
    let (a, parent, w) ← f parent
    .ok (a, .receive parent queue received, w)
  | .through view parent => do
    let (a, parent, w) ← parent.withPacketBatch f
    .ok (a, .through view parent, w)
  | .each body applied parent => do
    let (a, parent, w) ← parent.withPacketBatch f
    .ok (a, .each body applied parent, w)
  | .filter keep remove parent => do
    let (a, parent, w) ← parent.withPacketBatch f
    .ok (a, .filter keep remove parent, w)
  | .merge count parents which =>
    if h : which < count then do
      let (a, parent, w) ← (parents ⟨which, h⟩).withPacketBatch f
      .ok (a, .merge count (Function.update parents ⟨which, h⟩ parent) which, w)
    else .panic .index

/-- `drop_packets`. -/
def dropPackets (b : Batch σ) (idxes : List Nat) (w : World σ) :
    Outcome (Option Nat × Batch σ × World σ) :=
  b.withPacketBatch (fun p => p.dropPacketsStable idxes w)

/-- The loop of a filter: the indices of the packets to be removed. -/
def filterLoop (f : FilterFn σ) (idx : Nat) (p : Packet) (acc : List Nat × World σ) :
    Outcome (List Nat × World σ) :=
  let (keep, s) := f p (acc.2.mem p.mbuf) acc.2.state
  .ok (if keep then acc.1 else acc.1 ++ [idx], { acc.2 with state := s })

/-- The end of a filter's `act`. -/
def filterDrop (f : FilterFn σ) (parent : Batch σ) (remove : List Nat) (w : World σ) :
    Outcome (Batch σ × World σ) :=
  if remove = [] then .ok (.filter f [] parent, w)
  else do
    let (n, parent, w) ← parent.dropPackets remove w
    match n with
    | none => .panic (.explicit "Filtering was performed incorrectly")
    | some _ => .ok (.filter f [] parent, w)

/-- The end of a `ReceiveBatch`'s `act`. -/
def receiveExpect (queue received : Nat) (parent : PacketBatch) (w : World σ) :
    Except ErrorKind Nat → Outcome (Batch σ × World σ)
  | .error _ => .panic (.explicit "Receive failure")
  | .ok n => .ok (.receive parent queue (received + n), w)

/-- `act`. -/
def act (fuel : Nat) : Batch σ → World σ → Outcome (Batch σ × World σ)
  | .receive parent queue received, w => do
    let (r, parent, w) ← parent.recv queue w
    receiveExpect queue received parent w r
  | .through view parent, w => do
    let (parent, w) ← parent.act fuel w
    .ok (.through view parent, w)
  | .each body applied parent, w =>
    if applied then .ok (.each body applied parent, w)
    else do
      let (parent, w) ← parent.act fuel w
      let (_, w) ← parent.forEach fuel (fun _ p (acc : Unit × World σ) => do
        let w ← applyBody body p acc.2
        .ok ((), w)) ((), w)
      .ok (.each body true parent, w)
  | .filter keep remove parent, w => do
    let (parent, w) ← parent.act fuel w
    let (remove, w) ← parent.forEach fuel (filterLoop keep) (remove, w)
    filterDrop keep parent remove w
  | .merge count parents which, w =>
    if h : which < count then do
      let (parent, w) ← (parents ⟨which, h⟩).act fuel w
      .ok (.merge count (Function.update parents ⟨which, h⟩ parent) which, w)
    else .panic .index

/-- `done`. -/
def done : Batch σ → World σ → Outcome (Batch σ × World σ)
  | .receive parent queue received, w => do
    let (parent, w) ← parent.freePacketBatch w
    .ok (.receive parent queue received, w)
  | .through view parent, w => do
    let (parent, w) ← parent.done w
    .ok (.through view parent, w)
  | .each body _ parent, w => do
    let (parent, w) ← parent.done w
    .ok (.each body false parent, w)
  | .filter keep remove parent, w => do
    let (parent, w) ← parent.done w
    .ok (.filter keep remove parent, w)
  | .merge count parents which, w =>
    if h : which < count then do
      let (parent, w) ← (parents ⟨which, h⟩).done w
      let next := which + 1
      .ok (.merge count (Function.update parents ⟨which, h⟩ parent)
        (if next = count then 0 else next), w)
    else .panic .index

/-- Dropping a pipeline drops each `PacketBatch` in it. -/
def drop : Batch σ → World σ → Outcome (World σ)
  | .receive parent _ _, w => do
    let (_, w) ← parent.freePacketBatch w
    .ok w
  | .through _ parent, w => parent.drop w
  | .each _ _ parent, w => parent.drop w
  | .filter _ _ parent, w => parent.drop w
  | .merge count parents _, w =>
    (List.finRange count).foldlM (fun w i => (parents i).drop w) w

end Batch

/-! ## Sending -/

structure SendBatch (σ : Type) where
  parent : Batch σ
  sent : Nat

namespace SendBatch

variable {σ : Type}

/-- `new`. -/
def new (parent : Batch σ) : SendBatch σ := { parent := parent, sent := 0 }

/-- The end of `act`, with the answer of `send_q`. -/
def expect (s : SendBatch σ) (parent : Batch σ) (w : World σ) :
    Except ErrorKind Nat → Outcome (SendBatch σ × World σ)
  | .error _ => .panic (.explicit "Send failed")
  | .ok n => do
    let (parent, w) ← parent.done w
    .ok ({ parent := parent, sent := s.sent + n }, w)

/-- `act`, which is all `execute` does. -/
def execute (fuel : Nat) (s : SendBatch σ) (w : World σ) : Outcome (SendBatch σ × World σ) := do
  let (parent, w) ← s.parent.act fuel w
  let (r, parent, w) ← parent.withPacketBatch (fun p => p.sendQ w)
  s.expect parent w r

/-- A number of `execute` cycles. -/
def cycles (fuel n : Nat) (s : SendBatch σ × World σ) : Outcome (SendBatch σ × World σ) :=
  iterate (fun (s : SendBatch σ × World σ) => s.1.execute fuel s.2) n s

end SendBatch

end NetBricks.Operators
