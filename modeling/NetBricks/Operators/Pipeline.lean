import NetBricks.Operators.Batch

/-!
# Pipelines as they are written

The methods of the trait `Batch`, as the stages of a pipeline. A `Pipe` is the
expression an application writes: a receive queue, stages attached one after the
other, and merges of pipelines. `Pipe.build` is the batch it evaluates to.
-/

namespace NetBricks.Operators

open Lib
open Interface

/-- One call of a method of `Batch`. -/
inductive Stage (σ : Type) where
  | parse (header : EndOffset)
  | map (f : MapFn σ)
  | transform (f : TransformFn σ)
  | filter (f : FilterFn σ)
  | metadata {size : Nat} (f : MetadataFn σ size)
  | metadataMut {size : Nat} (f : MutableMetadataFn σ size)
  | reset
  | compose

/-- The batch a call returns. -/
def Stage.attach {σ : Type} : Stage σ → Batch σ → Batch σ
  | .parse header, b => Batch.parsedBatch header b
  | .map f, b => Batch.mapBatch f b
  | .transform f, b => Batch.transformBatch f b
  | .filter f, b => Batch.filterBatch f b
  | .metadata f, b => Batch.addMetadataBatch f b
  | .metadataMut f, b => Batch.mutableAddMetadataBatch f b
  | .reset, b => Batch.resetParsingBatch b
  | .compose, b => Batch.compositionBatch b

/-- A pipeline up to `send`. -/
inductive Pipe (σ : Type) where
  | receive (queue : Nat) (slots : List Ptr)
  | stage (s : Stage σ) (pipe : Pipe σ)
  | merge (others : Nat) (pipes : Fin (others + 1) → Pipe σ)

namespace Pipe

variable {σ : Type}

/-- The batch of a pipeline. -/
def build : Pipe σ → Batch σ
  | .receive queue slots => Batch.receiveBatch queue slots
  | .stage s pipe => s.attach pipe.build
  | .merge _ pipes => Batch.mergeBatch (fun i => (pipes i).build)

/-- `capacity`: how many packets a cycle can bring. -/
def capacity : Pipe σ → Nat
  | .receive _ slots => slots.length
  | .stage _ pipe => pipe.capacity
  | .merge _ pipes => (List.ofFn (fun i => (pipes i).capacity)).foldl max 0

/-- Stages attached one after the other. -/
def chain (queue : Nat) (slots : List Ptr) (stages : List (Stage σ)) : Pipe σ :=
  stages.foldl (fun pipe s => .stage s pipe) (.receive queue slots)

end Pipe

end NetBricks.Operators
