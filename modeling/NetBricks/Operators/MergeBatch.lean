import Mathlib.Data.Fin.VecNotation
import NetBricks.Lib.Machine
import NetBricks.Lib.SortDedup
import NetBricks.Lib.Turns
import NetBricks.Operators.Batch

/-!
# `MergeBatch`

`src/framework/src/operators/merge_batch.rs`: a batch over several parents of one
type, which takes its packets from one parent in each cycle. `act`, `done` and all
calls in between go to the parent `which`; `done` moves on to the next.

`Batch.merge` is this operator inside a pipeline. Here it stands alone, over
parents of any type with the traits `BatchIterator` and `Act`, and `toBatch` leads
from one to the other.

Mirroring notes:

* `Act` has the methods of both traits that can touch the packets. The methods take
  `&mut self`, so each returns the batch as it is afterwards.
* `get_packet_batch` returns a reference into the batch: `withPacketBatch` is a call
  on what it refers to.
* `get_task_dependencies` is no part of `Act`, since the batches of the model do
  not carry the tasks of their `PacketBatch`. It takes that of the parents.
* `capacity` only sizes an allocation, and is left out.

A cycle of the merged batch is a cycle of one parent (`cycle_eq`), and in the run
of any number of cycles the parents take turns (`mergeBatch_rotates`).
-/

namespace NetBricks.Operators

open Lib
open Lib.Outcome
open Interface

/-- The methods of `BatchIterator` and `Act`. -/
class Act (σ : outParam Type) (π : Type) where
  start : π → World σ → Outcome (Nat × π × World σ)
  nextPayload : Nat → π → World σ → Outcome (Option Packet × π × World σ)
  act : Nat → π → World σ → Outcome (π × World σ)
  done : π → World σ → Outcome (π × World σ)
  sendQ : π → World σ → Outcome (Except ErrorKind Nat × π × World σ)
  dropPackets : List Nat → π → World σ → Outcome (Option Nat × π × World σ)
  clearPackets : π → World σ → Outcome (Unit × π × World σ)
  withPacketBatch :
    (PacketBatch → World σ → Outcome (Except ErrorKind Nat × PacketBatch × World σ)) →
    π → World σ → Outcome (Except ErrorKind Nat × π × World σ)

/-- The operators of the model. -/
instance {σ : Type} : Act σ (Batch σ) where
  start b w := do
    let idx ← b.start
    .ok (idx, b, w)
  nextPayload idx b w := do
    let item ← b.nextPayload w.mem idx
    .ok (item, b, w)
  act fuel b w := b.act fuel w
  done b w := b.done w
  sendQ b w := b.withPacketBatch (fun p => p.sendQ w)
  dropPackets idxes b w := b.dropPackets idxes w
  clearPackets b w := b.withPacketBatch (fun p => do
    let p ← p.consumeBatch
    .ok ((), p, w))
  withPacketBatch f b w := b.withPacketBatch (fun p => f p w)

/-- `MergeBatch`. -/
structure MergeBatch (count : Nat) (π : Type) where
  parents : Fin count → π
  which : Nat

namespace MergeBatch

variable {σ π α β : Type} {count : Nat}

/-- `new`. -/
def new (parents : Fin count → π) : MergeBatch count π := { parents := parents, which := 0 }

/-- A call on `self.parents[self.which]`. -/
def onCurrent (f : π → World σ → Outcome (α × π × World σ)) (b : MergeBatch count π)
    (w : World σ) : Outcome (α × MergeBatch count π × World σ) :=
  if h : b.which < count then do
    let (a, parent, w) ← f (b.parents ⟨b.which, h⟩) w
    .ok (a, { b with parents := Function.update b.parents ⟨b.which, h⟩ parent }, w)
  else .panic .index

variable [Act σ π]

/-- `start`. -/
def start : MergeBatch count π → World σ → Outcome (Nat × MergeBatch count π × World σ) :=
  onCurrent Act.start

/-- `next_payload`. -/
def nextPayload (idx : Nat) :
    MergeBatch count π → World σ → Outcome (Option Packet × MergeBatch count π × World σ) :=
  onCurrent (Act.nextPayload idx)

/-- `act`. -/
def act (fuel : Nat) (b : MergeBatch count π) (w : World σ) :
    Outcome (MergeBatch count π × World σ) := do
  let (_, b, w) ← onCurrent (fun p w => do
    let (p, w) ← Act.act fuel p w
    .ok ((), p, w)) b w
  .ok (b, w)

/-- `done`, which moves on to the next parent. -/
def done (b : MergeBatch count π) (w : World σ) : Outcome (MergeBatch count π × World σ) := do
  let (_, b, w) ← onCurrent (fun p w => do
    let (p, w) ← Act.done p w
    .ok ((), p, w)) b w
  let next := b.which + 1
  .ok ({ b with which := if next = count then 0 else next }, w)

/-- `send_q`. -/
def sendQ : MergeBatch count π → World σ →
    Outcome (Except ErrorKind Nat × MergeBatch count π × World σ) :=
  onCurrent Act.sendQ

/-- `drop_packets`. -/
def dropPackets (idxes : List Nat) :
    MergeBatch count π → World σ → Outcome (Option Nat × MergeBatch count π × World σ) :=
  onCurrent (Act.dropPackets idxes)

/-- `clear_packets`. -/
def clearPackets : MergeBatch count π → World σ →
    Outcome (Unit × MergeBatch count π × World σ) :=
  onCurrent Act.clearPackets

/-- `get_packet_batch`. -/
def withPacketBatch
    (f : PacketBatch → World σ → Outcome (Except ErrorKind Nat × PacketBatch × World σ)) :
    MergeBatch count π → World σ →
      Outcome (Except ErrorKind Nat × MergeBatch count π × World σ) :=
  onCurrent (Act.withPacketBatch f)

instance : Act σ (MergeBatch count π) where
  start := start
  nextPayload := nextPayload
  act := act
  done := done
  sendQ := sendQ
  dropPackets := dropPackets
  clearPackets := clearPackets
  withPacketBatch := withPacketBatch

omit [Act σ π] in
/-- `get_task_dependencies`, with that of the parents. -/
def getTaskDependencies (deps : π → List Nat) (b : MergeBatch count π) : List Nat :=
  sortDedup ((List.ofFn b.parents).flatMap deps)

end MergeBatch

/-! ## Cycles -/

/-- A call between `act` and `done`. -/
inductive BatchCall (σ : Type) where
  | start
  | nextPayload (idx : Nat)
  | sendQ
  | dropPackets (idxes : List Nat)
  | clearPackets
  | packetBatch
      (f : PacketBatch → World σ → Outcome (Except ErrorKind Nat × PacketBatch × World σ))

/-- What such a call returns. -/
inductive BatchAnswer where
  | index (idx : Nat)
  | payload (item : Option Packet)
  | sent (r : Except ErrorKind Nat)
  | dropped (n : Option Nat)
  | cleared

/-- One call. -/
def BatchCall.run {σ π : Type} [Act σ π] (s : π × World σ) :
    BatchCall σ → Outcome (BatchAnswer × π × World σ)
  | .start => do
    let (idx, s) ← Act.start s.1 s.2
    .ok (.index idx, s)
  | .nextPayload idx => do
    let (item, s) ← Act.nextPayload idx s.1 s.2
    .ok (.payload item, s)
  | .sendQ => do
    let (r, s) ← Act.sendQ s.1 s.2
    .ok (.sent r, s)
  | .dropPackets idxes => do
    let (n, s) ← Act.dropPackets idxes s.1 s.2
    .ok (.dropped n, s)
  | .clearPackets => do
    let (_, s) ← Act.clearPackets s.1 s.2
    .ok (.cleared, s)
  | .packetBatch f => do
    let (r, s) ← Act.withPacketBatch f s.1 s.2
    .ok (.sent r, s)

/-- A cycle: `act`, then any calls, then `done`. -/
def cycle {σ π : Type} [Act σ π] (fuel : Nat) (s : π × World σ) (calls : List (BatchCall σ)) :
    Outcome (List BatchAnswer × π × World σ) := do
  let s ← Act.act fuel s.1 s.2
  let (answers, s) ← runOps BatchCall.run s calls
  let s ← Act.done s.1 s.2
  .ok (answers, s)

namespace MergeBatch

variable {σ π α β : Type} {count : Nat}

/-! ## One parent at a time -/

/-- The parent whose turn it is. -/
def current (b : MergeBatch count π) (h : b.which < count) : π := b.parents ⟨b.which, h⟩

/-- Another state of the parent whose turn it is. -/
def put (b : MergeBatch count π) (h : b.which < count) (p : π) : MergeBatch count π :=
  { b with parents := Function.update b.parents ⟨b.which, h⟩ p }

/-- The turn of the next parent. -/
def turn (b : MergeBatch count π) : MergeBatch count π :=
  { b with which := if b.which + 1 = count then 0 else b.which + 1 }

theorem put_current (b : MergeBatch count π) (h : b.which < count) : b.put h (b.current h) = b := by
  unfold put current
  rw [Function.update_eq_self]

/-- The batch around a state of the parent whose turn it is. -/
def around (b : MergeBatch count π) (h : b.which < count) (s : π × World σ) :
    MergeBatch count π × World σ :=
  (b.put h s.1, s.2)

variable {b : MergeBatch count π} {h : b.which < count}

theorem onCurrent_around (f : π → World σ → Outcome (α × π × World σ)) (s : π × World σ) :
    onCurrent f (b.put h s.1) s.2 = within (b.around h) (f s.1 s.2) := by
  unfold onCurrent within
  rw [dif_pos (show (b.put h s.1).which < count from h)]
  unfold put around
  dsimp only
  rw [Function.update_self]
  congr 1
  funext ⟨a, p, w⟩
  dsimp only [put]
  rw [Function.update_idem]

/-- The same with an answer made of what the parent returns. -/
theorem onCurrent_answer (f : π → World σ → Outcome (α × π × World σ)) (g : α → β)
    (s : π × World σ) :
    (do
      let (a, s) ← onCurrent f (b.put h s.1) s.2
      .ok (g a, s)) =
    within (b.around h) (do
      let (a, s) ← f s.1 s.2
      .ok (g a, s)) := by
  rw [onCurrent_around]
  unfold within
  rw [bind_assoc, bind_assoc]
  rfl

variable [Act σ π]

/-- Every call goes to the parent whose turn it is. -/
theorem run_around (s : π × World σ) (call : BatchCall σ) :
    call.run (b.around h s) = within (b.around h) (call.run s) := by
  cases call with
  | start => exact onCurrent_answer _ BatchAnswer.index s
  | nextPayload idx => exact onCurrent_answer _ BatchAnswer.payload s
  | sendQ => exact onCurrent_answer _ BatchAnswer.sent s
  | dropPackets idxes => exact onCurrent_answer _ BatchAnswer.dropped s
  | clearPackets => exact onCurrent_answer _ (fun _ => BatchAnswer.cleared) s
  | packetBatch f => exact onCurrent_answer _ BatchAnswer.sent s

theorem act_around (fuel : Nat) (s : π × World σ) :
    Act.act fuel (b.around h s).1 (b.around h s).2 = (do
      let s ← Act.act fuel s.1 s.2
      .ok (b.around h s)) := by
  show act fuel (b.put h s.1) s.2 = _
  unfold act
  rw [onCurrent_around]
  unfold within
  rw [bind_assoc, bind_assoc]
  rfl

theorem done_around (s : π × World σ) :
    Act.done (b.around h s).1 (b.around h s).2 = (do
      let s ← Act.done s.1 s.2
      .ok ((b.put h s.1).turn, s.2)) := by
  show done (b.put h s.1) s.2 = _
  unfold done
  rw [onCurrent_around]
  unfold within
  rw [bind_assoc, bind_assoc]
  rfl

/-- A cycle of the merged batch is a cycle of the parent whose turn it is. -/
theorem cycle_eq (h : b.which < count) (fuel : Nat) (w : World σ) (calls : List (BatchCall σ)) :
    cycle fuel (b, w) calls = (do
      let (answers, p, w) ← cycle fuel (b.current h, w) calls
      .ok (answers, (b.put h p).turn, w)) := by
  have hb : (b, w) = b.around h (b.current h, w) := by
    unfold around
    rw [put_current]
  rw [hb]
  unfold cycle
  rw [act_around, bind_assoc, bind_assoc]
  congr 1
  funext s₁
  rw [bind_ok, runOps_within run_around, within, bind_assoc, bind_assoc]
  congr 1
  funext r
  obtain ⟨answers, s₂⟩ := r
  rw [bind_ok]
  dsimp only
  rw [done_around, bind_assoc, bind_assoc]
  rfl

/-! ## Taking turns -/

omit [Act σ π] in
theorem turn_which {n : Nat} (h : b.which = n % count) (hk : 0 < count) :
    b.turn.which = (n + 1) % count := by
  have hlt : n % count < count := Nat.mod_lt _ hk
  unfold turn
  dsimp only
  rw [h]
  by_cases hone : 1 < count
  · rw [add_mod_cases hone]
    split <;> split <;> omega
  · obtain rfl : count = 1 := by omega
    rw [Nat.mod_one, Nat.mod_one]
    rfl

/-- After `n` cycles it is the turn of parent `n % count`. -/
theorem which_of_run (hk : 0 < count) {fuel : Nat} :
    ∀ {cycles : List (List (BatchCall σ))} {n : Nat} {b b' : MergeBatch count π}
      {w w' : World σ} {rs : List (List BatchAnswer)}, b.which = n % count →
      runOps (cycle fuel) (b, w) cycles = .ok (rs, b', w') →
      b'.which = (n + cycles.length) % count := by
  intro cycles
  induction cycles with
  | nil =>
    intro n b b' w w' rs hb hrun
    cases hrun
    exact hb
  | cons calls cycles ih =>
    intro n b b' w w' rs hb hrun
    obtain ⟨r, ⟨b₁, w₁⟩, rest, hcycle, hrest, -⟩ := runOps_cons_ok hrun
    have hlt : b.which < count := by
      rw [hb]
      exact Nat.mod_lt _ hk
    rw [cycle_eq hlt, bind_eq_ok] at hcycle
    obtain ⟨⟨answers, p, w₂⟩, -, hcycle⟩ := hcycle
    cases hcycle
    have hturn : (b.put hlt p).turn.which = (n + 1) % count := turn_which hb hk
    have := ih hturn hrest
    rwa [List.length_cons, Nat.add_comm cycles.length, ← Nat.add_assoc]

/-- Cycle `c` of a merge of `count` parents is a cycle of parent `c % count`, and
leaves the others as they are. In any stretch of cycles the parents get the same
number of them, but for one. The task dependencies are those of the parents, in
ascending order and each once. -/
theorem mergeBatch_rotates (hk : 0 < count) {fuel : Nat} {parents : Fin count → π}
    {w w' : World σ} {cycles : List (List (BatchCall σ))} {rs : List (List BatchAnswer)}
    {b : MergeBatch count π}
    (hrun : runOps (cycle fuel) (MergeBatch.new parents, w) cycles = .ok (rs, b, w')) :
    (∀ calls, cycle fuel (b, w') calls = (do
      let c := cycles.length
      let (answers, p, w) ←
        cycle fuel (b.parents ⟨c % count, Nat.mod_lt c hk⟩, w') calls
      .ok (answers,
        { parents := Function.update b.parents ⟨c % count, Nat.mod_lt c hk⟩ p
          which := (c + 1) % count }, w))) ∧
      (∀ (m n : Nat) (i j : Fin count), turns count m n i ≤ turns count m n j + 1) ∧
      ∀ deps : π → List Nat, (b.getTaskDependencies deps).Pairwise (· < ·) ∧
        ∀ d, d ∈ b.getTaskDependencies deps ↔ ∃ i, d ∈ deps (b.parents i) := by
  have hwhich : b.which = cycles.length % count := by
    have := which_of_run hk (n := 0) (Nat.zero_mod count).symm hrun
    rwa [Nat.zero_add] at this
  refine ⟨?_, fun m n i j => turns_le_succ i.isLt j.isLt m n, ?_⟩
  · intro calls
    have hlt : b.which < count := by
      rw [hwhich]
      exact Nat.mod_lt _ hk
    have hidx : (⟨b.which, hlt⟩ : Fin count) = ⟨cycles.length % count, Nat.mod_lt _ hk⟩ :=
      Fin.ext hwhich
    have hcurrent : b.current hlt = b.parents ⟨cycles.length % count, Nat.mod_lt _ hk⟩ := by
      unfold current
      rw [hidx]
    have hnext : ∀ p, (b.put hlt p).turn =
        { parents := Function.update b.parents ⟨cycles.length % count, Nat.mod_lt _ hk⟩ p
          which := (cycles.length + 1) % count } := by
      intro p
      rw [← hidx, ← turn_which hwhich hk]
      rfl
    rw [cycle_eq hlt]
    simp only [hcurrent, hnext]
  · intro deps
    refine ⟨sortDedup_pairwise _, ?_⟩
    intro d
    unfold getTaskDependencies
    rw [mem_sortDedup, List.mem_flatMap]
    constructor
    · rintro ⟨p, hp, hd⟩
      obtain ⟨i, rfl⟩ := (List.mem_ofFn' _ _).mp hp
      exact ⟨i, hd⟩
    · rintro ⟨i, hd⟩
      exact ⟨b.parents i, (List.mem_ofFn' _ _).mpr ⟨i, rfl⟩, hd⟩

/-- Two receive queues with two packets and one. -/
def twoQueues : World Unit :=
  let m : MBuf := { bufAddr := 0, buf := [], dataOff := 0, dataLen := 0, slots := [] }
  { state := (), mem := fun _ => m, tx := [.ok 1]
    rx := fun queue => if queue = 0 then [.ok [(1, m), (2, m)]] else [.ok [(3, m)]] }

/-- Each parent receives its packets in its cycle, and the second sends its one. The third cycle
is for the first again. -/
theorem mergeBatch_rotates_two :
    ∃ rs b w', 0 < 2 ∧
      runOps (cycle 4) (MergeBatch.new ![Batch.receiveBatch 0 [0, 0], .receiveBatch 1 [0]],
        twoQueues) [[.start, .nextPayload 0], [.sendQ]] = .ok (rs, b, w') ∧ b.which = 0 ∧
      w'.received = [1, 2, 3] ∧ w'.sent = [3] ∧
      cycle 4 (b, w') [.clearPackets] = (do
        let (answers, p, w) ← cycle 4 (b.parents 0, w') [.clearPackets]
        .ok (answers, { parents := Function.update b.parents 0 p, which := 1 }, w)) := by
  have hrun : ∃ rs b w',
      runOps (cycle 4) (MergeBatch.new ![Batch.receiveBatch 0 [0, 0], .receiveBatch 1 [0]],
        twoQueues) [[.start, .nextPayload 0], [.sendQ]] = .ok (rs, b, w') ∧ b.which = 0 ∧
      w'.received = [1, 2, 3] ∧ w'.sent = [3] := ⟨_, _, _, rfl, rfl, rfl, rfl⟩
  obtain ⟨rs, b, w', hrun, hwhich, hreceived, hsent⟩ := hrun
  exact ⟨rs, b, w', by decide, hrun, hwhich, hreceived, hsent,
    (mergeBatch_rotates (by decide) hrun).1 [.clearPackets]⟩

/-! ## Inside a pipeline -/

omit [Act σ π] in
/-- The operator of a pipeline. -/
def toBatch (b : MergeBatch count (Batch σ)) : Batch σ := .merge count b.parents b.which

/-- A method that the operator of a pipeline passes on to its current parent. -/
def PassesOn (count : Nat) (f : Batch σ → World σ → Outcome (α × Batch σ × World σ)) : Prop :=
  ∀ (b : MergeBatch count (Batch σ)) (w : World σ), f b.toBatch w =
    if h : b.which < count then do
      let (a, p, w) ← f (b.parents ⟨b.which, h⟩) w
      .ok (a, .merge count (Function.update b.parents ⟨b.which, h⟩ p) b.which, w)
    else .panic .index

/-- A method that only looks at the batch. -/
theorem passesOn_look {f : Batch σ → World σ → Outcome α}
    (hf : ∀ (b : MergeBatch count (Batch σ)) (w : World σ), f b.toBatch w =
      if h : b.which < count then f (b.parents ⟨b.which, h⟩) w else .panic .index) :
    PassesOn count (fun b w => do
      let a ← f b w
      .ok (a, b, w)) := by
  intro b w
  dsimp only
  rw [hf]
  split
  · rw [bind_assoc]
    congr 1
    funext a
    rw [bind_ok]
    dsimp only
    rw [Function.update_eq_self]
    rfl
  · rfl

theorem passesOn_withPacketBatch (f : PacketBatch → World σ → Outcome (α × PacketBatch × World σ)) :
    PassesOn count (fun b w => b.withPacketBatch (fun p => f p w)) :=
  fun _ _ => rfl

theorem PassesOn.answer {f : Batch σ → World σ → Outcome (α × Batch σ × World σ)}
    (hf : PassesOn count f) (g : α → β) (s : MergeBatch count (Batch σ) × World σ) :
    (do
      let (a, s) ← f s.1.toBatch s.2
      .ok (g a, s)) =
    within (fun s => (s.1.toBatch, s.2)) (do
      let (a, s) ← onCurrent f s.1 s.2
      .ok (g a, s)) := by
  rw [hf]
  unfold within onCurrent
  split
  · simp only [bind_assoc]
    rfl
  · rfl

theorem toBatch_run (s : MergeBatch count (Batch σ) × World σ) (call : BatchCall σ) :
    call.run (s.1.toBatch, s.2) = within (fun s => (s.1.toBatch, s.2)) (call.run s) := by
  cases call with
  | start =>
    exact (passesOn_look (f := fun b _ => b.start) (fun _ _ => rfl)).answer BatchAnswer.index s
  | nextPayload idx =>
    exact (passesOn_look (f := fun b w => b.nextPayload w.mem idx) (fun _ _ => rfl)).answer
      BatchAnswer.payload s
  | sendQ => exact (passesOn_withPacketBatch PacketBatch.sendQ).answer BatchAnswer.sent s
  | dropPackets idxes =>
    exact (passesOn_withPacketBatch (fun p w => p.dropPacketsStable idxes w)).answer
      BatchAnswer.dropped s
  | clearPackets =>
    exact (passesOn_withPacketBatch (fun p w => do
      let p ← p.consumeBatch
      .ok ((), p, w))).answer (fun _ => BatchAnswer.cleared) s
  | packetBatch f => exact (passesOn_withPacketBatch f).answer BatchAnswer.sent s

/-- In a pipeline the operator has the cycles of `MergeBatch`. -/
theorem toBatch_cycle (fuel : Nat) (s : MergeBatch count (Batch σ) × World σ)
    (calls : List (BatchCall σ)) :
    cycle fuel (s.1.toBatch, s.2) calls =
      within (fun s => (s.1.toBatch, s.2)) (cycle fuel s calls) := by
  have hact : Act.act fuel s.1.toBatch s.2 = (do
      let s ← Act.act fuel s.1 s.2
      .ok (s.1.toBatch, s.2)) := by
    show Batch.act fuel (.merge count s.1.parents s.1.which) s.2 =
      (do let s ← act fuel s.1 s.2; .ok (s.1.toBatch, s.2))
    unfold Batch.act act onCurrent
    split
    · simp only [bind_assoc]
      rfl
    · rfl
  have hdone : ∀ s : MergeBatch count (Batch σ) × World σ, Act.done s.1.toBatch s.2 = (do
      let s ← Act.done s.1 s.2
      .ok (s.1.toBatch, s.2)) := by
    intro s
    show Batch.done (.merge count s.1.parents s.1.which) s.2 =
      (do let s ← done s.1 s.2; .ok (s.1.toBatch, s.2))
    unfold Batch.done done onCurrent
    split
    · simp only [bind_assoc]
      rfl
    · rfl
  unfold cycle
  dsimp only
  rw [hact, within, bind_assoc, bind_assoc]
  congr 1
  funext s₁
  rw [bind_ok, runOps_within toBatch_run, within, bind_assoc, bind_assoc]
  congr 1
  funext r
  obtain ⟨answers, s₂⟩ := r
  rw [bind_ok]
  dsimp only
  rw [hdone, bind_assoc, bind_assoc]
  rfl

end MergeBatch

end NetBricks.Operators
