import NetBricks.Utils.Flow

/-!
# `CpMergeableStore`: a batch that finds the channel full is lost

`src/framework/src/state/cp_mergeable.rs`. The data path collects updates and,
every `delay` of them, sends what it has collected to the control plane over a
bounded channel. The control plane takes one batch per `recv` and adds it to its
table.

An increment is in one of three places: in the cache, in a batch in the channel,
or in the table. `recv` moves increments and loses none (`recv_held`). So does an
`update` that keeps its cache or finds room in the channel. But `update` drains
its cache into the argument of `try_send` and does nothing when that fails: the
batch comes back in the error and is dropped (`update_held_of_full`). The store of
`mergeable.rs` keeps its cache in the same situation.

`cpMergeable_conserves` says that nothing else is lost: in a run in which every
batch finds room the three places hold, together, what was passed to `update`.

Mirroring notes:

* `sync_channel` is a bounded first-in first-out queue. Both ends stay alive, so
  `try_send` fails only when the queue is full and `try_recv` only when it is empty.
* `T: AddAssign + Default` is a type with `0` and `+`; merging commutes, as the
  store asks for, where sums are compared.
* `updates` starts again at 0 when it reaches `delay`, so it never overflows.
-/

namespace NetBricks.State

open Utils

variable {T : Type}

/-! ## The channel -/

/-- `sync_channel`: the batches on their way, and how many there may be. -/
structure Channel (T : Type) where
  queue : List (List (Flow × T))
  size : Nat

namespace Channel

/-- `try_send`, and whether it is `Ok`. -/
def trySend (c : Channel T) (v : List (Flow × T)) : Bool × Channel T :=
  if c.queue.length < c.size then (true, { c with queue := c.queue ++ [v] }) else (false, c)

/-- `try_recv`. -/
def tryRecv (c : Channel T) : Option (List (Flow × T)) × Channel T :=
  match c.queue with
  | [] => (none, c)
  | v :: rest => (some v, { c with queue := rest })

/-- The channel takes another batch. -/
def HasRoom (c : Channel T) : Prop := c.queue.length < c.size

end Channel

/-! ## The data path -/

structure CpMergeableStoreDataPath (T : Type) where
  /-- The counts on the data path. -/
  cache : List (Flow × T)
  /-- How many updates this counter has seen. -/
  updates : Nat
  /-- How many updates to see before sending. -/
  delay : Nat

/-- `update`. -/
def CpMergeableStoreDataPath.update (s : CpMergeableStoreDataPath T) (channel : Channel T)
    (flow : Flow) (inc : T) : CpMergeableStoreDataPath T × Channel T :=
  let s := { s with cache := s.cache ++ [(flow, inc)], updates := s.updates + 1 }
  if s.updates ≥ s.delay then
    -- the cache is drained before the channel is asked
    let (_, channel) := channel.trySend s.cache
    ({ s with cache := [], updates := 0 }, channel)
  else (s, channel)

/-! ## The control plane -/

structure CpMergeableStoreControlPlane (T : Type) where
  /-- The actual values. -/
  flowCounters : FlowTable T

namespace CpMergeableStoreControlPlane

/-- `*entry(flow).or_insert_with(Default::default) += c`. -/
def addEntry [Zero T] [Add T] (m : FlowTable T) (p : Flow × T) : FlowTable T :=
  m.insert p.1 (m[p.1]?.getD 0 + p.2)

/-- `update_internal`. -/
def updateInternal [Zero T] [Add T] (s : CpMergeableStoreControlPlane T) (v : List (Flow × T)) :
    CpMergeableStoreControlPlane T :=
  { s with flowCounters := v.foldl addEntry s.flowCounters }

/-- `recv`: drain one batch from the queue. -/
def recv [Zero T] [Add T] (s : CpMergeableStoreControlPlane T) (channel : Channel T) :
    CpMergeableStoreControlPlane T × Channel T :=
  match channel.tryRecv with
  | (none, channel) => (s, channel)
  | (some v, channel) => (s.updateInternal v, channel)

def get [Zero T] (s : CpMergeableStoreControlPlane T) (flow : Flow) : T :=
  match s.flowCounters[flow]? with
  | some i => i
  | none => 0

def iter (s : CpMergeableStoreControlPlane T) : List (Flow × T) := s.flowCounters.toList

def len (s : CpMergeableStoreControlPlane T) : Nat := s.flowCounters.size

def isEmpty (s : CpMergeableStoreControlPlane T) : Bool := s.flowCounters.isEmpty

/-- `remove`: the flow's value (`Default` when it has none), and the table
without it. -/
def remove [Zero T] (s : CpMergeableStoreControlPlane T) (flow : Flow) :
    T × CpMergeableStoreControlPlane T :=
  (s.flowCounters[flow]?.getD 0, { s with flowCounters := s.flowCounters.erase flow })

theorem get_eq [Zero T] (s : CpMergeableStoreControlPlane T) (f : Flow) :
    s.get f = s.flowCounters[f]?.getD 0 := by
  unfold get
  cases s.flowCounters[f]? <;> rfl

/-- Merging a batch adds, flow by flow, what the batch holds. -/
theorem updateInternal_get [AddCommMonoid T] (f : Flow) :
    ∀ (v : List (Flow × T)) (s : CpMergeableStoreControlPlane T),
      (s.updateInternal v).get f = s.get f + (valuesFor f v).sum := by
  intro v
  induction v with
  | nil =>
    intro s
    rw [valuesFor_nil, List.sum_nil, add_zero]
    rfl
  | cons p v ih =>
    intro s
    obtain ⟨g, c⟩ := p
    have hhead : ({ s with flowCounters := addEntry s.flowCounters (g, c) } :
        CpMergeableStoreControlPlane T).get f = s.get f + if g = f then c else 0 := by
      rw [get_eq, get_eq]
      unfold addEntry
      dsimp only
      rw [Std.HashMap.getElem?_insert]
      by_cases h : g = f
      · simp [h]
      · simp [h]
    have hrest := ih { s with flowCounters := addEntry s.flowCounters (g, c) }
    rw [hhead] at hrest
    show (({ s with flowCounters := addEntry s.flowCounters (g, c) } :
      CpMergeableStoreControlPlane T).updateInternal v).get f = _
    rw [hrest, valuesFor_cons]
    by_cases h : g = f
    · simp [h, add_assoc]
    · simp [h]

end CpMergeableStoreControlPlane

/-! ## Both ends together -/

/-- The data path, the control plane and the channel between them. -/
structure CpMergeableStore (T : Type) where
  dataPath : CpMergeableStoreDataPath T
  controlPlane : CpMergeableStoreControlPlane T
  channel : Channel T

/-- `new_cp_mergeable_store`, with `VEC_SIZE = 1 << 24`. -/
def newCpMergeableStore (delay channelSize : Nat) : CpMergeableStore T :=
  { dataPath := { cache := [], updates := 0, delay := delay }
    controlPlane := { flowCounters := Std.HashMap.emptyWithCapacity (1 <<< 24) }
    channel := { queue := [], size := channelSize } }

/-- A call on either end. -/
inductive CpOp (T : Type) where
  | update (flow : Flow) (inc : T)
  | recv

/-- What a call passes to `update` for one flow. -/
def CpOp.increment [Zero T] (f : Flow) : CpOp T → T
  | .update flow inc => if flow = f then inc else 0
  | .recv => 0

namespace CpMergeableStore

/-- The store after one call. -/
def step [Zero T] [Add T] (s : CpMergeableStore T) : CpOp T → CpMergeableStore T
  | .update flow inc =>
    let (dataPath, channel) := s.dataPath.update s.channel flow inc
    { s with dataPath := dataPath, channel := channel }
  | .recv =>
    let (controlPlane, channel) := s.controlPlane.recv s.channel
    { s with controlPlane := controlPlane, channel := channel }

/-- The store after a run. The calls of the two ends come in any order. -/
def run [Zero T] [Add T] (s : CpMergeableStore T) (ops : List (CpOp T)) : CpMergeableStore T :=
  ops.foldl step s

/-- What the three places hold for one flow. -/
def held [AddCommMonoid T] (s : CpMergeableStore T) (f : Flow) : T :=
  s.controlPlane.get f + (valuesFor f s.channel.queue.flatten).sum +
    (valuesFor f s.dataPath.cache).sum

/-- A call that does not send a batch, or finds room for it in the channel. A data path whose
batch is refused loses it, so these are the calls after which nothing is lost. -/
def Fits (s : CpMergeableStore T) : CpOp T → Prop
  | .update _ _ => s.dataPath.updates + 1 < s.dataPath.delay ∨ s.channel.HasRoom
  | .recv => True

/-- Every call of the run fits, in the state it starts from. -/
def FitsThroughout [Zero T] [Add T] : CpMergeableStore T → List (CpOp T) → Prop
  | _, [] => True
  | s, op :: ops => s.Fits op ∧ FitsThroughout (s.step op) ops

theorem new_held [AddCommMonoid T] (delay channelSize : Nat) (f : Flow) :
    (newCpMergeableStore delay channelSize : CpMergeableStore T).held f = 0 := by
  have hget :
      (newCpMergeableStore delay channelSize : CpMergeableStore T).controlPlane.get f = 0 := by
    rw [CpMergeableStoreControlPlane.get_eq]
    unfold newCpMergeableStore
    simp
  unfold held
  rw [hget]
  simp [newCpMergeableStore, valuesFor_nil]

/-- `recv` moves the oldest batch from the channel to the table. -/
theorem recv_held [AddCommMonoid T] (s : CpMergeableStore T) (f : Flow) :
    (s.step .recv).held f = s.held f := by
  obtain ⟨dataPath, controlPlane, queue, size⟩ := s
  cases queue with
  | nil => rfl
  | cons v rest =>
    show (controlPlane.updateInternal v).get f + (valuesFor f rest.flatten).sum +
      (valuesFor f dataPath.cache).sum = controlPlane.get f +
      (valuesFor f (v :: rest).flatten).sum + (valuesFor f dataPath.cache).sum
    rw [CpMergeableStoreControlPlane.updateInternal_get, List.flatten_cons, valuesFor_append,
      List.sum_append]
    simp only [add_assoc]

/-- What the cache holds for a flow after an increment was pushed. -/
theorem sum_valuesFor_concat [AddCommMonoid T] (cache : List (Flow × T)) (flow : Flow) (inc : T)
    (f : Flow) : (valuesFor f (cache ++ [(flow, inc)])).sum =
      (valuesFor f cache).sum + if flow = f then inc else 0 := by
  rw [valuesFor_append, List.sum_append, valuesFor_cons, valuesFor_nil]
  by_cases h : flow = f
  · simp [h]
  · simp [h]

/-- An update that fits adds its increment to what is held. -/
theorem update_held [AddCommMonoid T] {s : CpMergeableStore T} {flow : Flow} {inc : T}
    (hfits : s.Fits (.update flow inc)) (f : Flow) :
    (s.step (.update flow inc)).held f = s.held f + if flow = f then inc else 0 := by
  obtain ⟨⟨cache, updates, delay⟩, controlPlane, queue, size⟩ := s
  unfold held step CpMergeableStoreDataPath.update
  dsimp only
  by_cases hsend : updates + 1 ≥ delay
  · -- the cache goes to the channel, which has room
    have hroom : queue.length < size := by
      rcases hfits with h | h
      · exact absurd (show updates + 1 < delay from h) (by omega)
      · exact h
    unfold Channel.trySend
    rw [if_pos hsend, if_pos hroom]
    dsimp only
    rw [List.flatten_append, List.flatten_singleton, valuesFor_append, List.sum_append,
      sum_valuesFor_concat, valuesFor_nil, List.sum_nil]
    simp only [add_assoc, add_zero]
  · rw [if_neg hsend]
    dsimp only
    rw [sum_valuesFor_concat]
    simp only [add_assoc]

/-- A call that fits adds what it passes to `update`, and loses nothing. -/
theorem step_held [AddCommMonoid T] {s : CpMergeableStore T} {op : CpOp T} (hfits : s.Fits op)
    (f : Flow) : (s.step op).held f = s.held f + op.increment f := by
  cases op with
  | update flow inc => exact update_held hfits f
  | recv =>
    rw [recv_held]
    exact (add_zero _).symm

/-- An update that has to send while the channel is full: what was in the cache is
gone, and the increment with it. -/
theorem update_held_of_full [AddCommMonoid T] {s : CpMergeableStore T}
    (hsend : s.dataPath.delay ≤ s.dataPath.updates + 1) (hfull : ¬ s.channel.HasRoom)
    (flow : Flow) (inc : T) (f : Flow) :
    (s.step (.update flow inc)).held f + (valuesFor f s.dataPath.cache).sum = s.held f := by
  obtain ⟨⟨cache, updates, delay⟩, controlPlane, queue, size⟩ := s
  have hfull : ¬ queue.length < size := hfull
  have hsend : updates + 1 ≥ delay := hsend
  unfold held step CpMergeableStoreDataPath.update Channel.trySend
  dsimp only
  rw [if_pos hsend, if_neg hfull]
  simp [valuesFor_nil]

theorem run_held [AddCommMonoid T] (f : Flow) :
    ∀ (ops : List (CpOp T)) {s : CpMergeableStore T}, s.FitsThroughout ops →
      (s.run ops).held f = s.held f + (ops.map (CpOp.increment f)).sum := by
  intro ops
  induction ops with
  | nil =>
    intro s _
    rw [List.map_nil, List.sum_nil, add_zero]
    rfl
  | cons op ops ih =>
    intro s h
    have hrest : ((s.step op).run ops).held f = _ := ih h.2
    rw [List.map_cons, List.sum_cons, ← add_assoc, ← step_held h.1]
    exact hrest

/-- **No update is lost while the channel keeps up.** For every delay, every size of
the channel and every interleaving of `update` and `recv` calls in which each
batch that is sent finds room, every flow's value in the control plane, its
increments in the channel and those in the cache sum to what was passed to
`update`. -/
theorem cpMergeable_conserves [AddCommMonoid T] (delay channelSize : Nat) {ops : List (CpOp T)}
    (hfits : (newCpMergeableStore delay channelSize).FitsThroughout ops) (f : Flow) :
    ((newCpMergeableStore delay channelSize).run ops).controlPlane.get f +
      (valuesFor f ((newCpMergeableStore delay channelSize).run ops).channel.queue.flatten).sum +
      (valuesFor f ((newCpMergeableStore delay channelSize).run ops).dataPath.cache).sum =
        (ops.map (CpOp.increment f)).sum := by
  have hrun := run_held f ops hfits
  rw [new_held, zero_add] at hrun
  exact hrun

/-- Three updates with a `recv` between them, over a channel for one batch. -/
theorem cpMergeable_conserves_three :
    (newCpMergeableStore 1 1).FitsThroughout
        [.update default 1, .recv, .update default 2, .recv, .update default (4 : Nat)] ∧
      ((newCpMergeableStore 1 1).run
        [.update default 1, .recv, .update default 2, .recv, .update default (4 : Nat)]).held
          default = 7 := by
  have hfits : (newCpMergeableStore 1 1).FitsThroughout
      [.update default 1, .recv, .update default 2, .recv, .update default (4 : Nat)] :=
    ⟨Or.inr Nat.zero_lt_one, trivial, Or.inr Nat.zero_lt_one, trivial, Or.inr Nat.zero_lt_one,
      trivial⟩
  exact ⟨hfits, cpMergeable_conserves 1 1 hfits default⟩

/-- Two updates without a `recv`, over a channel for one batch: of the 3 passed to
`update` only the first 1 is anywhere. -/
theorem cpMergeable_loses_update :
    ((newCpMergeableStore 1 1).run
        [.update default 1, .update default (2 : Nat)]).held default = 1 ∧
      ([.update default 1, .update default (2 : Nat)].map (CpOp.increment default)).sum = 3 := by
  refine ⟨?_, rfl⟩
  have hfits : (newCpMergeableStore 1 1).Fits (.update default (1 : Nat)) := Or.inr Nat.zero_lt_one
  have hfirst := step_held hfits default
  have hsecond := update_held_of_full
    (s := (newCpMergeableStore 1 1).step (.update default (1 : Nat))) (Nat.le_refl 1)
    (Nat.lt_irrefl 1) default 2 default
  rw [hfirst, new_held] at hsecond
  exact hsecond

end CpMergeableStore

end NetBricks.State
