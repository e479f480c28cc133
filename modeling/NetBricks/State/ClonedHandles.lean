import NetBricks.Lib.Handles
import NetBricks.State.CpMergeable
import NetBricks.State.Mergeable

/-!
# Cloned data-path handles

Both `CpMergeableStoreDataPath` (`src/framework/src/state/cp_mergeable.rs`) and
`MergeableStoreDP` (`mergeable.rs`) derive `Clone`. The clone has the same channel or
the same table, and a copy of the updates still in the cache. So an increment that is
in the cache when the handle is cloned is in two caches, and when both are flushed it
is sent, or merged, twice (`clone_sends_twice`).

`clones_send_once` is what holds. In a run in which each handle is cloned with an empty
cache, as `recv_thread` of the framework test does it, or in which one of the two is not
used afterwards, no increment goes out more often than it was passed to `update`. A
clone that is never used changes nothing in the control plane, the channel or the
tables.

Mirroring notes:

* A handle is held under a name, a variable of the program. `clone` and the
  constructors give a name to a new handle; the handle that had it is dropped, and what
  is in its cache with it (neither type implements `Drop`).
* What a call sends is read off the channel: the batches that are behind those that
  were in it before. What it merges is what `merge_cache` drains from the cache.
-/

namespace NetBricks.State

open Lib Utils

variable {T : Type}

/-! ## The store with a control plane -/

/-- What the handles of a `CpMergeableStore` share, and the control plane behind it. -/
structure CpShared (T : Type) where
  controlPlane : CpMergeableStoreControlPlane T
  channel : Channel T

/-- `update` on a handle, and `recv`. -/
def cpHandles [Zero T] [Add T] :
    HandleSystem (CpMergeableStoreDataPath T) (CpShared T) (Flow × T) Empty Unit where
  act d s call :=
    let (d, channel) := d.update s.channel call.1 call.2
    (d, { s with channel := channel })
  make _ m := nomatch m
  env s _ :=
    let (controlPlane, channel) := s.controlPlane.recv s.channel
    { controlPlane := controlPlane, channel := channel }

/-- The handle of a new store, under the name 0. -/
def newCpHandles (delay channelSize : Nat) :
    Handles Nat (CpMergeableStoreDataPath T) (CpShared T) :=
  let store := newCpMergeableStore delay channelSize
  { handle := Function.update (fun _ => none) 0 (some store.dataPath)
    shared := { controlPlane := store.controlPlane, channel := store.channel } }

/-- An update leaves the channel alone, or puts the cache with the increment behind it. -/
theorem update_channel (d : CpMergeableStoreDataPath T) (channel : Channel T) (flow : Flow)
    (inc : T) :
    ((d.update channel flow inc).1.cache = d.cache ++ [(flow, inc)] ∧
      (d.update channel flow inc).2 = channel) ∨
    ((d.update channel flow inc).1.cache = [] ∧ (d.update channel flow inc).2 = channel) ∨
    ((d.update channel flow inc).1.cache = [] ∧ (d.update channel flow inc).2 =
      { channel with queue := channel.queue ++ [d.cache ++ [(flow, inc)]] }) := by
  unfold CpMergeableStoreDataPath.update Channel.trySend
  dsimp only
  by_cases hsend : d.updates + 1 ≥ d.delay
  · rw [if_pos hsend]
    by_cases hroom : channel.queue.length < channel.size
    · rw [if_pos hroom]
      exact Or.inr (Or.inr ⟨rfl, rfl⟩)
    · rw [if_neg hroom]
      exact Or.inr (Or.inl ⟨rfl, rfl⟩)
  · rw [if_neg hsend]
    exact Or.inl ⟨rfl, rfl⟩

/-- What an update puts into the channel. -/
def sentOn (d : CpMergeableStoreDataPath T) (s : CpShared T) (call : Flow × T) :
    List (Flow × T) :=
  ((d.update s.channel call.1 call.2).2.queue.drop s.channel.queue.length).flatten

/-- The caches and the channel of a `CpMergeableStore`. -/
def cpLedger [Zero T] [Add T] :
    Ledger (cpHandles : HandleSystem (CpMergeableStoreDataPath T) _ _ _ _) (Flow × T) where
  pending d := d.cache
  passed call := [call]
  sent := sentOn
  conserve := by
    intro d s call
    show ((d.update s.channel call.1 call.2).1.cache : Multiset (Flow × T)) + _ ≤ _
    unfold sentOn
    rcases update_channel d s.channel call.1 call.2 with ⟨hcache, hchannel⟩ | ⟨hcache, hchannel⟩ |
      ⟨hcache, hchannel⟩
    · rw [hcache, hchannel, List.drop_length]
      exact le_of_eq (add_zero _)
    · rw [hcache, hchannel, List.drop_length]
      exact Multiset.zero_le _
    · rw [hcache, hchannel, List.drop_left, List.flatten_singleton]
      exact le_of_eq (zero_add _)
  fresh := fun _ m => nomatch m

/-- What the channel and the control plane hold for one flow. -/
def CpShared.held [AddCommMonoid T] (s : CpShared T) (f : Flow) : T :=
  s.controlPlane.get f + (valuesFor f s.channel.queue.flatten).sum

theorem recv_keeps_held [AddCommMonoid T] (s : CpShared T) (f : Flow) :
    (cpHandles.env s ()).held f = s.held f := by
  obtain ⟨controlPlane, queue, size⟩ := s
  cases queue with
  | nil => rfl
  | cons v rest =>
    show (controlPlane.updateInternal v).get f + (valuesFor f rest.flatten).sum =
      controlPlane.get f + (valuesFor f (v :: rest).flatten).sum
    rw [CpMergeableStoreControlPlane.updateInternal_get, List.flatten_cons, valuesFor_append,
      List.sum_append, add_assoc]

theorem update_adds_sent [AddCommMonoid T] (d : CpMergeableStoreDataPath T) (s : CpShared T)
    (call : Flow × T) (f : Flow) :
    (cpHandles.act d s call).2.held f = s.held f + (valuesFor f (sentOn d s call)).sum := by
  show s.controlPlane.get f +
    (valuesFor f (d.update s.channel call.1 call.2).2.queue.flatten).sum = _
  unfold sentOn CpShared.held
  rcases update_channel d s.channel call.1 call.2 with ⟨-, hchannel⟩ | ⟨-, hchannel⟩ |
    ⟨-, hchannel⟩
  · rw [hchannel, List.drop_length, List.flatten_nil, valuesFor_nil, List.sum_nil, add_zero]
  · rw [hchannel, List.drop_length, List.flatten_nil, valuesFor_nil, List.sum_nil, add_zero]
  · rw [hchannel, List.drop_left, List.flatten_append, valuesFor_append, List.sum_append, add_assoc]

theorem step_adds_sent [AddCommMonoid T] (s : Handles Nat (CpMergeableStoreDataPath T) (CpShared T))
    (call : HandleCall Nat (Flow × T) Empty Unit) (f : Flow) :
    (s.step cpHandles call).shared.held f =
      s.shared.held f + (valuesFor f (cpLedger.sentBy s call)).sum := by
  cases call with
  | act name call =>
    unfold Handles.step Ledger.sentBy
    dsimp only
    cases s.handle name with
    | none => exact (add_zero _).symm
    | some d => exact update_adds_sent d s.shared call f
  | clone name copy => exact (add_zero _).symm
  | make name args => exact nomatch args
  | env call => exact (recv_keeps_held s.shared f).trans (add_zero _).symm

/-- The totals are those of what was sent. -/
theorem run_held_eq_sent [AddCommMonoid T] (f : Flow) :
    ∀ (calls : List (HandleCall Nat (Flow × T) Empty Unit))
      (s : Handles Nat (CpMergeableStoreDataPath T) (CpShared T)),
      (s.run cpHandles calls).shared.held f =
        s.shared.held f + (valuesFor f (cpLedger.sentIn s calls)).sum := by
  intro calls
  induction calls with
  | nil => exact fun s => (add_zero _).symm
  | cons c cs ih =>
    intro s
    rw [Ledger.sentIn, valuesFor_append, List.sum_append, ← add_assoc, ← step_adds_sent]
    exact ih (s.step cpHandles c)

theorem newCpHandles_pending [Zero T] [Add T] (delay channelSize n : Nat)
    (d : CpMergeableStoreDataPath T) (hd : (newCpHandles delay channelSize).handle n = some d) :
    cpLedger.pending d = [] := by
  unfold newCpHandles at hd
  dsimp only at hd
  by_cases hn : n = 0
  · rw [hn, Function.update_self] at hd
    cases hd
    rfl
  · rw [Function.update_of_ne hn] at hd
    cases hd

theorem newCpHandles_held [AddCommMonoid T] (delay channelSize : Nat) (f : Flow) :
    (newCpHandles delay channelSize : Handles Nat _ (CpShared T)).shared.held f = 0 := by
  have hnew : (newCpMergeableStore delay channelSize : CpMergeableStore T).held f = 0 :=
    CpMergeableStore.new_held delay channelSize f
  unfold CpMergeableStore.held at hnew
  rwa [show (newCpMergeableStore delay channelSize : CpMergeableStore T).dataPath.cache = []
    from rfl, valuesFor_nil, List.sum_nil, add_zero] at hnew

/-! ## The store with shared tables -/

/-- What the handles of a `MergeableStoreCP` share with it. -/
structure MergeableShared (T : Type) where
  tables : List (FlowTable T)
  cp : MergeableStoreCP T

/-- `update` and `remove` on a handle, `dp_store_with_cache_and_size`, and `sync`. -/
def mergeableHandles [Zero T] :
    HandleSystem (MergeableStoreDP T) (MergeableShared T) (DpCall T) (Nat × Nat) (Nat → Bool) where
  act d s call :=
    match s.tables[d.flowCounters]? with
    | none => (d, s)
    | some g =>
      let (d', g') := Stores.dpCall d g call
      (d', { s with tables := s.tables.set d.flowCounters g' })
  make s args :=
    ({ flowCounters := s.tables.length, cache := [], cacheSize := args.1, baseCacheSize := args.1,
       len := 0 },
      { tables := s.tables ++ [Std.HashMap.emptyWithCapacity args.2]
        cp := { s.cp with hashmaps := s.cp.hashmaps ++ [s.tables.length] } })
  env s tryRead := { s with cp := s.cp.sync s.tables tryRead }

/-- No handle yet. -/
def newMergeableHandles : Handles Nat (MergeableStoreDP T) (MergeableShared T) :=
  { handle := fun _ => none, shared := { tables := [], cp := .new } }

/-- The increment an update passes. -/
def passedTo : DpCall T → List (Flow × T)
  | .update flow inc _ => [(flow, inc)]
  | .remove _ => []

/-- What a call merges into the table of its handle. -/
def mergedInto (d : MergeableStoreDP T) (s : MergeableShared T) (call : DpCall T) :
    List (Flow × T) :=
  match s.tables[d.flowCounters]? with
  | none => []
  | some _ => drained d call

/-- A call keeps in the cache what it does not drain. -/
theorem dpCall_cache [Zero T] (d : MergeableStoreDP T) (g : FlowTable T) (call : DpCall T) :
    drained d call ++ (Stores.dpCall d g call).1.cache = d.cache ++ passedTo call := by
  cases call with
  | remove flow => rfl
  | update flow inc tryWrite =>
    show _ ++ (d.update g flow inc tryWrite).1.cache = _
    rcases Nat.lt_or_ge (d.cache.length + 1) d.cacheSize with hroom | hfull
    · rw [MergeableStoreDP.update_of_room hroom, drained_of_room hroom]
      rfl
    · cases tryWrite with
      | true =>
        rw [MergeableStoreDP.update_merged hfull, drained_merged hfull]
        exact List.append_nil _
      | false =>
        rw [MergeableStoreDP.update_missed hfull, drained_missed]
        rfl

/-- The caches and the tables of a `MergeableStoreCP`. -/
def mergeableLedger [Zero T] :
    Ledger (mergeableHandles : HandleSystem (MergeableStoreDP T) _ _ _ _) (Flow × T) where
  pending d := d.cache
  passed := passedTo
  sent := mergedInto
  conserve := by
    intro d s call
    unfold mergeableHandles mergedInto
    dsimp only
    cases s.tables[d.flowCounters]? with
    | none =>
      dsimp only
      rw [Multiset.coe_nil, add_zero]
      exact Multiset.le_add_right _ _
    | some g =>
      dsimp only
      rw [add_comm, Multiset.coe_add, Multiset.coe_add, dpCall_cache]
  fresh := fun _ _ => rfl

/-! ## Cloning -/

/-- What cloning a data-path handle does to the updates. In a run of calls on handles
and clones of them, in which each handle is cloned with an empty cache or one of the two
is not used afterwards, no increment is sent to the control plane more often than it was
passed to `update`, and the totals there are those of what was sent; nor is one merged
into the shared tables more often. In any run, a clone that is not used changes neither. -/
theorem clones_send_once [AddCommMonoid T] :
    (∀ (delay channelSize : Nat) (calls : List (HandleCall Nat (Flow × T) Empty Unit)),
      cpLedger.ClonesApart (newCpHandles delay channelSize) calls →
      (cpLedger.sentIn (newCpHandles delay channelSize) calls : Multiset (Flow × T)) ≤
          cpLedger.passedIn (newCpHandles delay channelSize) calls ∧
        ∀ f, ((newCpHandles delay channelSize).run cpHandles calls).shared.held f =
          (valuesFor f (cpLedger.sentIn (newCpHandles delay channelSize) calls)).sum) ∧
    (∀ calls : List (HandleCall Nat (DpCall T) (Nat × Nat) (Nat → Bool)),
      mergeableLedger.ClonesApart newMergeableHandles calls →
      (mergeableLedger.sentIn newMergeableHandles calls : Multiset (Flow × T)) ≤
        mergeableLedger.passedIn newMergeableHandles calls) ∧
    (∀ (delay channelSize : Nat) (before rest : List (HandleCall Nat (Flow × T) Empty Unit))
      (name copy : Nat), ¬ Live copy rest →
      ((newCpHandles delay channelSize).run cpHandles (before ++ .clone name copy :: rest)).shared =
        ((newCpHandles delay channelSize).run cpHandles (before ++ rest)).shared) ∧
    (∀ (before rest : List (HandleCall Nat (DpCall T) (Nat × Nat) (Nat → Bool)))
      (name copy : Nat), ¬ Live copy rest →
      (newMergeableHandles.run mergeableHandles (before ++ .clone name copy :: rest)).shared =
        (newMergeableHandles.run mergeableHandles (before ++ rest)).shared) := by
  refine ⟨?_, ?_, ?_, ?_⟩
  · intro delay channelSize calls hapart
    refine ⟨?_, ?_⟩
    · exact cpLedger.sentIn_le_passedIn (newCpHandles_pending delay channelSize) hapart
    · intro f
      rw [run_held_eq_sent, newCpHandles_held, zero_add]
  · intro calls hapart
    exact mergeableLedger.sentIn_le_passedIn nofun hapart
  · intro delay channelSize before rest name copy hlive
    exact Handles.run_clone_of_not_live _ name hlive
  · intro before rest name copy hlive
    exact Handles.run_clone_of_not_live _ name hlive

/-- Two updates, which are sent, then a clone on which two more are made. -/
theorem clones_send_once_flushed :
    (cpLedger.sentIn (newCpHandles 2 4) [.act 0 (default, 1), .act 0 (default, 2), .clone 0 1,
        .act 1 (default, 4), .act 1 (default, (8 : Nat))] : Multiset (Flow × Nat)) ≤
      ([(default, 1), (default, 2), (default, 4), (default, 8)] : List (Flow × Nat)) :=
  (clones_send_once.1 2 4 [.act 0 (default, 1), .act 0 (default, 2), .clone 0 1,
    .act 1 (default, 4), .act 1 (default, (8 : Nat))]
    ⟨trivial, trivial, Or.inl (fun h hh => by cases hh; rfl), trivial, trivial, trivial⟩).1

/-- A clone of a handle with 1 in its cache: the two caches are sent, or merged, and 1
goes out twice. The control plane has 8 where 7 was passed to `update`. -/
theorem clone_sends_twice :
    (cpLedger.sentIn (newCpHandles 2 4) [.act 0 (default, 1), .clone 0 1, .act 0 (default, 2),
        .act 1 (default, (4 : Nat)), .env (), .env ()] =
      [(default, 1), (default, 2), (default, 1), (default, 4)] ∧
    cpLedger.passedIn (newCpHandles 2 4) [.act 0 (default, 1), .clone 0 1, .act 0 (default, 2),
        .act 1 (default, (4 : Nat)), .env (), .env ()] =
      [(default, 1), (default, 2), (default, 4)] ∧
    ((newCpHandles 2 4).run cpHandles [.act 0 (default, 1), .clone 0 1, .act 0 (default, 2),
        .act 1 (default, (4 : Nat)), .env (), .env ()]).shared.held default = 8) ∧
    mergeableLedger.sentIn newMergeableHandles [.make 0 (2, 16), .act 0 (.update default 1 true),
        .clone 0 1, .act 0 (.update default 2 true), .act 1 (.update default (4 : Nat) true)] =
      [(default, 1), (default, 2), (default, 1), (default, 4)] ∧
    mergeableLedger.passedIn newMergeableHandles [.make 0 (2, 16), .act 0 (.update default 1 true),
        .clone 0 1, .act 0 (.update default 2 true), .act 1 (.update default (4 : Nat) true)] =
      [(default, 1), (default, 2), (default, 4)] := by
  have hsent : cpLedger.sentIn (newCpHandles 2 4) [.act 0 (default, 1), .clone 0 1,
      .act 0 (default, 2), .act 1 (default, (4 : Nat)), .env (), .env ()] =
      [(default, 1), (default, 2), (default, 1), (default, 4)] := rfl
  refine ⟨⟨hsent, rfl, ?_⟩, rfl, rfl⟩
  rw [run_held_eq_sent, newCpHandles_held, hsent]
  rfl

end NetBricks.State
