import NetBricks.Utils.Flow

/-!
# `DpMergeableStore`: increments overwrite instead of accumulating

`src/framework/src/state/dp_mergeable.rs`. Updates go to a cache; the cache is
merged into the table when it is full and before every read. The store is
documented as *merge-able*: its value type has a `+=`, and the table should
hold, per flow, the sum of the increments.

`merge_cache` is `self.state.extend(self.cache.drain(0..))`. `extend` inserts,
and inserting a present key replaces its value: `+=` is never called. So the
table holds the *last* increment (`merged_getElem?`), and that is the sum
exactly when the increments before the last one add nothing
(`dpMergeable_accumulates_iff`).

`increments f ops` is the specification side: what was passed to `update` for
`f` since `f` was last removed, read off the operations alone.
-/

namespace NetBricks.State

open Utils

variable {T : Type}

structure DpMergeableStore (T : Type) where
  state : FlowTable T
  cache : List (Flow × T)
  cacheSize : Nat

namespace DpMergeableStore

/-- `with_cache_and_size`. -/
def withCacheAndSize (cache size : Nat) : DpMergeableStore T :=
  { state := Std.HashMap.emptyWithCapacity size, cache := [], cacheSize := cache }

/-- `new`, with `CACHE_SIZE = 1 << 14` and `VEC_SIZE = 1 << 24`. -/
def new : DpMergeableStore T := withCacheAndSize (1 <<< 14) (1 <<< 24)

def mergeCache (s : DpMergeableStore T) : DpMergeableStore T :=
  { s with state := s.state.extend s.cache, cache := [] }

/-- `update`: queue the increment, merge when the cache is full. -/
def update (s : DpMergeableStore T) (flow : Flow) (inc : T) : DpMergeableStore T :=
  let s := { s with cache := s.cache ++ [(flow, inc)] }
  if s.cache.length ≥ s.cacheSize then s.mergeCache else s

/-- `remove`: the flow's value (`Default` when it has none), and the store
without it. -/
def remove [Zero T] (s : DpMergeableStore T) (flow : Flow) : T × DpMergeableStore T :=
  let s := s.mergeCache
  (s.state[flow]?.getD 0, { s with state := s.state.erase flow })

/-- `iter`: the entries, in no particular order. -/
def iter (s : DpMergeableStore T) : List (Flow × T) × DpMergeableStore T :=
  (s.mergeCache.state.toList, s.mergeCache)

def len (s : DpMergeableStore T) : Nat × DpMergeableStore T :=
  (s.mergeCache.state.size, s.mergeCache)

def isEmpty (s : DpMergeableStore T) : Bool := s.state.isEmpty && s.cache.isEmpty

end DpMergeableStore

/-! ## Runs -/

/-- The operations that touch the store. -/
inductive DpOp (T : Type) where
  | update (flow : Flow) (inc : T)
  | remove (flow : Flow)
  | iter
  | len

/-- The store after one operation. -/
def DpMergeableStore.step [Zero T] (s : DpMergeableStore T) : DpOp T → DpMergeableStore T
  | .update flow inc => s.update flow inc
  | .remove flow => (s.remove flow).2
  | .iter => s.iter.2
  | .len => s.len.2

/-- The store after a run. -/
def DpMergeableStore.run [Zero T] (s : DpMergeableStore T) (ops : List (DpOp T)) :
    DpMergeableStore T := ops.foldl DpMergeableStore.step s

/-- What one operation does to the increments pending for a flow. -/
def incrementsStep (f : Flow) (acc : List T) : DpOp T → List T
  | .update flow inc => if flow = f then acc ++ [inc] else acc
  | .remove flow => if flow = f then [] else acc
  | .iter => acc
  | .len => acc

/-- The increments passed to `update` for `f` since it was last removed. -/
def increments (f : Flow) (ops : List (DpOp T)) : List T := ops.foldl (incrementsStep f) []

/-- The increments before the last one add nothing: the whole list sums to its
last element. -/
def LastIsSum [AddCommMonoid T] (incs : List T) : Prop := incs.sum = incs.getLast?.getD 0

/-- The table that a merge at this point would give, looked up at `f`. -/
theorem merged_getElem? (s : DpMergeableStore T) (f : Flow) :
    s.mergeCache.state[f]? = (valuesFor f s.cache).getLast?.or s.state[f]? :=
  getElem?_extend f s.cache s.state

/-- Merging is idempotent as far as lookups can see. -/
theorem mergeCache_mergeCache (s : DpMergeableStore T) :
    s.mergeCache.mergeCache.state = s.mergeCache.state := rfl

/-- An update puts its increment on top of what a merge would give. -/
theorem update_getElem? (s : DpMergeableStore T) (flow : Flow) (inc : T) (f : Flow) :
    (s.update flow inc).mergeCache.state[f]? =
      if flow = f then some inc else s.mergeCache.state[f]? := by
  have hpush :
      ({ s with cache := s.cache ++ [(flow, inc)] } : DpMergeableStore T).mergeCache.state[f]? =
      if flow = f then some inc else s.mergeCache.state[f]? := by
    rw [merged_getElem?, merged_getElem?, valuesFor_append, valuesFor_cons, valuesFor_nil]
    by_cases h : flow = f
    · rw [if_pos h, if_pos h, List.getLast?_concat]
      rfl
    · rw [if_neg h, if_neg h, List.append_nil]
  unfold DpMergeableStore.update
  dsimp only
  split
  · rw [mergeCache_mergeCache]
    exact hpush
  · exact hpush

theorem remove_getElem? [Zero T] (s : DpMergeableStore T) (flow f : Flow) :
    (s.remove flow).2.mergeCache.state[f]? =
      if flow = f then none else s.mergeCache.state[f]? := by
  show (s.mergeCache.state.erase flow)[f]? = _
  rw [Std.HashMap.getElem?_erase]
  by_cases h : flow = f
  · rw [if_pos (by simpa using h), if_pos h]
  · rw [if_neg (by simpa using h), if_neg h]

/-- One operation keeps "merging gives the last pending increment". -/
theorem step_getElem? [Zero T] {s : DpMergeableStore T} {f : Flow} {acc : List T}
    (h : s.mergeCache.state[f]? = acc.getLast?) (op : DpOp T) :
    (s.step op).mergeCache.state[f]? = (incrementsStep f acc op).getLast? := by
  cases op with
  | update flow inc =>
    rw [DpMergeableStore.step, update_getElem?, incrementsStep]
    by_cases hf : flow = f
    · rw [if_pos hf, if_pos hf, List.getLast?_concat]
    · rw [if_neg hf, if_neg hf]
      exact h
  | remove flow =>
    rw [DpMergeableStore.step, remove_getElem?, incrementsStep]
    by_cases hf : flow = f
    · rw [if_pos hf, if_pos hf]
      rfl
    · rw [if_neg hf, if_neg hf]
      exact h
  | iter => exact h
  | len => exact h

theorem run_getElem?_aux [Zero T] (f : Flow) :
    ∀ (ops : List (DpOp T)) {s : DpMergeableStore T} {acc : List T},
      s.mergeCache.state[f]? = acc.getLast? →
      (s.run ops).mergeCache.state[f]? = (ops.foldl (incrementsStep f) acc).getLast? := by
  intro ops
  induction ops with
  | nil => intro s acc h; exact h
  | cons op ops ih => intro s acc h; exact ih (step_getElem? h op)

/-- After any run from an empty store, a merge gives each flow the last
increment passed for it since it was removed. -/
theorem run_getElem? [Zero T] (cache size : Nat) (ops : List (DpOp T)) (f : Flow) :
    ((DpMergeableStore.withCacheAndSize cache size).run ops).mergeCache.state[f]? =
      (increments f ops).getLast? := by
  refine run_getElem?_aux f ops ?_
  rw [merged_getElem?]
  exact Std.HashMap.getElem?_emptyWithCapacity

/-- `remove` therefore returns the last increment, not their sum. -/
theorem run_remove [Zero T] (cache size : Nat) (ops : List (DpOp T)) (f : Flow) :
    (((DpMergeableStore.withCacheAndSize cache size).run ops).remove f).1 =
      (increments f ops).getLast?.getD 0 := by
  show ((DpMergeableStore.withCacheAndSize cache size).run ops).mergeCache.state[f]?.getD 0 = _
  rw [run_getElem?]

/-- `iter` lists every flow with pending increments, each with the last one. -/
theorem run_mem_iter [Zero T] (cache size : Nat) (ops : List (DpOp T)) (f : Flow) (v : T) :
    (f, v) ∈ ((DpMergeableStore.withCacheAndSize cache size).run ops).iter.1 ↔
      (increments f ops).getLast? = some v := by
  rw [← run_getElem? cache size ops f]
  exact Std.HashMap.mem_toList_iff_getElem?_eq_some

theorem iter_keys_nodup (s : DpMergeableStore T) : (s.iter.1.map Prod.fst).Nodup := by
  show (s.mergeCache.state.toList.map Prod.fst).Nodup
  rw [Std.HashMap.map_fst_toList_eq_keys]
  exact Std.HashMap.nodup_keys

/-! ## When the store accumulates -/

/-- What the store is documented to do, in one state reached by `ops`: `iter`
lists each flow with increments once, with their sum, and no other flow;
`remove` returns that sum. -/
def Accumulates [AddCommMonoid T] (s : DpMergeableStore T) (ops : List (DpOp T)) : Prop :=
  (s.iter.1.map Prod.fst).Nodup ∧
  (∀ f v, (f, v) ∈ s.iter.1 ↔ increments f ops ≠ [] ∧ v = (increments f ops).sum) ∧
  ∀ f, (s.remove f).1 = (increments f ops).sum

/-- Where the sum is the last element, "the last increment is `v`" and "there
are increments and their sum is `v`" say the same. -/
theorem LastIsSum.getLast?_eq_some_iff [AddCommMonoid T] {incs : List T} (h : LastIsSum incs)
    (v : T) : incs.getLast? = some v ↔ incs ≠ [] ∧ v = incs.sum := by
  rw [LastIsSum] at h
  constructor
  · intro hv
    refine ⟨?_, ?_⟩
    · rintro rfl
      cases hv
    · rw [h, hv]
      rfl
  · rintro ⟨hne, rfl⟩
    rw [h, List.getLast?_eq_some_getLast hne]
    rfl

/-- **The store accumulates exactly when overwriting does not show.** In the
state any run reaches from an empty store with any cache size, `iter` and
`remove` give the sums of the increments if and only if, for every flow, the
increments passed since its last removal sum to the last of them. -/
theorem dpMergeable_accumulates_iff [AddCommMonoid T] (cache size : Nat) (ops : List (DpOp T)) :
    Accumulates ((DpMergeableStore.withCacheAndSize cache size).run ops) ops ↔
      ∀ f, LastIsSum (increments f ops) := by
  constructor
  · rintro ⟨-, -, hsum⟩ f
    rw [LastIsSum, ← hsum f, run_remove]
  · intro h
    refine ⟨iter_keys_nodup _, fun f v => ?_, fun f => ?_⟩
    · rw [run_mem_iter]
      exact (h f).getLast?_eq_some_iff v
    · rw [run_remove]
      exact (h f).symm

/-- Two packets of one flow are counted as one: the second increment of 1
replaces the first. -/
theorem dpMergeable_overwrites :
    ¬ Accumulates
      ((DpMergeableStore.withCacheAndSize 1 1).run
        [.update default 1, .update default (1 : Nat)])
      [.update default 1, .update default 1] := by
  rintro ⟨-, -, hsum⟩
  have hone := hsum default
  rw [run_remove] at hone
  exact absurd hone (by decide)

end NetBricks.State
