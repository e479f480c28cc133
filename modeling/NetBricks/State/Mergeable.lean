import NetBricks.State.DpMergeable

/-!
# `MergeableStoreCP` and its data-plane handles

`src/framework/src/state/mergeable.rs`. Each data-plane handle caches updates
and merges them, when it gets the write lock, into a table it shares with the
control plane; `sync` copies the tables whose read lock it gets into one.

Every merge on the way is an `extend`. So a handle's table holds the last
increment merged for a flow (`step_related`), and the control plane's
the last one of the last acquired handle that has any (`getElem?_sync`): what
`sync` computes is the last element of the list whose *sum* is documented
(`mergeable_sync_iff`).

Mirroring notes:

* An `Arc` is the index of its table in `Stores.tables`; `clone` of the `Arc`
  copies the index.
* Which `try_write` and `try_read` succeed is the scheduler's choice, so calls
  carry it. `write` waits, and fails only on a poisoned lock; no code under the
  lock panics here, so it succeeds.
* `cache_size * 2` runs only when the cache already holds `cache_size` entries
  of several bytes each, which keeps it below `2^63`: it is not reduced.
-/

namespace NetBricks.State

open Utils

variable {T : Type}

/-- `MAX_CACHE_SIZE`. -/
def maxCacheSize : Nat := 1 <<< 20

/-! ## The data-plane handle -/

structure MergeableStoreDP (T : Type) where
  /-- The shared table, by its index in `Stores.tables`. -/
  flowCounters : Nat
  cache : List (Flow × T)
  baseCacheSize : Nat
  cacheSize : Nat
  len : Nat

namespace MergeableStoreDP

/-- `merge_cache`, with the table behind the lock and whether `try_write`
succeeded. -/
def mergeCache (s : MergeableStoreDP T) (g : FlowTable T) (tryWrite : Bool) :
    MergeableStoreDP T × FlowTable T :=
  if tryWrite then
    let g := g.extend s.cache
    ({ s with cache := [], cacheSize := s.baseCacheSize, len := g.size }, g)
  else ({ s with cacheSize := max (s.cacheSize * 2) maxCacheSize }, g)

def update (s : MergeableStoreDP T) (g : FlowTable T) (flow : Flow) (inc : T) (tryWrite : Bool) :
    MergeableStoreDP T × FlowTable T :=
  let s := { s with cache := s.cache ++ [(flow, inc)] }
  if s.cache.length ≥ s.cacheSize then s.mergeCache g tryWrite else (s, g)

/-- `remove`. `len` is recorded before the entry goes. -/
def remove [Zero T] (s : MergeableStoreDP T) (g : FlowTable T) (flow : Flow) :
    T × MergeableStoreDP T × FlowTable T :=
  let g := g.extend s.cache
  let s := { s with cache := [], cacheSize := s.baseCacheSize, len := g.size }
  (g[flow]?.getD 0, s, g.erase flow)

/-- `is_empty`, with the comparison as the source has it. -/
def isEmpty (s : MergeableStoreDP T) : Bool := s.len != 0

end MergeableStoreDP

/-! ## The control plane -/

structure MergeableStoreCP (T : Type) where
  flowCounters : FlowTable T
  /-- The shared tables, by their index in `Stores.tables`. -/
  hashmaps : List Nat

namespace MergeableStoreCP

/-- `new`, with `VEC_SIZE = 1 << 10`. -/
def new : MergeableStoreCP T :=
  { flowCounters := Std.HashMap.emptyWithCapacity (1 <<< 10 <<< 6), hashmaps := [] }

def hmapToVec (hash : FlowTable T) : List (Flow × T) := hash.toList

/-- The copy `sync` takes of one table, when it gets the read lock. -/
def tryCopy (tables : List (FlowTable T)) (tryRead : Nat → Bool) (hmap : Nat) :
    Option (List (Flow × T)) :=
  if tryRead hmap then tables[hmap]?.map hmapToVec else none

/-- The copies it takes, in the order it visits the tables. -/
def copies (tables : List (FlowTable T)) (tryRead : Nat → Bool) (hashmaps : List Nat) :
    List (List (Flow × T)) :=
  hashmaps.filterMap (tryCopy tables tryRead)

/-- `sync`. -/
def sync (cp : MergeableStoreCP T) (tables : List (FlowTable T)) (tryRead : Nat → Bool) :
    MergeableStoreCP T :=
  { cp with flowCounters := (copies tables tryRead cp.hashmaps).foldl FlowTable.extend ∅ }

def get [Zero T] (cp : MergeableStoreCP T) (flow : Flow) : T :=
  match cp.flowCounters[flow]? with
  | some i => i
  | none => 0

def iter (cp : MergeableStoreCP T) : List (Flow × T) := cp.flowCounters.toList

def len (cp : MergeableStoreCP T) : Nat := cp.flowCounters.size

def isEmpty (cp : MergeableStoreCP T) : Bool := cp.flowCounters.isEmpty

end MergeableStoreCP

/-! ## The control plane and its handles together -/

/-- The tables behind the `Arc`s, the control plane, and the handles in the
order of their creation. -/
structure Stores (T : Type) where
  tables : List (FlowTable T)
  cp : MergeableStoreCP T
  dps : List (MergeableStoreDP T)

/-- A call on a handle, with the outcome of its `try_write`. -/
inductive DpCall (T : Type) where
  | update (flow : Flow) (inc : T) (tryWrite : Bool)
  | remove (flow : Flow)

/-- A call on the control plane or on a handle. -/
inductive StoreCall (T : Type) where
  | dpStore (cache size : Nat)
  | dp (handle : Nat) (call : DpCall T)
  | sync (tryRead : Nat → Bool)

namespace Stores

def new : Stores T := { tables := [], cp := .new, dps := [] }

/-- `dp_store_with_cache_and_size`. -/
def dpStoreWithCacheAndSize (s : Stores T) (cache size : Nat) : Stores T :=
  { tables := s.tables ++ [Std.HashMap.emptyWithCapacity size]
    cp := { s.cp with hashmaps := s.cp.hashmaps ++ [s.tables.length] }
    dps := s.dps ++
      [{ flowCounters := s.tables.length, cache := [], cacheSize := cache,
         baseCacheSize := cache, len := 0 }] }

/-- `dp_store`, with `CACHE_SIZE = VEC_SIZE = 1 << 10`. -/
def dpStore (s : Stores T) : Stores T := s.dpStoreWithCacheAndSize (1 <<< 10) (1 <<< 10)

/-- The handle and its table after a call. -/
def dpCall [Zero T] (d : MergeableStoreDP T) (g : FlowTable T) :
    DpCall T → MergeableStoreDP T × FlowTable T
  | .update flow inc tryWrite => d.update g flow inc tryWrite
  | .remove flow => (d.remove g flow).2

/-- One call. A handle that was never created has no calls. -/
def step [Zero T] (s : Stores T) : StoreCall T → Stores T
  | .dpStore cache size => s.dpStoreWithCacheAndSize cache size
  | .dp handle call =>
    match s.dps[handle]? with
    | none => s
    | some d =>
      match s.tables[d.flowCounters]? with
      | none => s
      | some g =>
        let (d', g') := dpCall d g call
        { s with dps := s.dps.set handle d', tables := s.tables.set d.flowCounters g' }
  | .sync tryRead => { s with cp := s.cp.sync s.tables tryRead }

def run [Zero T] (s : Stores T) (calls : List (StoreCall T)) : Stores T := calls.foldl step s

end Stores

/-! ## What an update does -/

namespace MergeableStoreDP

variable {d : MergeableStoreDP T}

theorem update_of_room (h : d.cache.length + 1 < d.cacheSize) (g : FlowTable T) (flow : Flow)
    (inc : T) (tryWrite : Bool) :
    d.update g flow inc tryWrite = ({ d with cache := d.cache ++ [(flow, inc)] }, g) := by
  unfold update
  dsimp only
  rw [List.length_append, List.length_singleton, if_neg (Nat.not_le_of_lt h)]

/-- The cache is full and the lock is free. -/
theorem update_merged (h : d.cacheSize ≤ d.cache.length + 1) (g : FlowTable T) (flow : Flow)
    (inc : T) :
    d.update g flow inc true =
      ({ d with
          cache := []
          cacheSize := d.baseCacheSize
          len := (g.extend (d.cache ++ [(flow, inc)])).size },
        g.extend (d.cache ++ [(flow, inc)])) := by
  unfold update
  dsimp only
  rw [List.length_append, List.length_singleton, if_pos h]
  rfl

/-- The cache is full and somebody else has the lock. -/
theorem update_missed (h : d.cacheSize ≤ d.cache.length + 1) (g : FlowTable T) (flow : Flow)
    (inc : T) :
    d.update g flow inc false =
      ({ d with
          cache := d.cache ++ [(flow, inc)]
          cacheSize := max (d.cacheSize * 2) maxCacheSize }, g) := by
  unfold update
  dsimp only
  rw [List.length_append, List.length_singleton, if_pos h]
  rfl

end MergeableStoreDP

/-! ## What each handle has merged and not removed -/

/-- The pairs a call takes out of the handle's cache: all of it and the new one
when an update fills the cache and gets the lock, all of it on a removal. -/
def drained (d : MergeableStoreDP T) : DpCall T → List (Flow × T)
  | .update flow inc tryWrite =>
    if d.cache.length + 1 ≥ d.cacheSize ∧ tryWrite then d.cache ++ [(flow, inc)] else []
  | .remove _ => d.cache

theorem drained_of_room {d : MergeableStoreDP T} (h : d.cache.length + 1 < d.cacheSize)
    (flow : Flow) (inc : T) (tryWrite : Bool) : drained d (.update flow inc tryWrite) = [] :=
  if_neg fun hfull => Nat.not_le_of_lt h hfull.1

theorem drained_merged {d : MergeableStoreDP T} (h : d.cacheSize ≤ d.cache.length + 1)
    (flow : Flow) (inc : T) :
    drained d (.update flow inc true) = d.cache ++ [(flow, inc)] := if_pos ⟨h, rfl⟩

theorem drained_missed (d : MergeableStoreDP T) (flow : Flow) (inc : T) :
    drained d (.update flow inc false) = [] := if_neg fun h => Bool.false_ne_true h.2

/-- The flow a call removes. -/
def removedBy : DpCall T → Option Flow
  | .update _ _ _ => none
  | .remove flow => some flow

/-- What a call on a handle does to the increments for `f` the handle has merged
and not removed. -/
def keptCall (f : Flow) (d : MergeableStoreDP T) (acc : List T) (call : DpCall T) : List T :=
  if removedBy call = some f then [] else acc ++ valuesFor f (drained d call)

/-- The same for any call of the run and the handle `h`. -/
def keptStep (h : Nat) (f : Flow) (s : Stores T) (acc : List T) : StoreCall T → List T
  | .dp handle call =>
    if handle = h then (s.dps[h]?.map (keptCall f · acc call)).getD acc else acc
  | .dpStore _ _ => acc
  | .sync _ => acc

/-- The increments for `f` that handle `h` has merged out of its cache and not
removed, after `calls` from `s`, when they were `acc` before. -/
def kept [Zero T] (h : Nat) (f : Flow) : Stores T → List T → List (StoreCall T) → List T
  | _, acc, [] => acc
  | s, acc, c :: cs => kept h f (s.step c) (keptStep h f s acc c) cs

/-- The handles whose lock a `sync` acquires, in the order it visits them. -/
def acquired (s : Stores T) (tryRead : Nat → Bool) : List Nat :=
  (List.range s.dps.length).filter tryRead

/-! ## The tables hold the last increment -/

/-- Handle `i` owns table `i`, and the control plane lists them all. In the source these are
shared pointers; none of the calls of a run makes two handles share one. -/
structure Linked (s : Stores T) : Prop where
  length_dps : s.dps.length = s.tables.length
  owns : ∀ (h : Nat) (d : MergeableStoreDP T), s.dps[h]? = some d → d.flowCounters = h
  hashmaps : s.cp.hashmaps = List.range s.tables.length

theorem Linked.table {s : Stores T} (hs : Linked s) {h : Nat} {d : MergeableStoreDP T}
    (hd : s.dps[h]? = some d) : ∃ g, s.tables[h]? = some g := by
  obtain ⟨hlt, -⟩ := List.getElem?_eq_some_iff.mp hd
  rw [hs.length_dps] at hlt
  exact ⟨s.tables[h], List.getElem?_eq_getElem hlt⟩

/-- On linked stores a call on a handle works on the table of the same index. -/
theorem step_dp [Zero T] {s : Stores T} (hs : Linked s) {handle : Nat} {d : MergeableStoreDP T}
    {g : FlowTable T} (hd : s.dps[handle]? = some d) (hg : s.tables[handle]? = some g)
    (call : DpCall T) :
    s.step (.dp handle call) =
      { s with dps := s.dps.set handle (Stores.dpCall d g call).1
               tables := s.tables.set handle (Stores.dpCall d g call).2 } := by
  have hown := hs.owns handle d hd
  unfold Stores.step
  simp only [hd, hown, hg]

theorem step_dp_none [Zero T] {s : Stores T} {handle : Nat} (hd : s.dps[handle]? = none)
    (call : DpCall T) : s.step (.dp handle call) = s := by
  unfold Stores.step
  simp only [hd]

/-- No call changes which table a handle owns. -/
theorem dpCall_flowCounters [Zero T] (d : MergeableStoreDP T) (g : FlowTable T) (call : DpCall T) :
    (Stores.dpCall d g call).1.flowCounters = d.flowCounters := by
  cases call with
  | remove flow => rfl
  | update flow inc tryWrite =>
    show (d.update g flow inc tryWrite).1.flowCounters = _
    rcases Nat.lt_or_ge (d.cache.length + 1) d.cacheSize with hroom | hfull
    · rw [MergeableStoreDP.update_of_room hroom]
    · cases tryWrite with
      | true => rw [MergeableStoreDP.update_merged hfull]
      | false => rw [MergeableStoreDP.update_missed hfull]

/-- What a call does to the handle's table: the drained pairs are inserted, and
the removed flow, if any, is erased. -/
theorem dpCall_table [Zero T] (d : MergeableStoreDP T) (g : FlowTable T) (call : DpCall T)
    (f : Flow) :
    (Stores.dpCall d g call).2[f]? =
      if removedBy call = some f then none
      else (valuesFor f (drained d call)).getLast?.or g[f]? := by
  cases call with
  | remove flow =>
    show ((g.extend d.cache).erase flow)[f]? = _
    rw [Std.HashMap.getElem?_erase]
    show _ = if some flow = some f then none else (valuesFor f d.cache).getLast?.or g[f]?
    by_cases h : flow = f
    · rw [if_pos (by simpa using h), if_pos (congrArg some h)]
    · rw [if_neg (by simpa using h), if_neg (fun he => h (Option.some.inj he)), getElem?_extend]
  | update flow inc tryWrite =>
    show (d.update g flow inc tryWrite).2[f]? = _
    rw [if_neg (by simp [removedBy])]
    rcases Nat.lt_or_ge (d.cache.length + 1) d.cacheSize with hroom | hfull
    · rw [MergeableStoreDP.update_of_room hroom, drained_of_room hroom]
      rfl
    · cases tryWrite with
      | true =>
        rw [MergeableStoreDP.update_merged hfull, drained_merged hfull]
        exact getElem?_extend f _ g
      | false =>
        rw [MergeableStoreDP.update_missed hfull, drained_missed]
        rfl

/-- The invariant of a run, for one flow: the stores are linked, each handle's table holds the
last of the increments the handle has kept (`table`), as `extend` replaces what was there, and a
handle that does not exist yet has kept none (`fresh`). -/
structure Related (f : Flow) (s : Stores T) (acc : Nat → List T) : Prop where
  linked : Linked s
  table : ∀ (h : Nat) (g : FlowTable T), s.tables[h]? = some g → g[f]? = (acc h).getLast?
  fresh : ∀ h, s.tables.length ≤ h → acc h = []

theorem related_new (f : Flow) : Related f (Stores.new : Stores T) (fun _ => []) where
  linked := ⟨rfl, fun _ _ hd => (nomatch hd), rfl⟩
  table := fun _ _ hg => nomatch hg
  fresh := fun _ _ => rfl

theorem step_related_dpStore [Zero T] {f : Flow} {s : Stores T} {acc : Nat → List T}
    (h : Related f s acc) (cache size : Nat) :
    Related f (s.step (.dpStore cache size)) acc := by
  refine ⟨⟨?_, ?_, ?_⟩, ?_, ?_⟩
  · show (s.dps ++ _).length = (s.tables ++ _).length
    rw [List.length_append, List.length_append, h.linked.length_dps]
    rfl
  · intro i d hd
    have hd : (s.dps ++ [_])[i]? = some d := hd
    rw [List.getElem?_append] at hd
    split at hd
    · exact h.linked.owns i d hd
    · next hi =>
      have hi' : i = s.dps.length := by
        have := (List.getElem?_eq_some_iff.mp hd).1
        simp only [List.length_singleton] at this
        omega
      rw [hi', Nat.sub_self] at hd
      have hd := Option.some.inj hd
      rw [← hd, hi', h.linked.length_dps]
  · show s.cp.hashmaps ++ [s.tables.length] = List.range (s.tables ++ _).length
    rw [h.linked.hashmaps, List.length_append, List.length_singleton, List.range_succ]
  · intro i g hg
    have hg : (s.tables ++ [Std.HashMap.emptyWithCapacity size])[i]? = some g := hg
    rw [List.getElem?_append] at hg
    split at hg
    · exact h.table i g hg
    · next hi =>
      have hi' : i - s.tables.length = 0 := by
        have := (List.getElem?_eq_some_iff.mp hg).1
        simp only [List.length_singleton] at this
        omega
      rw [hi'] at hg
      rw [← Option.some.inj hg, h.fresh i (Nat.le_of_not_lt hi)]
      exact Std.HashMap.getElem?_emptyWithCapacity
  · intro i hi
    refine h.fresh i ?_
    have hi : (s.tables ++ [_]).length ≤ i := hi
    rw [List.length_append] at hi
    exact Nat.le_trans (Nat.le_add_right _ _) hi

/-- An account `acc` that is kept for handle `i`, at a call on a handle that is there. -/
theorem account_of_some {γ : Type} {s : Stores T} {handle : Nat} {d : MergeableStoreDP T}
    (hd : s.dps[handle]? = some d) (i : Nat) (acc : γ) (next : MergeableStoreDP T → γ) :
    (if handle = i then (s.dps[i]?.map next).getD acc else acc) =
      if handle = i then next d else acc := by
  by_cases hi : handle = i
  · rw [if_pos hi, if_pos hi, ← hi, hd]
    rfl
  · rw [if_neg hi, if_neg hi]

theorem account_of_none {γ : Type} {s : Stores T} {handle : Nat} (hd : s.dps[handle]? = none)
    (i : Nat) (acc : γ) (next : MergeableStoreDP T → γ) :
    (if handle = i then (s.dps[i]?.map next).getD acc else acc) = acc := by
  by_cases hi : handle = i
  · rw [if_pos hi, ← hi, hd]
    rfl
  · rw [if_neg hi]

/-- A call on a handle that exists changes what that handle has kept. -/
theorem keptStep_dp {s : Stores T} {handle : Nat} {d : MergeableStoreDP T}
    (hd : s.dps[handle]? = some d) (i : Nat) (f : Flow) (acc : List T) (call : DpCall T) :
    keptStep i f s acc (.dp handle call) = if handle = i then keptCall f d acc call else acc :=
  account_of_some hd i acc (keptCall f · acc call)

theorem keptStep_dp_none {s : Stores T} {handle : Nat} (hd : s.dps[handle]? = none) (i : Nat)
    (f : Flow) (acc : List T) (call : DpCall T) :
    keptStep i f s acc (.dp handle call) = acc := account_of_none hd i acc (keptCall f · acc call)

theorem step_related_dp [Zero T] {f : Flow} {s : Stores T} {acc : Nat → List T}
    (h : Related f s acc) (handle : Nat) (call : DpCall T) :
    Related f (s.step (.dp handle call)) (fun i => keptStep i f s (acc i) (.dp handle call)) := by
  cases hd : s.dps[handle]? with
  | none =>
    have hacc : (fun i => keptStep i f s (acc i) (.dp handle call)) = acc :=
      funext fun i => keptStep_dp_none hd i f (acc i) call
    rw [step_dp_none hd, hacc]
    exact h
  | some d =>
    obtain ⟨g, hg⟩ := h.linked.table hd
    rw [step_dp h.linked hd hg]
    refine ⟨⟨?_, ?_, ?_⟩, ?_, ?_⟩
    · show (s.dps.set _ _).length = (s.tables.set _ _).length
      rw [List.length_set, List.length_set, h.linked.length_dps]
    · intro i d' hd'
      have hd' : (s.dps.set handle (Stores.dpCall d g call).1)[i]? = some d' := hd'
      by_cases hi : handle = i
      · obtain ⟨hlt, -⟩ := List.getElem?_eq_some_iff.mp hd
        rw [← hi, List.getElem?_set_self hlt] at hd'
        rw [← Option.some.inj hd', dpCall_flowCounters, ← hi]
        exact h.linked.owns handle d hd
      · rw [List.getElem?_set_ne hi] at hd'
        exact h.linked.owns i d' hd'
    · show s.cp.hashmaps = List.range (s.tables.set _ _).length
      rw [List.length_set, h.linked.hashmaps]
    · intro i g' hg'
      have hg' : (s.tables.set handle (Stores.dpCall d g call).2)[i]? = some g' := hg'
      show g'[f]? = (keptStep i f s (acc i) (.dp handle call)).getLast?
      rw [keptStep_dp hd]
      by_cases hi : handle = i
      · subst hi
        obtain ⟨hlt, -⟩ := List.getElem?_eq_some_iff.mp hg
        rw [List.getElem?_set_self hlt] at hg'
        rw [← Option.some.inj hg', dpCall_table, if_pos rfl, keptCall]
        by_cases hrem : removedBy call = some f
        · rw [if_pos hrem, if_pos hrem]
          rfl
        · rw [if_neg hrem, if_neg hrem, List.getLast?_append, h.table handle g hg]
      · rw [List.getElem?_set_ne hi] at hg'
        rw [if_neg hi]
        exact h.table i g' hg'
    · intro i hi
      have hi : (s.tables.set handle (Stores.dpCall d g call).2).length ≤ i := hi
      rw [List.length_set] at hi
      have hne : handle ≠ i := by
        rintro rfl
        obtain ⟨hlt, -⟩ := List.getElem?_eq_some_iff.mp hg
        exact absurd hlt (Nat.not_lt.mpr hi)
      show keptStep i f s (acc i) (.dp handle call) = []
      rw [keptStep_dp hd, if_neg hne]
      exact h.fresh i hi

/-- Every call keeps the invariant, with the kept increments updated. -/
theorem step_related [Zero T] {f : Flow} {s : Stores T} {acc : Nat → List T}
    (h : Related f s acc) (c : StoreCall T) :
    Related f (s.step c) (fun i => keptStep i f s (acc i) c) := by
  cases c with
  | dpStore cache size => exact step_related_dpStore h cache size
  | dp handle call => exact step_related_dp h handle call
  | sync tryRead =>
    exact ⟨⟨h.linked.length_dps, h.linked.owns, h.linked.hashmaps⟩, h.table, h.fresh⟩

theorem run_related [Zero T] (f : Flow) :
    ∀ (calls : List (StoreCall T)) {s : Stores T} {acc : Nat → List T}, Related f s acc →
      Related f (s.run calls) (fun i => kept i f s (acc i) calls) := by
  intro calls
  induction calls with
  | nil => intro s acc h; exact h
  | cons c cs ih => intro s acc h; exact ih (step_related h c)

/-! ## What `sync` computes -/

/-- Merging copies one after another: the last copy that has the flow wins. -/
theorem getElem?_foldl_extend (f : Flow) :
    ∀ (cs : List (List (Flow × T))) (m : FlowTable T),
      (cs.foldl FlowTable.extend m)[f]? = (valuesFor f cs.flatten).getLast?.or m[f]? := by
  intro cs
  induction cs with
  | nil => intro m; rfl
  | cons c cs ih =>
    intro m
    rw [List.foldl_cons, ih, getElem?_extend, List.flatten_cons, valuesFor_append,
      List.getLast?_append, Option.or_assoc]

/-- The copies hold, for one flow, the last kept increment of each acquired
handle that has any. -/
theorem valuesFor_copies {f : Flow} {s : Stores T} {acc : Nat → List T} (h : Related f s acc)
    (tryRead : Nat → Bool) :
    ∀ hs : List Nat, (∀ i ∈ hs, i < s.tables.length) →
      (valuesFor f (MergeableStoreCP.copies s.tables tryRead hs).flatten).getLast? =
        ((hs.filter tryRead).flatMap acc).getLast? := by
  intro hs
  induction hs with
  | nil => intro _; rfl
  | cons i hs ih =>
    intro hlt
    have hi := hlt i List.mem_cons_self
    have ih := ih (fun j hj => hlt j (List.mem_cons_of_mem _ hj))
    unfold MergeableStoreCP.copies at ih ⊢
    cases hr : tryRead i with
    | false =>
      have hcopy : MergeableStoreCP.tryCopy s.tables tryRead i = none := if_neg (by simp [hr])
      rw [List.filterMap_cons_none hcopy, List.filter_cons_of_neg (by simp [hr])]
      exact ih
    | true =>
      have hcopy : MergeableStoreCP.tryCopy s.tables tryRead i =
          some (MergeableStoreCP.hmapToVec s.tables[i]) := by
        rw [MergeableStoreCP.tryCopy, if_pos hr, List.getElem?_eq_getElem hi]
        rfl
      rw [List.filterMap_cons_some hcopy, List.filter_cons_of_pos hr, List.flatten_cons,
        valuesFor_append, List.flatMap_cons, List.getLast?_append, List.getLast?_append, ih]
      congr 1
      rw [MergeableStoreCP.hmapToVec, valuesFor_toList]
      exact h.table i _ (List.getElem?_eq_getElem hi)

/-- After `sync` the control plane's table holds the last of the kept
increments, handle after handle. -/
theorem getElem?_sync {f : Flow} {s : Stores T} {acc : Nat → List T} (h : Related f s acc)
    (tryRead : Nat → Bool) :
    (s.cp.sync s.tables tryRead).flowCounters[f]? =
      ((acquired s tryRead).flatMap acc).getLast? := by
  have hlt : ∀ i ∈ List.range s.tables.length, i < s.tables.length :=
    fun i hi => List.mem_range.mp hi
  unfold MergeableStoreCP.sync acquired
  rw [getElem?_foldl_extend, h.linked.hashmaps, valuesFor_copies h tryRead _ hlt,
    h.linked.length_dps, Std.HashMap.getElem?_empty, Option.or_none]

/-- What the control plane answers for a flow right after a `sync`. -/
def getAfterSync [Zero T] (calls : List (StoreCall T)) (tryRead : Nat → Bool) (f : Flow) : T :=
  ((Stores.new.run calls).step (.sync tryRead)).cp.get f

/-- What it is documented to answer: the sum, over the handles `sync` acquired,
of the increments they have merged and not removed. -/
def aggregate [AddCommMonoid T] (calls : List (StoreCall T)) (tryRead : Nat → Bool) (f : Flow) :
    T :=
  ((acquired (Stores.new.run calls) tryRead).map
    (fun h => (kept h f Stores.new [] calls).sum)).sum

/-- All the increments that sum is over, handle by handle. -/
def aggregated [Zero T] (calls : List (StoreCall T)) (tryRead : Nat → Bool) (f : Flow) :
    List T :=
  (acquired (Stores.new.run calls) tryRead).flatMap (fun h => kept h f Stores.new [] calls)

theorem getAfterSync_eq [Zero T] (calls : List (StoreCall T)) (tryRead : Nat → Bool) (f : Flow) :
    getAfterSync calls tryRead f = (aggregated calls tryRead f).getLast?.getD 0 := by
  have h := getElem?_sync (run_related f calls (related_new f)) tryRead
  unfold getAfterSync aggregated MergeableStoreCP.get
  rw [← h]
  show (match (((Stores.new.run calls).cp.sync _ tryRead).flowCounters[f]? : Option T) with
    | some i => i | none => 0) = _
  split
  · next i hi => rw [hi]; rfl
  · next hi => rw [hi]; rfl

theorem aggregate_eq_sum [AddCommMonoid T] (calls : List (StoreCall T)) (tryRead : Nat → Bool)
    (f : Flow) : aggregate calls tryRead f = (aggregated calls tryRead f).sum := by
  unfold aggregate aggregated
  rw [List.flatMap_def, List.sum_flatten, List.map_map]
  rfl

/-- **`sync` aggregates exactly when overwriting does not show.** For any number
of handles, any run of calls on them and any outcome of the locks, `get` after
`sync` is the sum of the increments the acquired handles have merged and not
removed if and only if these increments, handle by handle, sum to the last of
them. -/
theorem mergeable_sync_iff [AddCommMonoid T] (calls : List (StoreCall T)) (tryRead : Nat → Bool)
    (f : Flow) :
    getAfterSync calls tryRead f = aggregate calls tryRead f ↔
      LastIsSum (aggregated calls tryRead f) := by
  rw [getAfterSync_eq, aggregate_eq_sum, LastIsSum]
  exact eq_comm

/-- Two handles count one packet each of the same flow, and merge it at once;
the control plane reports one packet. -/
theorem mergeable_sync_overwrites :
    ¬ (let calls : List (StoreCall Nat) :=
        [.dpStore 1 1, .dpStore 1 1, .dp 0 (.update default 1 true),
          .dp 1 (.update default 1 true)]
      getAfterSync calls (fun _ => true) default = aggregate calls (fun _ => true) default) := by
  dsimp only
  rw [getAfterSync_eq, aggregate_eq_sum]
  decide

end NetBricks.State
