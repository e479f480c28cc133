import NetBricks.State.CpMergeable
import NetBricks.State.Mergeable

/-!
# How large the cache of a handle gets, and when a store is empty

`src/framework/src/state/mergeable.rs`, with the stores of `dp_mergeable.rs` and
`cp_mergeable.rs` for comparison.

A data-plane handle that does not get the lock doubles the size at which it tries again,
`cache_size = max(cache_size * 2, MAX_CACHE_SIZE)`. The constant is meant as a limit, but
`max` makes it the least value: one failed merge takes the size to `MAX_CACHE_SIZE` at
once, and the next one beyond it. `missed` counts the failed merges since the last one that
succeeded, and the size is a function of that number (`cacheSize_run`).
`cacheSize_bounded_iff` says for which numbers it is within the limit.

`is_empty` and `len` agree in three of the four stores. In the fourth, `MergeableStoreDP`,
`is_empty` is `len != 0` (`isEmpty_iff_len`).
-/

namespace NetBricks.State

open Utils

variable {T : Type}

/-! ## Failed merges -/

/-- What a call on a handle does to the number of failed merges since the last one that
succeeded. `remove` waits for the lock. -/
def missedCall (d : MergeableStoreDP T) (acc : Nat) : DpCall T → Nat
  | .update _ _ tryWrite =>
    if d.cache.length + 1 ≥ d.cacheSize then if tryWrite then 0 else acc + 1 else acc
  | .remove _ => 0

/-- The same for any call of the run and the handle `h`. -/
def missedStep (h : Nat) (s : Stores T) (acc : Nat) : StoreCall T → Nat
  | .dp handle call =>
    if handle = h then (s.dps[h]?.map (missedCall · acc call)).getD acc else acc
  | .dpStore _ _ => acc
  | .sync _ => acc

/-- The merges of handle `h` that failed since its last successful one, after `calls` from
`s`, when they were `acc` before. -/
def missed [Zero T] (h : Nat) : Stores T → Nat → List (StoreCall T) → Nat
  | _, acc, [] => acc
  | s, acc, c :: cs => missed h (s.step c) (missedStep h s acc c) cs

/-- The cache size after so many failed merges. -/
def sizeAfter (base : Nat) : Nat → Nat
  | 0 => base
  | n + 1 => max (sizeAfter base n * 2) maxCacheSize

theorem base_le_sizeAfter (base n : Nat) : base ≤ sizeAfter base n := by
  induction n with
  | zero => exact Nat.le_refl _
  | succ n ih =>
    rw [sizeAfter]
    omega

theorem maxCacheSize_pos : 0 < maxCacheSize := by decide

/-- Within the limit at most one merge has failed, and that from half of it or less. -/
theorem sizeAfter_le_iff {base : Nat} (hbase : base ≤ maxCacheSize) (n : Nat) :
    sizeAfter base n ≤ maxCacheSize ↔ n = 0 ∨ n = 1 ∧ 2 * base ≤ maxCacheSize := by
  match n with
  | 0 => exact ⟨fun _ => Or.inl rfl, fun _ => hbase⟩
  | 1 =>
    rw [sizeAfter, sizeAfter]
    omega
  | n + 2 =>
    -- the size was at the limit before the last failure
    have hpos := maxCacheSize_pos
    have hmax : maxCacheSize ≤ sizeAfter base (n + 1) := Nat.le_max_right _ _
    rw [sizeAfter]
    omega

/-- A call on a handle keeps its base size, and its cache size goes by the failed merges. -/
theorem dpCall_cacheSize [Zero T] {d : MergeableStoreDP T} {n : Nat}
    (hd : d.cacheSize = sizeAfter d.baseCacheSize n) (g : FlowTable T) (call : DpCall T) :
    (Stores.dpCall d g call).1.cacheSize =
      sizeAfter (Stores.dpCall d g call).1.baseCacheSize (missedCall d n call) := by
  cases call with
  | remove flow => rfl
  | update flow inc tryWrite =>
    show (d.update g flow inc tryWrite).1.cacheSize =
      sizeAfter (d.update g flow inc tryWrite).1.baseCacheSize _
    rcases Nat.lt_or_ge (d.cache.length + 1) d.cacheSize with hroom | hfull
    · rw [MergeableStoreDP.update_of_room hroom, missedCall, if_neg (Nat.not_le_of_lt hroom)]
      exact hd
    · rw [missedCall, if_pos hfull]
      cases tryWrite with
      | true =>
        rw [MergeableStoreDP.update_merged hfull]
        rfl
      | false =>
        rw [MergeableStoreDP.update_missed hfull]
        show max (d.cacheSize * 2) maxCacheSize = sizeAfter d.baseCacheSize (n + 1)
        rw [hd, sizeAfter]

/-- The invariant of a run: `acc` failed merges explain the cache size of handle `h`, and
a handle that is not there yet has had none. -/
structure Sized (h : Nat) (s : Stores T) (acc : Nat) : Prop where
  size_eq : ∀ d, s.dps[h]? = some d → d.cacheSize = sizeAfter d.baseCacheSize acc
  fresh : s.dps[h]? = none → acc = 0

theorem missedStep_dp {s : Stores T} {handle : Nat} {d : MergeableStoreDP T}
    (hd : s.dps[handle]? = some d) (h acc : Nat) (call : DpCall T) :
    missedStep h s acc (.dp handle call) = if handle = h then missedCall d acc call else acc :=
  account_of_some hd h acc (missedCall · acc call)

theorem missedStep_dp_none {s : Stores T} {handle : Nat} (hd : s.dps[handle]? = none)
    (h acc : Nat) (call : DpCall T) : missedStep h s acc (.dp handle call) = acc :=
  account_of_none hd h acc (missedCall · acc call)

theorem step_sized_dp [Zero T] {h : Nat} {s : Stores T} {acc : Nat} (hlinked : Linked s)
    (hs : Sized h s acc) (handle : Nat) (call : DpCall T) :
    Sized h (s.step (.dp handle call)) (missedStep h s acc (.dp handle call)) := by
  cases hd : s.dps[handle]? with
  | none =>
    rw [step_dp_none hd, missedStep_dp_none hd]
    exact hs
  | some d =>
    obtain ⟨g, hg⟩ := hlinked.table hd
    obtain ⟨hlt, -⟩ := List.getElem?_eq_some_iff.mp hd
    rw [step_dp hlinked hd hg, missedStep_dp hd]
    by_cases heq : handle = h
    · subst heq
      have hset : (s.dps.set handle (Stores.dpCall d g call).1)[handle]? =
          some (Stores.dpCall d g call).1 := List.getElem?_set_self hlt
      rw [if_pos rfl]
      refine ⟨fun d' hd' => ?_, fun hnone => ?_⟩
      · rw [← Option.some.inj (hset.symm.trans hd')]
        exact dpCall_cacheSize (hs.size_eq d hd) g call
      · cases hset.symm.trans hnone
    · have hset : (s.dps.set handle (Stores.dpCall d g call).1)[h]? = s.dps[h]? :=
        List.getElem?_set_ne heq
      rw [if_neg heq]
      exact ⟨fun d' hd' => hs.size_eq d' (hset.symm.trans hd'), fun hnone =>
        hs.fresh (hset.symm.trans hnone)⟩

theorem step_sized_dpStore [Zero T] {h : Nat} {s : Stores T} {acc : Nat} (hs : Sized h s acc)
    (cache size : Nat) : Sized h (s.step (.dpStore cache size)) acc := by
  refine ⟨fun d hd => ?_, fun hnone => ?_⟩
  · have hd : (s.dps ++ [_])[h]? = some d := hd
    rw [List.getElem?_append] at hd
    split at hd
    next hlt => exact hs.size_eq d hd
    next hge =>
      -- the new handle, which nobody has called yet
      have hzero : h - s.dps.length = 0 := by
        have := (List.getElem?_eq_some_iff.mp hd).1
        simp only [List.length_singleton] at this
        omega
      rw [hzero] at hd
      rw [← Option.some.inj hd, hs.fresh (List.getElem?_eq_none (Nat.le_of_not_lt hge))]
      rfl
  · apply hs.fresh
    have hnone : (s.dps ++ [_])[h]? = none := hnone
    rw [List.getElem?_eq_none_iff, List.length_append] at hnone
    exact List.getElem?_eq_none (Nat.le_trans (Nat.le_add_right _ _) hnone)

theorem step_sized [Zero T] {h : Nat} {s : Stores T} {acc : Nat} (hlinked : Linked s)
    (hs : Sized h s acc) (c : StoreCall T) : Sized h (s.step c) (missedStep h s acc c) := by
  cases c with
  | dpStore cache size => exact step_sized_dpStore hs cache size
  | dp handle call => exact step_sized_dp hlinked hs handle call
  | sync tryRead => exact ⟨hs.size_eq, hs.fresh⟩

theorem run_sized [Zero T] (h : Nat) (f : Flow) :
    ∀ (calls : List (StoreCall T)) {s : Stores T} {acc : Nat} {kept : Nat → List T},
      Related f s kept → Sized h s acc → Sized h (s.run calls) (missed h s acc calls) := by
  intro calls
  induction calls with
  | nil => intro s acc kept _ hs; exact hs
  | cons c cs ih =>
    intro s acc kept hrel hs
    exact ih (step_related hrel c) (step_sized hrel.linked hs c)

/-- The cache size of a handle after any run, from its failed merges. -/
theorem cacheSize_run [Zero T] (calls : List (StoreCall T)) {h : Nat} {d : MergeableStoreDP T}
    (hd : (Stores.new.run calls).dps[h]? = some d) :
    d.cacheSize = sizeAfter d.baseCacheSize (missed h Stores.new 0 calls) := by
  have hnew : Sized h (Stores.new : Stores T) 0 := ⟨fun _ hd => (nomatch hd), fun _ => rfl⟩
  exact (run_sized h default calls (related_new default) hnew).size_eq d hd

/-- The next update that gets the lock merges the cache. -/
def MergeableStoreDP.Retries (d : MergeableStoreDP T) : Prop :=
  ∀ g flow inc, (d.update g flow inc true).1.cache = []

theorem MergeableStoreDP.retries_of_le {d : MergeableStoreDP T}
    (h : d.cacheSize ≤ d.cache.length + 1) : d.Retries := by
  intro g flow inc
  rw [update_merged h]

/-- **The bound of the cache.** For every run of calls on the stores and every handle created
with a size of at most `MAX_CACHE_SIZE`: the cache size never falls below the base size; it is
at most `MAX_CACHE_SIZE` exactly as long as no merge has failed since the last successful one,
or one has, from a base size of at most half the limit; and then a handle with
`MAX_CACHE_SIZE` entries tries to merge at every update. -/
theorem cacheSize_bounded_iff [Zero T] (calls : List (StoreCall T)) {h : Nat}
    {d : MergeableStoreDP T} (hd : (Stores.new.run calls).dps[h]? = some d)
    (hbase : d.baseCacheSize ≤ maxCacheSize) :
    d.baseCacheSize ≤ d.cacheSize ∧
    (d.cacheSize ≤ maxCacheSize ↔ missed h Stores.new 0 calls = 0 ∨
      missed h Stores.new 0 calls = 1 ∧ 2 * d.baseCacheSize ≤ maxCacheSize) ∧
    (d.cacheSize ≤ maxCacheSize → maxCacheSize ≤ d.cache.length → d.Retries) := by
  have hsize := cacheSize_run calls hd
  refine ⟨?_, ?_, fun hle hlen => MergeableStoreDP.retries_of_le (by omega)⟩
  · rw [hsize]
    exact base_le_sizeAfter _ _
  · rw [hsize]
    exact sizeAfter_le_iff hbase _

/-- After one failed merge of a handle with a base size of 1 the size is at its limit. -/
theorem cacheSize_bounded_once : ∃ d : MergeableStoreDP Nat,
    (Stores.new.run [.dpStore 1 16, .dp 0 (.update default 1 false)]).dps[0]? = some d ∧
      missed 0 (Stores.new : Stores Nat) 0 [.dpStore 1 16, .dp 0 (.update default 1 false)] = 1 ∧
      d.baseCacheSize ≤ d.cacheSize ∧ d.cacheSize ≤ maxCacheSize := by
  have hrun : (Stores.new.run [.dpStore 1 16, .dp 0 (.update default 1 false)]).dps[0]? = some
      { flowCounters := 0, cache := [(default, 1)], baseCacheSize := 1
        cacheSize := max (1 * 2) maxCacheSize, len := 0 } := rfl
  obtain ⟨hbase, hiff, -⟩ := cacheSize_bounded_iff _ hrun (show 1 ≤ maxCacheSize by decide)
  exact ⟨_, hrun, rfl, hbase, hiff.mpr (Or.inr ⟨rfl, by decide⟩)⟩

/-! ## A handle that never gets the lock -/

/-- An update that does not get the lock, for the handle itself. -/
theorem dps_step_missed [Zero T] {f : Flow} {s : Stores T} {kept : Nat → List T}
    (hrel : Related f s kept) {h : Nat} {d : MergeableStoreDP T} (hd : s.dps[h]? = some d)
    (flow : Flow) (inc : T) :
    (s.step (.dp h (.update flow inc false))).dps[h]? = some
      { d with
        cache := d.cache ++ [(flow, inc)]
        cacheSize := if d.cache.length + 1 ≥ d.cacheSize then max (d.cacheSize * 2) maxCacheSize
          else d.cacheSize } := by
  obtain ⟨g, hg⟩ := hrel.linked.table hd
  obtain ⟨hlt, -⟩ := List.getElem?_eq_some_iff.mp hd
  rw [step_dp hrel.linked hd hg]
  show (s.dps.set h (d.update g flow inc false).1)[h]? = _
  rw [List.getElem?_set_self hlt]
  rcases Nat.lt_or_ge (d.cache.length + 1) d.cacheSize with hroom | hfull
  · rw [MergeableStoreDP.update_of_room hroom, if_neg (Nat.not_le_of_lt hroom)]
  · rw [MergeableStoreDP.update_missed hfull, if_pos hfull]

/-- As long as the cache has room it only grows. -/
theorem dps_run_missed [Zero T] {f : Flow} (flow : Flow) (inc : T) :
    ∀ (n : Nat) {s : Stores T} {kept : Nat → List T}, Related f s kept →
      ∀ {h : Nat} {d : MergeableStoreDP T}, s.dps[h]? = some d →
        d.cache.length + n < d.cacheSize →
        (∃ kept', Related f (s.run (List.replicate n (.dp h (.update flow inc false)))) kept') ∧
          (s.run (List.replicate n (.dp h (.update flow inc false)))).dps[h]? =
            some { d with cache := d.cache ++ List.replicate n (flow, inc) } := by
  intro n
  induction n with
  | zero =>
    intro s kept hrel h d hd _
    refine ⟨⟨kept, hrel⟩, ?_⟩
    rw [List.replicate_zero, List.replicate_zero, List.append_nil]
    exact hd
  | succ n ih =>
    intro s kept hrel h d hd hroom
    have hstep := dps_step_missed hrel hd flow inc
    rw [if_neg (by omega)] at hstep
    have hrest := ih (step_related hrel (.dp h (.update flow inc false))) hstep (by
      show (d.cache ++ [(flow, inc)]).length + n < d.cacheSize
      rw [List.length_append, List.length_singleton]
      omega)
    rw [List.append_assoc, List.singleton_append, ← List.replicate_succ] at hrest
    exact hrest

/-- So many updates of one handle in a row, none of which gets the lock. -/
def contended (n : Nat) : List (StoreCall Nat) :=
  .dpStore 1 16 :: List.replicate n (.dp 0 (.update default 1 false))

/-- The first update fails to merge, and then the last one does. -/
theorem run_contended {n : Nat} (hn : maxCacheSize = n + 2) :
    ∃ d, (Stores.new.run (contended (n + 2))).dps[0]? = some d ∧ d.baseCacheSize = 1 ∧
      d.cacheSize = 2 * maxCacheSize ∧ d.cache.length = maxCacheSize := by
  have hrel := step_related (step_related (related_new default) (.dpStore 1 16))
    (.dp 0 (.update default (1 : Nat) false))
  have hfirst := dps_step_missed (step_related (related_new default) (.dpStore 1 16)) (h := 0) rfl
    default (1 : Nat)
  obtain ⟨⟨kept', hrel'⟩, hmiddle⟩ := dps_run_missed default (1 : Nat) n hrel hfirst (by
    show 0 + 1 + n < max (1 * 2) maxCacheSize
    omega)
  have hlast := dps_step_missed hrel' hmiddle default 1
  have hcalls : contended (n + 2) = .dpStore 1 16 :: .dp 0 (.update default 1 false) ::
      (List.replicate n (.dp 0 (.update default 1 false)) ++
        [.dp 0 (.update default 1 false)]) := by
    rw [contended, List.replicate_succ, List.replicate_succ']
  have hrun : Stores.new.run (contended (n + 2)) = (((Stores.new.step (.dpStore 1 16)).step
      (.dp 0 (.update default 1 false))).run
        (List.replicate n (.dp 0 (.update default 1 false)))).step
          (.dp 0 (.update default 1 false)) := by
    rw [hcalls, Stores.run, List.foldl_cons, List.foldl_cons, List.foldl_append]
    rfl
  rw [← hrun] at hlast
  have hlen : ([] ++ [((default : Flow), 1)] ++ List.replicate n (default, 1)).length = n + 1 := by
    simp
  have hsize : max (1 * 2) maxCacheSize = maxCacheSize := by omega
  refine ⟨_, hlast, rfl, ?_, ?_⟩
  · show (if ([] ++ [((default : Flow), 1)] ++ List.replicate n (default, 1)).length + 1 ≥
      max (1 * 2) maxCacheSize then max (max (1 * 2) maxCacheSize * 2) maxCacheSize
      else max (1 * 2) maxCacheSize) = _
    rw [hlen, hsize, if_pos (by omega)]
    omega
  · show ([] ++ [((default : Flow), 1)] ++ List.replicate n (default, 1) ++
      [(default, 1)]).length = _
    rw [List.length_append, hlen, hn]
    rfl

/-- After `MAX_CACHE_SIZE` updates without the lock the size is twice the limit, and the next
updates do not try to merge. -/
theorem cacheSize_doubles : ∃ d,
    (Stores.new.run (contended maxCacheSize)).dps[0]? = some d ∧ d.baseCacheSize = 1 ∧
      d.cacheSize = 2 * maxCacheSize ∧ d.cache.length = maxCacheSize ∧ ¬ d.Retries := by
  obtain ⟨n, hn⟩ : ∃ n, maxCacheSize = n + 2 := ⟨maxCacheSize - 2, by decide⟩
  obtain ⟨d, hd, hbase, hsize, hlen⟩ := run_contended hn
  rw [← hn] at hd
  refine ⟨d, hd, hbase, hsize, hlen, fun hretries => ?_⟩
  have hcache := hretries ∅ default 1
  rw [MergeableStoreDP.update_of_room (by omega)] at hcache
  simp at hcache

/-! ## Empty stores -/

theorem size_extend_eq_zero_iff (m : FlowTable T) (l : List (Flow × T)) :
    (m.extend l).size = 0 ↔ (m.isEmpty && l.isEmpty) = true := by
  have hempty : (m.extend l).isEmpty = (m.isEmpty && l.isEmpty) :=
    Std.HashMap.isEmpty_insertMany_list
  rw [← hempty, Std.HashMap.isEmpty_eq_size_eq_zero, beq_iff_eq]

theorem isEmpty_iff_size (m : FlowTable T) : m.isEmpty = true ↔ m.size = 0 := by
  rw [Std.HashMap.isEmpty_eq_size_eq_zero, beq_iff_eq]

/-- **Emptiness.** In every state `is_empty` says whether `len` is 0, for the stores of
`dp_mergeable.rs` and of the control planes; for the data-plane handle of `mergeable.rs` it
says the opposite. -/
theorem isEmpty_iff_len :
    (∀ s : DpMergeableStore T, s.isEmpty = true ↔ s.len.1 = 0) ∧
    (∀ s : MergeableStoreCP T, s.isEmpty = true ↔ s.len = 0) ∧
    (∀ s : CpMergeableStoreControlPlane T, s.isEmpty = true ↔ s.len = 0) ∧
    ∀ s : MergeableStoreDP T, s.isEmpty = true ↔ s.len ≠ 0 := by
  refine ⟨fun s => ?_, fun s => isEmpty_iff_size s.flowCounters,
    fun s => isEmpty_iff_size s.flowCounters, fun s => ?_⟩
  · -- `len` merges the cache first; nothing is in the merged table when nothing was in either
    exact (size_extend_eq_zero_iff s.state s.cache).symm
  · rw [MergeableStoreDP.isEmpty, bne_iff_ne]

/-- A handle that was just created has nothing in it, and is not empty. -/
theorem isEmpty_new_handle : ∃ d : MergeableStoreDP Nat,
    (Stores.new.run [.dpStore 16 16]).dps[0]? = some d ∧ d.len = 0 ∧ d.cache = [] ∧
      d.isEmpty = false :=
  ⟨_, rfl, rfl, rfl, rfl⟩

end NetBricks.State
