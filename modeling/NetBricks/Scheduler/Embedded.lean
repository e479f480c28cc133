import NetBricks.Lib.Machine
import NetBricks.Lib.PostOrder
import NetBricks.Lib.Traced
import NetBricks.Lib.Word
import NetBricks.Scheduler.Executable

/-!
# `EmbeddedScheduler`

`src/framework/src/scheduler/embedded_scheduler.rs`: a scheduler for use inside
another switch. `add_task` returns a handle, counted from 1, and `exec_task` runs
the task behind a handle after everything it depends on.

Mirroring notes:

* an event is one `task.execute()`, under the handle of the task. What the tasks act
  on besides themselves is passed along with the scheduler;
* `exec_task` calls itself without a guard, so it takes fuel; a cycle of
  dependencies is a run that needs more than any fuel;
* `add_task` returns `Result<usize>` and is always `Ok`; the capacity that `new`
  reserves has no effect on what the scheduler does;
* `display_dependencies` only prints, and is left out.

A task can only name handles it has been given, so its dependencies come from
earlier `add_task` calls. Then `exec_task` walks a finite tree: it does what executing
the tasks in the post-order of the dependencies does (`execTask_postOrder`), from which
the order of the executions follows.
-/

namespace NetBricks.Scheduler.Embedded

open Lib
open Lib.Outcome
open Lib.Traced (lift emit lift_bind bind_of_ok)

variable {ω τ : Type} [Executable ω τ]

/-- `Runnable`. -/
structure Runnable (τ : Type) where
  task : τ
  dependencies : List Nat

/-- `Runnable::from_task`. -/
def Runnable.fromTask (task : τ) : Runnable τ :=
  let (deps, task) := Executable.dependencies task
  { task := task, dependencies := deps }

/-- `EmbeddedScheduler`. -/
structure EmbeddedScheduler (τ : Type) where
  tasks : List (Runnable τ)

namespace EmbeddedScheduler

def new : EmbeddedScheduler τ := { tasks := [] }

/-- `add_task`: the handle of the task. -/
def addTask (s : EmbeddedScheduler τ) (task : τ) : Outcome (Nat × EmbeddedScheduler τ) :=
  let tasks := s.tasks ++ [Runnable.fromTask task]
  .ok (tasks.length, { s with tasks := tasks })

/-- `exec_task`, on the scheduler and what its tasks act on. -/
def execTask : Nat → EmbeddedScheduler τ × ω → Nat → Traced Nat (EmbeddedScheduler τ × ω)
  | 0, _, _ => Traced.timeout
  | fuel + 1, s, taskId => do
    let idx ← lift (checkedSub taskId 1)
    let runnable ← lift (index s.1.tasks idx)
    let len := runnable.dependencies.length
    let s ← (List.range' 0 len).foldlM (fun s dep => do
      let runnable ← lift (index s.1.tasks idx)
      let depTask ← lift (index runnable.dependencies dep)
      execTask fuel s depTask) s
    let runnable ← lift (index s.1.tasks idx)
    emit taskId
    let (task, world) := Executable.execute runnable.task s.2
    pure ({ s.1 with tasks := s.1.tasks.set idx { runnable with task := task } }, world)

/-! ## Executions -/

/-- The task behind a handle is executed, once. -/
def executed (s : EmbeddedScheduler τ × ω) (handle : Nat) : EmbeddedScheduler τ × ω :=
  match s.1.tasks[handle - 1]? with
  | none => s
  | some r =>
    let (task, world) := Executable.execute r.task s.2
    ({ tasks := s.1.tasks.set (handle - 1) { r with task := task } }, world)

/-- The tasks behind the handles are executed, one after the other. -/
def executedAll (s : EmbeddedScheduler τ × ω) (handles : List Nat) : EmbeddedScheduler τ × ω :=
  handles.foldl executed s

/-! ## What an execution keeps -/

/-- A scheduler with `n` tasks that depend on what `deps` says of their handles. Running a task
changes its state and not what it depends on, so this holds all along. -/
structure Wired (deps : Nat → List Nat) (n : Nat) (s : EmbeddedScheduler τ) : Prop where
  length : s.tasks.length = n
  wired : ∀ {i r}, s.tasks[i]? = some r → r.dependencies = deps (i + 1)

variable {deps : Nat → List Nat} {n : Nat} {s : EmbeddedScheduler τ}

omit [Executable ω τ] in
theorem Wired.get (h : Wired deps n s) {t : Nat} (hpos : 0 < t) (hle : t ≤ n) :
    ∃ r, s.tasks[t - 1]? = some r ∧ r.dependencies = deps t := by
  have hlt : t - 1 < s.tasks.length := by
    rw [h.length]
    omega
  refine ⟨_, List.getElem?_eq_getElem hlt, ?_⟩
  have hdeps := h.wired (List.getElem?_eq_getElem hlt)
  rwa [Nat.sub_add_cancel hpos] at hdeps

omit [Executable ω τ] in
/-- A task that has run has the dependencies it had. -/
theorem Wired.set (h : Wired deps n s) {i : Nat} {r : Runnable τ} (hr : s.tasks[i]? = some r)
    (task : τ) : Wired deps n { s with tasks := s.tasks.set i { r with task := task } } where
  length := by
    show (s.tasks.set i _).length = n
    rw [List.length_set, h.length]
  wired {j r'} hr' := by
    rw [List.getElem?_set] at hr'
    split at hr'
    · next hij =>
      split at hr'
      · cases hr'
        subst hij
        show r.dependencies = deps (i + 1)
        exact h.wired hr
      · cases hr'
    · exact h.wired hr'

theorem Wired.executed {s : EmbeddedScheduler τ × ω} (h : Wired deps n s.1) (handle : Nat) :
    Wired deps n (executed s handle).1 := by
  unfold EmbeddedScheduler.executed
  split
  · exact h
  · next r hr => exact h.set hr _

theorem Wired.executedAll {s : EmbeddedScheduler τ × ω} (h : Wired deps n s.1)
    (handles : List Nat) : Wired deps n (executedAll s handles).1 := by
  unfold EmbeddedScheduler.executedAll
  induction handles generalizing s with
  | nil => exact h
  | cons t handles ih => exact ih (h.executed t)

/-! ## The order of the executions -/

/-- The loop of `exec_task` over the dependencies from the `k`-th on. -/
theorem execDeps_postOrder {fuel t : Nat}
    (ih : ∀ {s : EmbeddedScheduler τ × ω} {d}, Wired deps n s.1 → d ∈ deps t →
      execTask fuel s d =
        ⟨postOrder deps fuel d, .ok (executedAll s (postOrder deps fuel d))⟩)
    (hpos : 0 < t) (hle : t ≤ n) :
    ∀ (ds : List Nat) {k : Nat} {s : EmbeddedScheduler τ × ω}, Wired deps n s.1 →
      (deps t).drop k = ds →
      (List.range' k ds.length).foldlM (fun s dep => do
          let runnable ← lift (index s.1.tasks (t - 1))
          let depTask ← lift (index runnable.dependencies dep)
          execTask fuel s depTask) s =
        ⟨ds.flatMap (postOrder deps fuel),
          .ok (executedAll s (ds.flatMap (postOrder deps fuel)))⟩ := by
  intro ds
  induction ds with
  | nil =>
    intro k s hs _
    rfl
  | cons d ds ihds =>
    intro k s hs hdrop
    have hget : (deps t)[k]? = some d := by
      have := congrArg (fun l => l[0]?) hdrop
      simpa using this
    have hrest : (deps t).drop (k + 1) = ds := by
      rw [← List.drop_drop, hdrop]
      rfl
    obtain ⟨r, hr, hdeps⟩ := hs.get hpos hle
    have hone := ih hs (List.mem_of_getElem? hget)
    have hall := ihds (hs.executedAll (postOrder deps fuel d)) hrest
    rw [List.length_cons, List.range'_succ, List.foldlM_cons, index_of_some hr, lift_bind,
      hdeps, index_of_some hget, lift_bind, hone, bind_of_ok rfl, hall, List.flatMap_cons,
      executedAll, executedAll, executedAll, List.foldl_append]

/-- `exec_task` executes the post-order of the dependencies. -/
theorem execTask_postOrder
    (hdeps : ∀ {t}, 0 < t → t ≤ n → ∀ d ∈ deps t, 0 < d ∧ d < t) :
    ∀ {fuel t : Nat} {s : EmbeddedScheduler τ × ω}, Wired deps n s.1 → 0 < t → t ≤ n → t ≤ fuel →
      execTask fuel s t =
        ⟨postOrder deps fuel t, .ok (executedAll s (postOrder deps fuel t))⟩ := by
  intro fuel
  induction fuel with
  | zero =>
    intro t s _ hpos _ hfuel
    omega
  | succ fuel ih =>
    intro t s hs hpos hle hfuel
    obtain ⟨r, hr, hrd⟩ := hs.get hpos hle
    have hone : ∀ {s : EmbeddedScheduler τ × ω} {d}, Wired deps n s.1 → d ∈ deps t →
        execTask fuel s d =
          ⟨postOrder deps fuel d, .ok (executedAll s (postOrder deps fuel d))⟩ := by
      intro s d hs hd
      have := hdeps hpos hle d hd
      exact ih hs this.1 (by omega) (by omega)
    have hloop := execDeps_postOrder hone hpos hle (deps t) (k := 0) hs rfl
    -- the task itself, after its dependencies
    obtain ⟨r₁, hr₁, -⟩ :=
      (hs.executedAll ((deps t).flatMap (postOrder deps fuel))).get hpos hle
    have hlast : executedAll s (postOrder deps (fuel + 1) t) =
        executed (executedAll s ((deps t).flatMap (postOrder deps fuel))) t := by
      rw [postOrder, executedAll, List.foldl_append]
      rfl
    rw [execTask, checkedSub_of_le hpos, lift_bind, index_of_some hr, lift_bind]
    dsimp only
    rw [hrd, hloop, bind_of_ok rfl, index_of_some hr₁, lift_bind, hlast, executed, hr₁]
    rfl

/-! ## From `add_task` on -/

/-- What the task behind a handle said it depends on. -/
def dependenciesOf (tasks : List τ) (handle : Nat) : List Nat :=
  match tasks[handle - 1]? with
  | some task => (Executable.dependencies task).1
  | none => []

/-- After the calls of `add_task`: the handles are 1, 2 and so on. -/
theorem addTask_run : ∀ {tasks : List τ} {handles : List Nat} {s s' : EmbeddedScheduler τ},
    runOps addTask s tasks = .ok (handles, s') →
    handles = List.range' (s.tasks.length + 1) tasks.length ∧
      s'.tasks = s.tasks ++ tasks.map Runnable.fromTask := by
  intro tasks
  induction tasks with
  | nil =>
    intro handles s s' h
    cases h
    exact ⟨rfl, (List.append_nil _).symm⟩
  | cons t tasks ih =>
    intro handles s s' h
    obtain ⟨r, s₁, rest, h₁, h₂, rfl⟩ := runOps_cons_ok h
    cases h₁
    obtain ⟨hrest, hs'⟩ := ih h₂
    rw [List.length_append, List.length_singleton] at hrest
    refine ⟨?_, ?_⟩
    · rw [List.length_cons, List.range'_succ, hrest, List.length_append, List.length_singleton]
    · rw [hs', List.append_assoc]
      rfl

theorem wired_of_addTask {tasks : List τ} {handles : List Nat} {s : EmbeddedScheduler τ}
    (hadd : runOps addTask new tasks = .ok (handles, s)) :
    handles = List.range' 1 tasks.length ∧ Wired (dependenciesOf tasks) tasks.length s := by
  obtain ⟨hhandles, htasks⟩ := addTask_run hadd
  refine ⟨hhandles, ?_, ?_⟩
  · rw [htasks]
    simp [new]
  · intro i r hr
    rw [htasks, new, List.nil_append, List.getElem?_map, Option.map_eq_some_iff] at hr
    obtain ⟨task, htask, rfl⟩ := hr
    unfold dependenciesOf
    rw [Nat.add_sub_cancel, htask]
    rfl

/-- Dependencies that are handles of earlier tasks. -/
theorem dependenciesOf_earlier {tasks : List τ}
    (hdeps : ∀ i task, tasks[i]? = some task → ∀ d ∈ (Executable.dependencies task).1,
      d ∈ (List.range' 1 tasks.length).take i) {t d : Nat} (hd : d ∈ dependenciesOf tasks t) :
    0 < d ∧ d < t := by
  unfold dependenciesOf at hd
  split at hd
  · next task htask =>
    have hmem := hdeps (t - 1) task htask d hd
    rw [List.mem_take_iff_getElem] at hmem
    obtain ⟨i, hi, hget⟩ := hmem
    rw [List.getElem_range'] at hget
    omega
  · exact absurd hd List.not_mem_nil

/-- When every task depends on earlier handles only, `exec_task` returns for every
handle, and it has executed tasks, one after the other: the handles in the order of its
events. These are exactly the task and what it depends on, directly or not, the task
itself once and at the end, and right before each execution comes all that executing
its dependencies takes, in the order listed. -/
theorem execTask_order {tasks : List τ} {handles : List Nat} {s : EmbeddedScheduler τ}
    (hadd : runOps addTask new tasks = .ok (handles, s))
    (hdeps : ∀ i task, tasks[i]? = some task → ∀ d ∈ (Executable.dependencies task).1,
      d ∈ handles.take i)
    {h fuel : Nat} (hh : h ∈ handles) (hfuel : handles.length ≤ fuel) (world : ω) :
    ∃ order, execTask fuel (s, world) h = ⟨order, .ok (executedAll (s, world) order)⟩ ∧
      (∀ t, t ∈ order ↔ Relation.ReflTransGen (fun t d => d ∈ dependenciesOf tasks t) h t) ∧
      (∃ before, order = before ++ [h] ∧ h ∉ before) ∧
      ∀ before t after, order = before ++ t :: after →
        ∃ earlier, before = earlier ++
          (dependenciesOf tasks t).flatMap (fun d => (execTask fuel (s, world) d).events) := by
  obtain ⟨rfl, hwired⟩ := wired_of_addTask hadd
  rw [List.length_range'] at hfuel
  have hearlier : ∀ {t d}, d ∈ dependenciesOf tasks t → 0 < d ∧ d < t :=
    fun hd => dependenciesOf_earlier hdeps hd
  have hrun : ∀ {t}, 0 < t → t ≤ tasks.length → execTask fuel (s, world) t =
      ⟨postOrder (dependenciesOf tasks) fuel t,
        .ok (executedAll (s, world) (postOrder (dependenciesOf tasks) fuel t))⟩ :=
    fun hpos hle => execTask_postOrder (fun _ _ d hd => hearlier hd) hwired hpos hle (by omega)
  -- handles count from 1, so a depth of `fuel` is enough for all of them
  have hrank : ∀ t, ∀ d ∈ dependenciesOf tasks t, d - 1 < t - 1 := by
    intro t d hd
    have := hearlier hd
    omega
  rw [List.mem_range'_1] at hh
  have hdepth : h - 1 < fuel := by omega
  refine ⟨_, hrun (by omega) (by omega), fun t => mem_postOrder hrank hdepth,
    postOrder_last hrank hdepth, ?_⟩
  intro before t after hsplit
  obtain ⟨earlier, rfl⟩ := postOrder_preceded hrank hdepth hsplit
  have ht : t - 1 ≤ h - 1 := by
    apply rank_le_of_mem hrank (n := fuel)
    rw [hsplit]
    simp
  refine ⟨earlier, ?_⟩
  congr 1
  apply List.flatMap_congr
  intro d hd
  have := hearlier hd
  rw [hrun this.1 (by omega)]

/-- Three tasks: the second depends on the first, the third on both. What they print is
printed in the order of their executions. -/
theorem execTask_order_three :
    ∃ s s', runOps addTask new [DepTask.mk "a" [], ⟨"b", [1]⟩, ⟨"c", [2, 1]⟩] =
        .ok ([1, 2, 3], s) ∧
      execTask 3 (s, []) 3 =
        ⟨[1, 2, 1, 3], .ok (s', ["Task -- a", "Task -- b", "Task -- a", "Task -- c"])⟩ ∧
      ∃ before, [1, 2, 1, 3] = before ++ [3] ∧ 3 ∉ before := by
  have hadd : ∃ s s', runOps addTask new [DepTask.mk "a" [], ⟨"b", [1]⟩, ⟨"c", [2, 1]⟩] =
      .ok ([1, 2, 3], s) ∧ execTask 3 (s, []) 3 = ⟨[1, 2, 1, 3],
        .ok (s', ["Task -- a", "Task -- b", "Task -- a", "Task -- c"])⟩ := ⟨_, _, rfl, rfl⟩
  obtain ⟨s, s', hadd, heval⟩ := hadd
  have hdeps : ∀ i task, [DepTask.mk "a" [], ⟨"b", [1]⟩, ⟨"c", [2, 1]⟩][i]? = some task →
      ∀ d ∈ (Executable.dependencies task).1, d ∈ [1, 2, 3].take i := by
    intro i task htask
    match i, htask with
    | 0, htask =>
      cases htask
      nofun
    | 1, htask =>
      cases htask
      decide
    | 2, htask =>
      cases htask
      decide
  obtain ⟨order, horder, -, hlast, -⟩ :=
    execTask_order hadd hdeps (h := 3) (by simp) (Nat.le_refl [1, 2, 3].length) []
  have hevents : [1, 2, 1, 3] = order := congrArg Traced.events (heval.symm.trans horder)
  rw [← hevents] at hlast
  exact ⟨s, s', hadd, heval, hlast⟩

end EmbeddedScheduler

end NetBricks.Scheduler.Embedded
