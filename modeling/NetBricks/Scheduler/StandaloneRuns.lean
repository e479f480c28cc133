import NetBricks.Scheduler.Standalone

/-!
# `StandaloneScheduler`: rounds and shutdown

Two properties of every run of a scheduler, each by a monitor that reads the events
and that the scheduler's fields keep in step with.

* `Replica` keeps a queue of its own. It puts a task at the end when one is pushed, and
  executes the next one in turn when one is said to have been run: the world has to come
  out the same. So the events are those of executions (`Replays`), in the order of
  `run_q`, and the channel is looked at when all tasks have had their turn
  (`rounds_in_order`). Commands are only handled between two rounds, where `next_task`
  is 0, so tasks that they add join the round that follows.
* the monitor `down` allows nothing after a `Shutdown`. Every loop that is running
  then ends without another step, since they all share the field that `Shutdown`
  clears (`shutdown_is_last`).

Neither needs anything of the commands, of the tasks or of the clock.
-/

namespace NetBricks.Scheduler.Standalone

open Lib
open Lib.Outcome
open Lib.Traced (lift emit Obeys Ending)

variable {ω τ : Type} [Executable ω τ]

namespace StandaloneScheduler

/-! ## What the smaller steps change -/

omit [Executable ω τ] in
theorem rdtsc_eq (s : StandaloneScheduler ω τ) :
    ∃ t tsc, s.rdtsc = (t, { s with tsc := tsc }) := by
  unfold rdtsc
  split
  · exact ⟨0, s.tsc, rfl⟩
  · next t tsc _ => exact ⟨t, tsc, rfl⟩

omit [Executable ω τ] in
theorem recv_eq (s : StandaloneScheduler ω τ) :
    ∃ cmd channel, s.recv = (cmd, { s with schedChannel := channel }) := by
  unfold recv
  split
  · exact ⟨none, s.schedChannel, rfl⟩
  · next cmd channel _ => exact ⟨cmd, channel, rfl⟩

omit [Executable ω τ] in
theorem push_eq (s : StandaloneScheduler ω τ) (task : τ) :
    ∃ t tsc, s.push task =
      { s with runQ := s.runQ ++ [{ task := task, cycles := 0, lastRun := t }], tsc := tsc } := by
  obtain ⟨t, tsc, ht⟩ := s.rdtsc_eq
  unfold push
  rw [ht]
  exact ⟨t, tsc, rfl⟩

end StandaloneScheduler

/-! ## Rounds -/

/-- A queue that follows the events: the place of the next task to run, the tasks as they are
now, and the world they have left. -/
structure Replica (ω τ : Type) where
  pos : Nat
  tasks : List τ
  world : ω

namespace Replica

open Classical in
/-- The next task in turn is run, with the world it leaves, and the channel is looked at after
the last one. -/
noncomputable def step (m : Replica ω τ) : SchedulerEvent ω τ → Option (Replica ω τ)
  | .push task => some { m with tasks := m.tasks ++ [task] }
  | .run i n world =>
    match m.tasks[i]? with
    | none => none
    | some task =>
      if i = m.pos ∧ n = m.tasks.length ∧ world = (Executable.execute task m.world).2 then
        some ⟨i + 1, m.tasks.set i (Executable.execute task m.world).1, world⟩
      else none
  | .poll n => if m.pos = n ∧ n = m.tasks.length then some { m with pos := 0 } else none
  | .take => some m
  | .shutdown => some m

theorem step_run {m : Replica ω τ} {i n : Nat} {world : ω} {task : τ}
    (htask : m.tasks[i]? = some task) (hi : i = m.pos) (hn : n = m.tasks.length)
    (hworld : world = (Executable.execute task m.world).2) :
    m.step (.run i n world) =
      some ⟨i + 1, m.tasks.set i (Executable.execute task m.world).1, world⟩ := by
  unfold step
  dsimp only
  rw [htask]
  exact if_pos ⟨hi, hn, hworld⟩

theorem step_poll {m : Replica ω τ} {n : Nat} (hpos : m.pos = n) (hn : n = m.tasks.length) :
    m.step (.poll n) = some { m with pos := 0 } := if_pos ⟨hpos, hn⟩

/-- What a step of the replica says of the event. -/
theorem step_run_eq_some {m m' : Replica ω τ} {i n : Nat} {world : ω}
    (h : m.step (.run i n world) = some m') :
    ∃ task, m.tasks[i]? = some task ∧ i = m.pos ∧ n = m.tasks.length ∧
      world = (Executable.execute task m.world).2 ∧
      m' = ⟨i + 1, m.tasks.set i (Executable.execute task m.world).1, world⟩ := by
  unfold step at h
  dsimp only at h
  split at h
  · cases h
  · next task htask =>
    split at h
    · next hrun =>
      cases h
      exact ⟨task, htask, hrun.1, hrun.2.1, hrun.2.2, rfl⟩
    · cases h

theorem step_poll_eq_some {m m' : Replica ω τ} {n : Nat} (h : m.step (.poll n) = some m') :
    m.pos = n ∧ n = m.tasks.length ∧ m' = { m with pos := 0 } := by
  unfold step at h
  dsimp only at h
  split at h
  · next hpoll =>
    cases h
    exact ⟨hpoll.1, hpoll.2, rfl⟩
  · cases h

end Replica

/-- The events are what happens to a queue of tasks and a world: a task is put at the end of the
queue, and a task that is run is the one at that place of the queue, executed on the world as it
is and leaving what the event says. The last argument is what has become of queue and world. -/
inductive Replays : List τ × ω → List (SchedulerEvent ω τ) → List τ × ω → Prop where
  | nil {q : List τ × ω} : Replays q [] q
  | push {tasks : List τ} {world : ω} {task : τ} {events q}
      (h : Replays (tasks ++ [task], world) events q) :
      Replays (tasks, world) (.push task :: events) q
  | run {tasks : List τ} {world : ω} {i : Nat} {task : τ} {events q}
      (htask : tasks[i]? = some task)
      (h : Replays (tasks.set i (Executable.execute task world).1,
        (Executable.execute task world).2) events q) :
      Replays (tasks, world)
        (.run i tasks.length (Executable.execute task world).2 :: events) q
  | poll {q q' : List τ × ω} {n : Nat} {events} (h : Replays q events q') :
      Replays q (.poll n :: events) q'
  | take {q q' : List τ × ω} {events} (h : Replays q events q') : Replays q (.take :: events) q'
  | shutdown {q q' : List τ × ω} {events} (h : Replays q events q') :
      Replays q (.shutdown :: events) q'

/-- The tasks run, by their positions in `run_q`. -/
def ran : List (SchedulerEvent ω τ) → List Nat
  | [] => []
  | .run i _ _ :: events => i :: ran events
  | _ :: events => ran events

namespace Replica

/-- What the replica accepts is replayed. -/
theorem replays_of_accepted : ∀ {events : List (SchedulerEvent ω τ)} {m m' : Replica ω τ},
    events.foldlM step m = some m' →
    Replays (m.tasks, m.world) events (m'.tasks, m'.world) := by
  intro events
  induction events with
  | nil =>
    intro m m' h
    cases h
    exact .nil
  | cons e events ih =>
    intro m m' h
    rw [List.foldlM_cons] at h
    obtain ⟨m₁, he, h⟩ := Option.bind_eq_some_iff.mp h
    cases e with
    | push task =>
      cases he
      exact .push (ih h)
    | run i n world =>
      obtain ⟨task, htask, -, rfl, rfl, rfl⟩ := step_run_eq_some he
      exact .run htask (ih h)
    | poll n =>
      obtain ⟨-, -, rfl⟩ := step_poll_eq_some he
      have hrest := ih h
      exact .poll hrest
    | take =>
      cases he
      exact .take (ih h)
    | shutdown =>
      cases he
      exact .shutdown (ih h)

/-- A task that is run is in the queue. -/
theorem lt_of_accepted {i n : Nat} {world : ω} :
    ∀ {events : List (SchedulerEvent ω τ)} {m m' : Replica ω τ},
    events.foldlM step m = some m' → SchedulerEvent.run i n world ∈ events → i < n := by
  intro events
  induction events with
  | nil =>
    intro m m' _ hmem
    exact absurd hmem List.not_mem_nil
  | cons e events ih =>
    intro m m' h hmem
    rw [List.foldlM_cons] at h
    obtain ⟨m₁, he, h⟩ := Option.bind_eq_some_iff.mp h
    rcases List.mem_cons.mp hmem with rfl | hmem
    · obtain ⟨task, htask, -, rfl, -⟩ := step_run_eq_some he
      exact (List.getElem?_eq_some_iff.mp htask).1
    · exact ih h hmem

/-- Without a look at the channel, the tasks are run one after the other. -/
theorem ran_of_accepted : ∀ {events : List (SchedulerEvent ω τ)} {m m' : Replica ω τ},
    events.foldlM step m = some m' → (∀ n, SchedulerEvent.poll n ∉ events) →
    m.pos ≤ m'.pos ∧ m.tasks.length ≤ m'.tasks.length ∧
      ran events = List.range' m.pos (m'.pos - m.pos) := by
  intro events
  induction events with
  | nil =>
    intro m m' h _
    cases h
    exact ⟨Nat.le_refl _, Nat.le_refl _, by rw [Nat.sub_self]; rfl⟩
  | cons e events ih =>
    intro m m' h hpoll
    rw [List.foldlM_cons] at h
    obtain ⟨m₁, he, h⟩ := Option.bind_eq_some_iff.mp h
    obtain ⟨hpos, hlen, hran⟩ := ih h (fun n hn => hpoll n (List.mem_cons_of_mem _ hn))
    cases e with
    | push task =>
      cases he
      rw [List.length_append] at hlen
      exact ⟨hpos, by omega, hran⟩
    | run i n world =>
      obtain ⟨task, htask, rfl, rfl, rfl, rfl⟩ := step_run_eq_some he
      rw [List.length_set] at hlen
      refine ⟨by dsimp only at hpos; omega, hlen, ?_⟩
      have hcount : m'.pos - m.pos = (m'.pos - (m.pos + 1)) + 1 := by
        dsimp only at hpos
        omega
      rw [hcount, List.range'_succ, ran, hran]
    | poll n => exact absurd (List.mem_cons_self) (hpoll n)
    | take =>
      cases he
      exact ⟨hpos, hlen, hran⟩
    | shutdown =>
      cases he
      exact ⟨hpos, hlen, hran⟩

/-- Between two looks at the channel every task is run once, in order. -/
theorem ran_of_rounds {before round after : List (SchedulerEvent ω τ)} {n₁ n₂ : Nat}
    {m m' : Replica ω τ}
    (h : (before ++ .poll n₁ :: (round ++ .poll n₂ :: after)).foldlM step m = some m')
    (hround : ∀ n, SchedulerEvent.poll n ∉ round) :
    n₁ ≤ n₂ ∧ ran round = List.range n₂ := by
  rw [List.foldlM_append] at h
  obtain ⟨m₁, -, h⟩ := Option.bind_eq_some_iff.mp h
  rw [List.foldlM_cons] at h
  obtain ⟨m₂, hpoll, h⟩ := Option.bind_eq_some_iff.mp h
  rw [List.foldlM_append] at h
  obtain ⟨m₃, hrun, h⟩ := Option.bind_eq_some_iff.mp h
  rw [List.foldlM_cons] at h
  obtain ⟨m₄, hpoll', -⟩ := Option.bind_eq_some_iff.mp h
  obtain ⟨-, rfl, rfl⟩ := step_poll_eq_some hpoll
  obtain ⟨hend, rfl, -⟩ := step_poll_eq_some hpoll'
  obtain ⟨-, hlen, hran⟩ := ran_of_accepted hrun hround
  refine ⟨hlen, ?_⟩
  rw [hran, List.range_eq_range', hend]
  rfl

end Replica

namespace StandaloneScheduler

/-- The replica is where the scheduler is: it has the same tasks and the same world, and `pos`
is the task to run next, which is in the queue unless that is empty (`next`). At least `low`
tasks are in the queue, and no command takes one out. -/
structure InRound (low : Nat) (s : StandaloneScheduler ω τ) (m : Replica ω τ) : Prop where
  pos : m.pos = s.nextTask
  tasks : m.tasks = s.runQ.map (·.task)
  world : m.world = s.world
  low : low ≤ s.runQ.length
  next : s.nextTask < s.runQ.length ∨ s.nextTask = 0

/-- The queue is never indexed out of range. -/
def NoIndexError (w : Option Fault) (_ : Replica ω τ) : Prop := w ≠ some .index

section Checked

variable {μ : Type} {E : Option Fault → μ → Prop} {m : μ} {w a b : Nat}

omit [Executable ω τ] in
theorem ending_checkedSub (h : E (some .overflow) m) :
    Ending E (fun _ _ => True) (checkedSub a b) m := by
  unfold checkedSub
  split
  · trivial
  · exact h

omit [Executable ω τ] in
theorem ending_checkedAdd (h : E (some .overflow) m) :
    Ending E (fun _ _ => True) (checkedAdd w a b) m := by
  unfold checkedAdd
  split
  · trivial
  · exact h

end Checked

omit [Executable ω τ] in
/-- The fields that play no part in a round. -/
theorem InRound.other {low : Nat} {s s' : StandaloneScheduler ω τ} {m : Replica ω τ}
    (h : InRound low s m) (hnext : s'.nextTask = s.nextTask) (hq : s'.runQ = s.runQ)
    (hworld : s'.world = s.world) : InRound low s' m := by
  obtain ⟨hpos, htasks, hw, hlow, hn⟩ := h
  exact ⟨hpos.trans hnext.symm, by rw [hq]; exact htasks, hw.trans hworld.symm,
    by rw [hq]; exact hlow, by rw [hnext, hq]; exact hn⟩

omit [Executable ω τ] in
theorem InRound.push {low : Nat} {s : StandaloneScheduler ω τ} {m : Replica ω τ}
    (h : InRound low s m) (task : τ) :
    InRound low (s.push task) { m with tasks := m.tasks ++ [task] } := by
  obtain ⟨t, tsc, hpush⟩ := s.push_eq task
  have hlow := h.low
  rw [hpush]
  refine ⟨h.pos, ?_, h.world, ?_, ?_⟩
  · simp [h.tasks]
  · simp only [List.length_append]
    omega
  · refine h.next.imp (fun hlt => ?_) id
    simp only [List.length_append]
    omega

omit [Executable ω τ] in
theorem InRound.weaken {low low' : Nat} {s : StandaloneScheduler ω τ} {m : Replica ω τ}
    (h : InRound low s m) (hle : low' ≤ low) : InRound low' s m :=
  ⟨h.pos, h.tasks, h.world, Nat.le_trans hle h.low, h.next⟩

omit [Executable ω τ] in
/-- A queue that is not empty stays so. -/
theorem InRound.nonempty {low : Nat} {s : StandaloneScheduler ω τ} {m : Replica ω τ}
    (h : InRound low s m) (hempty : ¬ s.runQ.isEmpty) : InRound (max low 1) s m := by
  refine ⟨h.pos, h.tasks, h.world, Nat.max_le.mpr ⟨h.low, ?_⟩, h.next⟩
  rw [List.isEmpty_iff_length_eq_zero] at hempty
  exact Nat.pos_of_ne_zero hempty

section Rounds

variable {low : Nat} {s : StandaloneScheduler ω τ} {m : Replica ω τ}

theorem addTaskTraced_rounds (h : InRound low s m) (task : τ) :
    Obeys Replica.step NoIndexError m (s.addTaskTraced task) (InRound low) :=
  Obeys.emit_bind rfl (Obeys.pure (h.push task))

theorem handleRequestWith_rounds
    {executeLoop : StandaloneScheduler ω τ →
      Traced (SchedulerEvent ω τ) (StandaloneScheduler ω τ)}
    (hloop : ∀ {s m}, InRound low s m →
      Obeys Replica.step NoIndexError m (executeLoop s) (InRound low))
    (h : InRound low s m) (request : SchedulerCommand τ) :
    Obeys Replica.step NoIndexError m (handleRequestWith executeLoop s request) (InRound low) := by
  cases request with
  | add task => exact Obeys.emit_bind rfl (Obeys.pure (h.push task))
  | run tasks => exact Obeys.foldlM (fun s task m h => addTaskTraced_rounds h task) tasks h
  | execute => exact hloop h
  | shutdown =>
    exact Obeys.emit_bind rfl (Obeys.pure (h.other rfl rfl rfl))
  | handshake listening =>
    cases listening with
    | true => exact Obeys.pure h
    | false =>
      exact Obeys.lift_bind nofun (fun _ _ => Obeys.pure h)

theorem executeInternalWith_rounds
    {handleRequest : StandaloneScheduler ω τ → SchedulerCommand τ →
      Traced (SchedulerEvent ω τ) (StandaloneScheduler ω τ)}
    (hhandle : ∀ {s m}, InRound low s m → ∀ request,
      Obeys Replica.step NoIndexError m (handleRequest s request) (InRound low))
    (hlow : 0 < low) (h : InRound low s m) (begin : Nat) :
    Obeys Replica.step NoIndexError m (executeInternalWith handleRequest s begin)
      (fun r => InRound low r.2) := by
  have hlt : s.nextTask < s.runQ.length := by
    have := h.low
    rcases h.next with hlt | hzero
    · exact hlt
    · omega
  unfold executeInternalWith
  rw [index_of_some (List.getElem?_eq_getElem hlt), Traced.lift_bind]
  generalize hrunnable : s.runQ[s.nextTask] = runnable
  have htask : m.tasks[s.nextTask]? = some runnable.task := by
    rw [h.tasks, List.getElem?_map, List.getElem?_eq_getElem hlt, hrunnable]
    rfl
  have hlen : s.runQ.length = m.tasks.length := by rw [h.tasks, List.length_map]
  dsimp only
  refine Obeys.emit_bind (Replica.step_run htask h.pos.symm hlen (by rw [h.world])) ?_
  rw [h.world]
  generalize Executable.execute runnable.task s.world = after
  obtain ⟨stop, tsc, ht⟩ := s.rdtsc_eq
  rw [ht]
  dsimp only
  refine Obeys.lift_bind (ending_checkedSub nofun) fun spent _ => ?_
  refine Obeys.lift_bind (ending_checkedAdd nofun) fun cycles _ => ?_
  -- the queue is as long as before, with the task as it is now
  generalize hq : s.runQ.set s.nextTask (Runnable.mk after.1 cycles stop) = q
  have hset : q.length = s.runQ.length := by rw [← hq, List.length_set]
  have htasks : m.tasks.set s.nextTask after.1 = q.map (·.task) := by
    rw [← hq, List.map_set, h.tasks]
  have hq_low : low ≤ q.length := Nat.le_trans h.low hset.ge
  rw [hset]
  by_cases hend : s.nextTask + 1 = s.runQ.length
  · -- the round is over
    rw [if_pos hend]
    refine Obeys.emit_bind (Replica.step_poll hend ?_) ?_
    · rw [List.length_set, hlen]
    obtain ⟨cmd, channel, hrecv⟩ := recv_eq { s with
      nextTask := 0, tsc := tsc, runQ := q, world := after.2 }
    rw [hrecv]
    cases cmd with
    | none => exact Obeys.pure ⟨rfl, htasks, rfl, hq_low, .inr rfl⟩
    | some cmd =>
      refine Obeys.emit_bind rfl ?_
      refine (hhandle ⟨rfl, htasks, rfl, hq_low, .inr rfl⟩ cmd).bind ?_
      intro s' m h
      exact Obeys.pure h
  · rw [if_neg hend]
    exact Obeys.pure ⟨rfl, htasks, rfl, hq_low, .inl (by dsimp only; omega)⟩

theorem executeLoopWith_rounds
    {whileExecute : StandaloneScheduler ω τ → Nat →
      Traced (SchedulerEvent ω τ) (StandaloneScheduler ω τ)}
    (hwhile : ∀ {low s m}, 0 < low → InRound low s m → ∀ begin,
      Obeys Replica.step NoIndexError m (whileExecute s begin) (InRound low))
    (h : InRound low s m) :
    Obeys Replica.step NoIndexError m (executeLoopWith whileExecute s) (InRound low) := by
  obtain ⟨begin, tsc, ht⟩ := rdtsc_eq { s with executing := true }
  unfold executeLoopWith
  dsimp only
  rw [ht]
  dsimp only
  by_cases hempty : s.runQ.isEmpty
  · rw [if_pos hempty]
    exact Obeys.pure (h.other rfl rfl rfl)
  · rw [if_neg hempty]
    have hlow : InRound (max low 1) { s with executing := true, tsc := tsc } m :=
      (h.nonempty hempty).other rfl rfl rfl
    exact (hwhile (by omega) hlow begin).mono (fun _ _ h => h.weaken (Nat.le_max_left _ _))

/-- Every round of the loop, and every loop inside it. -/
theorem whileExecute_rounds : ∀ (fuel : Nat) {low : Nat} {s : StandaloneScheduler ω τ}
    {m : Replica ω τ},
    0 < low → InRound low s m → ∀ begin,
      Obeys Replica.step NoIndexError m (whileExecute fuel s begin) (InRound low) := by
  intro fuel
  induction fuel with
  | zero =>
    intro low s m _ h begin
    unfold whileExecute
    split
    · exact Obeys.lift nofun
    · exact Obeys.pure h
  | succ fuel ih =>
    intro low s m hlow h begin
    unfold whileExecute
    split
    · refine (executeInternalWith_rounds ?_ hlow h begin).bind ?_
      · intro s m h request
        exact handleRequestWith_rounds (executeLoopWith_rounds ih) h request
      · intro r m h
        exact ih hlow h r.1
    · exact Obeys.pure h

theorem executeLoop_rounds (fuel : Nat) (h : InRound low s m) :
    Obeys Replica.step NoIndexError m (s.executeLoop fuel) (InRound low) :=
  executeLoopWith_rounds (whileExecute_rounds fuel) h

theorem handleRequest_rounds (fuel : Nat) (h : InRound low s m) (request : SchedulerCommand τ) :
    Obeys Replica.step NoIndexError m (s.handleRequest fuel request) (InRound low) :=
  handleRequestWith_rounds (executeLoop_rounds fuel) h request

theorem whileRequests_rounds : ∀ (fuel : Nat) {s : StandaloneScheduler ω τ} {m : Replica ω τ},
    InRound low s m → Obeys Replica.step NoIndexError m (whileRequests fuel s) (InRound low) := by
  intro fuel
  induction fuel with
  | zero =>
    intro s m h
    unfold whileRequests
    split
    · exact Obeys.pure h
    · exact Obeys.lift nofun
  | succ fuel ih =>
    intro s m h
    unfold whileRequests
    split
    · exact Obeys.pure h
    · obtain ⟨cmd, channel, hrecv⟩ := s.recv_eq
      dsimp only
      rw [hrecv]
      have h' : InRound low { s with schedChannel := channel } m := h.other rfl rfl rfl
      cases cmd with
      | none => exact Obeys.pure h'
      | some cmd =>
        refine Obeys.emit_bind rfl ((handleRequest_rounds fuel h' cmd).bind ?_)
        intro s' m h
        exact ih h

theorem call_rounds (fuel : Nat) (h : InRound 0 s m) (call : SchedulerCall τ) :
    Obeys Replica.step NoIndexError m (s.call fuel call) (InRound 0) := by
  cases call with
  | addTask task => exact addTaskTraced_rounds h task
  | handleRequests => exact whileRequests_rounds fuel (h.other rfl rfl rfl)
  | executeLoop => exact executeLoop_rounds fuel h
  | executeOne =>
    show Obeys Replica.step NoIndexError m (s.executeOne fuel) (InRound 0)
    unfold executeOne
    split
    · exact Obeys.pure h
    · next hempty =>
      obtain ⟨begin, tsc, ht⟩ := s.rdtsc_eq
      rw [ht]
      dsimp only
      have hlow : InRound (max 0 1) { s with tsc := tsc } m :=
        (h.nonempty hempty).other rfl rfl rfl
      refine (executeInternalWith_rounds (handleRequest_rounds fuel) (by omega) hlow begin).bind ?_
      intro r m h
      exact Obeys.pure (h.weaken (Nat.zero_le _))

/-- In every run, whatever commands arrive and however far it gets: a task that is run is in
the queue, which is never indexed out of range; the events are those of tasks that are put
into the queue and executed there, and if the run returns, the tasks of the queue and the
world are what has become of them; and between two looks at the channel every task of the
queue is run once, in the order in which they were added. -/
theorem rounds_in_order (channel : List (Option (SchedulerCommand τ))) (tsc : List Nat)
    (world : ω) (fuel : Nat) (calls : List (SchedulerCall τ)) :
    let run := calls.foldlM (call fuel) (newWithChannel channel tsc world)
    (∀ i n w, SchedulerEvent.run i n w ∈ run.events → i < n) ∧ run.outcome ≠ .panic .index ∧
      (∃ q, Replays ([], world) run.events q ∧
        ∀ s, run.outcome = .ok s → q = (s.runQ.map (·.task), s.world)) ∧
      ∀ before n₁ round n₂ after,
        run.events = before ++ .poll n₁ :: (round ++ .poll n₂ :: after) →
        (∀ n, SchedulerEvent.poll n ∉ round) → n₁ ≤ n₂ ∧ ran round = List.range n₂ := by
  intro run
  have hnew : InRound 0 (newWithChannel channel tsc world) (⟨0, [], world⟩ : Replica ω τ) :=
    ⟨rfl, rfl, rfl, Nat.le_refl 0, .inr rfl⟩
  obtain ⟨m, hm, hend⟩ : Obeys Replica.step NoIndexError ⟨0, [], world⟩ run (InRound 0) :=
    Obeys.foldlM (fun s c m h => call_rounds fuel h c) calls hnew
  refine ⟨fun i n w hmem => Replica.lt_of_accepted hm hmem, ?_,
    ⟨_, Replica.replays_of_accepted hm, ?_⟩, ?_⟩
  · intro hpanic
    rw [hpanic] at hend
    exact hend rfl
  · intro s hs
    rw [hs] at hend
    have hend : InRound 0 s m := hend
    rw [hend.tasks, hend.world]
  · intro before n₁ round n₂ after hevents hround
    rw [hevents] at hm
    exact Replica.ran_of_rounds hm hround

/-- Commands for two tasks, of which the second arrives while the first one is being run. -/
def twoTasks : List (Option (SchedulerCommand DepTask)) :=
  [some (.add ⟨"a", []⟩), some .execute, some (.add ⟨"b", []⟩), some .shutdown]

/-- Both are run in the round after that, and have printed their names in order. -/
theorem rounds_in_order_added :
    ∃ before round s,
      ((newWithChannel twoTasks [] []).handleRequests 6).events =
        before ++ .poll 1 :: (round ++ .poll 2 :: [.take, .shutdown]) ∧
      ran round = List.range 2 ∧
      ((newWithChannel twoTasks [] []).handleRequests 6).outcome = .ok s ∧
      s.world = ["Task -- a", "Task -- a", "Task -- b"] ∧
      ∃ q, Replays ([], []) ((newWithChannel twoTasks [] []).handleRequests 6).events q ∧
        q = (s.runQ.map (·.task), s.world) := by
  have hevents : ((newWithChannel twoTasks [] []).handleRequests 6).events =
      [.take, .push ⟨"a", []⟩, .take, .run 0 1 ["Task -- a"]] ++ .poll 1 ::
        ([.take, .push ⟨"b", []⟩, .run 0 2 ["Task -- a", "Task -- a"],
          .run 1 2 ["Task -- a", "Task -- a", "Task -- b"]] ++ .poll 2 :: [.take, .shutdown]) := by
    decide +kernel
  have hworld : (((newWithChannel twoTasks [] []).handleRequests 6).outcome >>= fun s =>
      Outcome.ok s.world) = .ok ["Task -- a", "Task -- a", "Task -- b"] := by
    decide +kernel
  obtain ⟨s, hout, hs⟩ := bind_eq_ok.mp hworld
  obtain ⟨-, -, ⟨q, hreplay, hend⟩, hrounds⟩ := rounds_in_order twoTasks [] [] 6 [.handleRequests]
  have hcall : [SchedulerCall.handleRequests].foldlM (call 6) (newWithChannel twoTasks [] []) =
      (newWithChannel twoTasks [] []).handleRequests 6 := by
    refine (Traced.bind_of_ok hout _).trans ?_
    show (⟨_ ++ [], .ok s⟩ : Traced _ _) = _
    rw [List.append_nil, ← hout]
  rw [hcall] at hreplay hend hrounds
  refine ⟨_, _, s, hevents, (hrounds _ 1 _ 2 _ hevents ?_).2, hout, Outcome.ok.inj hs,
    q, hreplay, hend s hout⟩
  intro n hn
  simp at hn

end Rounds

/-! ## Shutdown -/

/-- Nothing happens after a shutdown. -/
def down : Bool → SchedulerEvent ω τ → Option Bool
  | true, _ => none
  | false, .shutdown => some true
  | false, _ => some false

/-- The monitor is where the scheduler is: its flag is the scheduler's, and once that is set,
the loop over the tasks has been told to stop. -/
structure Stops (s : StandaloneScheduler ω τ) (m : Bool) : Prop where
  shutdown : s.shutdown = m
  executing : m = true → s.executing = false

omit [Executable ω τ] in
/-- The other fields play no part while the scheduler runs. -/
theorem Stops.other {s s' : StandaloneScheduler ω τ} (h : Stops s false)
    (hs : s'.shutdown = s.shutdown) : Stops s' false :=
  ⟨hs.trans h.shutdown, nofun⟩

/-- Panics and endless loops are for schedulers that run. -/
def Running (_ : Option Fault) (m : Bool) : Prop := m = false

section Shutdown

variable {s : StandaloneScheduler ω τ}

omit [Executable ω τ] in
theorem addTaskTraced_stops (h : Stops s false) (task : τ) :
    Obeys down Running false (s.addTaskTraced task)
      (fun s m => m = false ∧ Stops s false) := by
  obtain ⟨t, tsc, hpush⟩ := s.push_eq task
  refine Obeys.emit_bind rfl (Obeys.pure ⟨rfl, ?_⟩)
  show Stops (s.push task) false
  rw [hpush]
  exact h.other rfl

omit [Executable ω τ] in
theorem handleRequestWith_stops
    {executeLoop : StandaloneScheduler ω τ →
      Traced (SchedulerEvent ω τ) (StandaloneScheduler ω τ)}
    (hloop : ∀ {s}, Stops s false → Obeys down Running false (executeLoop s) Stops)
    (h : Stops s false) (request : SchedulerCommand τ) :
    Obeys down Running false (handleRequestWith executeLoop s request) Stops := by
  cases request with
  | add task =>
    refine (addTaskTraced_stops h task).mono ?_
    rintro s' _ ⟨rfl, h'⟩
    exact h'
  | run tasks =>
    refine (Obeys.foldlM (I := fun s m => m = false ∧ Stops s false) ?_ tasks ⟨rfl, h⟩).mono ?_
    · rintro s' task _ ⟨rfl, h'⟩
      exact addTaskTraced_stops h' task
    · rintro s' _ ⟨rfl, h'⟩
      exact h'
  | execute => exact hloop h
  | shutdown =>
    exact Obeys.emit_bind rfl (Obeys.pure ⟨rfl, fun _ => rfl⟩)
  | handshake listening =>
    cases listening with
    | true => exact Obeys.pure h
    | false =>
      exact Obeys.lift_bind rfl (fun _ _ => Obeys.pure h)

theorem executeInternalWith_stops
    {handleRequest : StandaloneScheduler ω τ → SchedulerCommand τ →
      Traced (SchedulerEvent ω τ) (StandaloneScheduler ω τ)}
    (hhandle : ∀ {s}, Stops s false → ∀ request,
      Obeys down Running false (handleRequest s request) Stops)
    (h : Stops s false) (begin : Nat) :
    Obeys down Running false (executeInternalWith handleRequest s begin)
      (fun r => Stops r.2) := by
  unfold executeInternalWith
  refine Obeys.lift_bind ?_ fun runnable _ => ?_
  · unfold index
    split
    · trivial
    · rfl
  generalize Executable.execute runnable.task s.world = after
  refine Obeys.emit_bind rfl ?_
  obtain ⟨stop, tsc, ht⟩ := s.rdtsc_eq
  rw [ht]
  dsimp only
  refine Obeys.lift_bind (ending_checkedSub rfl) fun spent _ => ?_
  refine Obeys.lift_bind (ending_checkedAdd rfl) fun cycles _ => ?_
  split
  · refine Obeys.emit_bind rfl ?_
    obtain ⟨cmd, channel, hrecv⟩ := recv_eq { s with
      nextTask := 0, tsc := tsc, world := after.2
      runQ := s.runQ.set s.nextTask (Runnable.mk after.1 cycles stop) }
    rw [hrecv]
    cases cmd with
    | none => exact Obeys.pure (h.other rfl)
    | some cmd =>
      refine Obeys.emit_bind rfl ((hhandle ?_ cmd).bind ?_)
      · exact h.other rfl
      · intro s' m h
        exact Obeys.pure h
  · exact Obeys.pure (h.other rfl)

omit [Executable ω τ] in
theorem executeLoopWith_stops
    {whileExecute : StandaloneScheduler ω τ → Nat →
      Traced (SchedulerEvent ω τ) (StandaloneScheduler ω τ)}
    (hwhile : ∀ {s m}, Stops s m → ∀ begin, Obeys down Running m (whileExecute s begin) Stops)
    (h : Stops s false) :
    Obeys down Running false (executeLoopWith whileExecute s) Stops := by
  obtain ⟨begin, tsc, ht⟩ := rdtsc_eq { s with executing := true }
  unfold executeLoopWith
  dsimp only
  rw [ht]
  dsimp only
  split
  · exact Obeys.pure (h.other rfl)
  · refine hwhile ?_ begin
    exact h.other rfl

/-- A loop goes on only as long as no shutdown has been handled. -/
theorem whileExecute_stops : ∀ (fuel : Nat) {s : StandaloneScheduler ω τ} {m : Bool}, Stops s m →
    ∀ begin, Obeys down Running m (whileExecute fuel s begin) Stops := by
  intro fuel
  induction fuel with
  | zero =>
    intro s m h begin
    unfold whileExecute
    split
    · next hexec =>
      cases m with
      | false => exact Obeys.lift rfl
      | true => exact absurd (h.executing rfl) (by rw [hexec]; nofun)
    · exact Obeys.pure h
  | succ fuel ih =>
    intro s m h begin
    unfold whileExecute
    split
    · next hexec =>
      cases m with
      | false =>
        refine (executeInternalWith_stops ?_ h begin).bind ?_
        · intro s h request
          exact handleRequestWith_stops (executeLoopWith_stops ih) h request
        · intro r m h
          exact ih h r.1
      | true => exact absurd (h.executing rfl) (by rw [hexec]; nofun)
    · exact Obeys.pure h

theorem whileRequests_stops : ∀ (fuel : Nat) {s : StandaloneScheduler ω τ} {m : Bool}, Stops s m →
    Obeys down Running m (whileRequests fuel s) Stops := by
  intro fuel
  induction fuel with
  | zero =>
    intro s m h
    unfold whileRequests
    split
    · exact Obeys.pure h
    · next hrun => exact Obeys.lift (h.shutdown.symm.trans (Bool.eq_false_iff.mpr hrun))
  | succ fuel ih =>
    intro s m h
    unfold whileRequests
    split
    · exact Obeys.pure h
    · next hrun =>
      obtain rfl : m = false := h.shutdown.symm.trans (Bool.eq_false_iff.mpr hrun)
      obtain ⟨cmd, channel, hrecv⟩ := s.recv_eq
      dsimp only
      rw [hrecv]
      cases cmd with
      | none => exact Obeys.pure (h.other rfl)
      | some cmd =>
        refine Obeys.emit_bind rfl ?_
        refine (handleRequestWith_stops (executeLoopWith_stops (whileExecute_stops fuel))
          (s := { s with schedChannel := channel }) (h.other rfl) cmd).bind ?_
        intro s' m h
        exact ih h

end Shutdown

omit [Executable ω τ] in
/-- A shutdown that has been handled is the last event. -/
theorem eq_nil_of_down {before after : List (SchedulerEvent ω τ)} {m m' : Bool}
    (h : (before ++ .shutdown :: after).foldlM down m = some m') : after = [] ∧ m' = true := by
  rw [List.foldlM_append] at h
  obtain ⟨m₁, -, h⟩ := Option.bind_eq_some_iff.mp h
  rw [List.foldlM_cons] at h
  obtain ⟨m₂, hm₂, h⟩ := Option.bind_eq_some_iff.mp h
  cases m₁ with
  | true => cases hm₂
  | false =>
    cases hm₂
    cases after with
    | nil =>
      cases h
      exact ⟨rfl, rfl⟩
    | cons e after => cases h

/-- After a `Shutdown` has been handled, at whatever depth of loops inside loops,
no task is run, no command is taken, and `handle_requests` returns. -/
theorem shutdown_is_last (s : StandaloneScheduler ω τ) (fuel : Nat)
    {before after : List (SchedulerEvent ω τ)}
    (h : (s.handleRequests fuel).events = before ++ .shutdown :: after) :
    after = [] ∧ ∃ s', (s.handleRequests fuel).outcome = .ok s' := by
  obtain ⟨m, hm, hend⟩ : Obeys down Running false (s.handleRequests fuel) Stops :=
    whileRequests_stops fuel ⟨rfl, nofun⟩
  rw [h] at hm
  obtain ⟨rfl, rfl⟩ := eq_nil_of_down hm
  refine ⟨rfl, ?_⟩
  cases hout : (s.handleRequests fuel).outcome with
  | ok s' => exact ⟨s', rfl⟩
  | panic w =>
    rw [hout] at hend
    cases hend
  | timeout =>
    rw [hout] at hend
    cases hend

/-- A shutdown that arrives in a loop inside a loop, with another command behind it. -/
def nestedShutdown : List (Option (SchedulerCommand DepTask)) :=
  [some (.add ⟨"a", []⟩), some .execute, some .execute, none, some .shutdown, some .execute]

theorem shutdown_is_last_nested :
    ∃ before s', ((newWithChannel nestedShutdown [] []).handleRequests 6).events =
        before ++ .shutdown :: [] ∧
      before.length = 11 ∧
      ((newWithChannel nestedShutdown [] []).handleRequests 6).outcome = .ok s' := by
  have hevents : ((newWithChannel nestedShutdown [] []).handleRequests 6).events =
      [.take, .push ⟨"a", []⟩, .take, .run 0 1 ["Task -- a"], .poll 1, .take,
        .run 0 1 ["Task -- a", "Task -- a"], .poll 1,
        .run 0 1 ["Task -- a", "Task -- a", "Task -- a"], .poll 1, .take] ++ .shutdown :: [] := by
    decide +kernel
  obtain ⟨s', hs'⟩ := (shutdown_is_last _ 6 hevents).2
  exact ⟨_, s', hevents, rfl, hs'⟩

end StandaloneScheduler

end NetBricks.Scheduler.Standalone
