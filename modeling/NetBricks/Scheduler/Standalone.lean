import NetBricks.Lib.Traced
import NetBricks.Lib.Word
import NetBricks.Scheduler.Executable

/-!
# `StandaloneScheduler`: the model

`src/framework/src/scheduler/standalone_scheduler.rs`. The scheduler takes commands
from a channel (`handle_requests`); `Execute` starts a loop that runs the tasks in
turn and looks for a command whenever it has come round (`execute_loop`). A command
found there is handled inside the loop, so an `Execute` starts a loop inside the
loop, on the same fields.

Mirroring notes:

* `sched_channel` holds what the calls of `recv` and `try_recv` find, in order.
  `none` is an error: no sender is left, or for `try_recv` no command is there.
* `tsc` holds the readings of the time stamp counter (`rdtsc_unsafe`), in order.
  They only go into the bookkeeping of `cycles` and `last_run`, with the overflow
  checks of plain arithmetic.
* `executing` is the field `execute_loop`, which has the name of a method;
* `world` is what the tasks act on besides themselves.
* a closure sent with `Run` is the list of the tasks it adds;
* `Handshake` is the flag that the other end still listens: `send(true).unwrap()`
  panics otherwise. Being parked has no effect on the scheduler's state.
* `handle_request` and `execute_loop` call each other. `executeInternalWith` and
  its like take the function that they call as an argument, and `whileExecute`
  closes the circle; each round of a loop takes one unit of fuel.

Events: a task is put into `run_q`; a task has been run (with `next_task` and the length
of `run_q` at that time, and what the task has left of `world`); `try_recv` is called (with
that length); a command is taken from the channel; and `Shutdown` has been handled.
-/

namespace NetBricks.Scheduler.Standalone

open Lib
open Lib.Outcome
open Lib.Traced (lift emit)

variable {ω τ : Type} [Executable ω τ]

/-- `Runnable`. -/
structure Runnable (τ : Type) where
  task : τ
  cycles : Nat
  lastRun : Nat

/-- `SchedulerCommand`. -/
inductive SchedulerCommand (τ : Type) where
  | add (task : τ)
  | run (tasks : List τ)
  | execute
  | shutdown
  | handshake (listening : Bool)

/-- What a scheduler does, as seen from outside. -/
inductive SchedulerEvent (ω τ : Type) where
  | push (task : τ)
  | run (nextTask len : Nat) (world : ω)
  | poll (len : Nat)
  | take
  | shutdown
  deriving DecidableEq, Repr

/-- `StandaloneScheduler`. -/
structure StandaloneScheduler (ω τ : Type) where
  runQ : List (Runnable τ)
  nextTask : Nat
  schedChannel : List (Option (SchedulerCommand τ))
  executing : Bool
  shutdown : Bool
  tsc : List Nat
  world : ω

namespace StandaloneScheduler

/-- `rdtsc_unsafe`. -/
def rdtsc (s : StandaloneScheduler ω τ) : Nat × StandaloneScheduler ω τ :=
  match s.tsc with
  | [] => (0, s)
  | t :: tsc => (t, { s with tsc := tsc })

/-- `recv` and `try_recv`. -/
def recv (s : StandaloneScheduler ω τ) :
    Option (SchedulerCommand τ) × StandaloneScheduler ω τ :=
  match s.schedChannel with
  | [] => (none, s)
  | cmd :: channel => (cmd, { s with schedChannel := channel })

/-- `new_with_channel_and_capacity`. -/
def newWithChannel (channel : List (Option (SchedulerCommand τ))) (tsc : List Nat) (world : ω) :
    StandaloneScheduler ω τ :=
  { runQ := [], nextTask := 0, schedChannel := channel, executing := false, shutdown := true,
    tsc := tsc, world := world }

/-- `run_q.push` of a task, with the time of its `Runnable`. -/
def push (s : StandaloneScheduler ω τ) (task : τ) : StandaloneScheduler ω τ :=
  let (now, s) := s.rdtsc
  { s with runQ := s.runQ ++ [{ task := task, cycles := 0, lastRun := now }] }

/-- `add_task`. -/
def addTask (s : StandaloneScheduler ω τ) (task : τ) : Nat × StandaloneScheduler ω τ :=
  let s := s.push task
  (s.runQ.length, s)

/-- `add_task`, with its event. -/
def addTaskTraced (s : StandaloneScheduler ω τ) (task : τ) :
    Traced (SchedulerEvent ω τ) (StandaloneScheduler ω τ) := do
  emit (.push task)
  pure (s.addTask task).2

/-- `handle_request`, with `execute_loop`. -/
def handleRequestWith
    (executeLoop : StandaloneScheduler ω τ → Traced (SchedulerEvent ω τ) (StandaloneScheduler ω τ))
    (s : StandaloneScheduler ω τ) (request : SchedulerCommand τ) :
    Traced (SchedulerEvent ω τ) (StandaloneScheduler ω τ) :=
  match request with
  | .add task => do
    emit (.push task)
    pure (s.push task)
  | .run tasks => tasks.foldlM addTaskTraced s
  | .execute => executeLoop s
  | .shutdown => do
    emit .shutdown
    pure { s with executing := false, shutdown := true }
  | .handshake listening => do
    -- inform context about reaching barrier
    lift (if listening then .ok () else
      .panic (.explicit "called `Result::unwrap()` on an `Err` value"))
    pure s

/-- `execute_internal`, with `handle_request`. -/
def executeInternalWith
    (handleRequest : StandaloneScheduler ω τ → SchedulerCommand τ →
      Traced (SchedulerEvent ω τ) (StandaloneScheduler ω τ))
    (s : StandaloneScheduler ω τ) (begin : Nat) :
    Traced (SchedulerEvent ω τ) (Nat × StandaloneScheduler ω τ) := do
  let runnable ← lift (index s.runQ s.nextTask)
  let (task, world) := Executable.execute runnable.task s.world
  emit (.run s.nextTask s.runQ.length world)
  let (stop, s) := s.rdtsc
  let spent ← lift (checkedSub stop begin)
  let cycles ← lift (checkedAdd 64 runnable.cycles spent)
  let s := { s with
    runQ := s.runQ.set s.nextTask { task := task, cycles := cycles, lastRun := stop }
    world := world }
  let len := s.runQ.length
  let next := s.nextTask + 1
  if next = len then
    let s := { s with nextTask := 0 }
    emit (.poll len)
    match s.recv with
    | (some cmd, s) => do
      emit .take
      let s ← handleRequest s cmd
      pure (stop, s)
    | (none, s) => pure (stop, s)
  else
    pure (stop, { s with nextTask := next })

/-- `execute_loop`, with its `while`. -/
def executeLoopWith
    (whileExecute : StandaloneScheduler ω τ → Nat →
      Traced (SchedulerEvent ω τ) (StandaloneScheduler ω τ))
    (s : StandaloneScheduler ω τ) : Traced (SchedulerEvent ω τ) (StandaloneScheduler ω τ) :=
  let s := { s with executing := true }
  let (begin, s) := s.rdtsc
  if s.runQ.isEmpty then pure s else whileExecute s begin

/-- `while self.execute_loop`. -/
def whileExecute : Nat → StandaloneScheduler ω τ → Nat →
    Traced (SchedulerEvent ω τ) (StandaloneScheduler ω τ)
  | fuel, s, begin =>
    if s.executing then
      match fuel with
      | 0 => Traced.timeout
      | fuel + 1 => do
        let (begin, s) ←
          executeInternalWith (handleRequestWith (executeLoopWith (whileExecute fuel))) s begin
        whileExecute fuel s begin
    else pure s

/-- `execute_loop`. -/
def executeLoop (fuel : Nat) :
    StandaloneScheduler ω τ → Traced (SchedulerEvent ω τ) (StandaloneScheduler ω τ) :=
  executeLoopWith (whileExecute fuel)

/-- `handle_request`. -/
def handleRequest (fuel : Nat) : StandaloneScheduler ω τ → SchedulerCommand τ →
    Traced (SchedulerEvent ω τ) (StandaloneScheduler ω τ) :=
  handleRequestWith (executeLoop fuel)

/-- `execute_internal`. -/
def executeInternal (fuel : Nat) : StandaloneScheduler ω τ → Nat →
    Traced (SchedulerEvent ω τ) (Nat × StandaloneScheduler ω τ) :=
  executeInternalWith (handleRequest fuel)

/-- `execute_one`. -/
def executeOne (fuel : Nat) (s : StandaloneScheduler ω τ) :
    Traced (SchedulerEvent ω τ) (StandaloneScheduler ω τ) :=
  if s.runQ.isEmpty then pure s else do
    let (begin, s) := s.rdtsc
    let (_, s) ← s.executeInternal fuel begin
    pure s

/-- The loop of `handle_requests`. -/
def whileRequests : Nat → StandaloneScheduler ω τ →
    Traced (SchedulerEvent ω τ) (StandaloneScheduler ω τ)
  | fuel, s =>
    if s.shutdown then pure s
    else
      match fuel with
      | 0 => Traced.timeout
      | fuel + 1 =>
        match s.recv with
        | (some cmd, s) => do
          emit .take
          let s ← s.handleRequest fuel cmd
          whileRequests fuel s
        | (none, s) => pure s

/-- `handle_requests`. -/
def handleRequests (fuel : Nat) (s : StandaloneScheduler ω τ) :
    Traced (SchedulerEvent ω τ) (StandaloneScheduler ω τ) :=
  whileRequests fuel { s with shutdown := false }

end StandaloneScheduler

/-- A call on a scheduler by its owner. -/
inductive SchedulerCall (τ : Type) where
  | addTask (task : τ)
  | handleRequests
  | executeLoop
  | executeOne

/-- One such call. -/
def StandaloneScheduler.call (fuel : Nat) (s : StandaloneScheduler ω τ) :
    SchedulerCall τ → Traced (SchedulerEvent ω τ) (StandaloneScheduler ω τ)
  | .addTask task => s.addTaskTraced task
  | .handleRequests => s.handleRequests fuel
  | .executeLoop => s.executeLoop fuel
  | .executeOne => s.executeOne fuel

end NetBricks.Scheduler.Standalone
