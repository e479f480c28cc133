/-!
# Tasks

`trait Executable` of `src/framework/src/scheduler/mod.rs`, which both schedulers
are written against. A task is run through `&mut self`, and what it does is to change
itself and whatever it shares with the rest of the program: ports, queues, the
terminal. So `execute` is given that too, as a value of a type `ω`, and returns both
as they are afterwards. Which task ran, and in which order, shows in what becomes of
them. `dependencies` also takes `&mut self`.

A task that panics or never returns ends the run of its scheduler in the middle of
an execution. Up to there the scheduler has done what it does in a run that is cut
off by its fuel, so `execute` is total here.
-/

namespace NetBricks.Scheduler

/-- What a scheduler can do with a task that acts on an `ω`. -/
class Executable (ω : outParam Type) (τ : Type) where
  execute : τ → ω → τ × ω
  dependencies : τ → List Nat × τ

/-- `DepTask` of `src/test/embedded-scheduler-dependency-test`: a task that prints
its name and depends on the tasks it was made with. -/
structure DepTask where
  id : String
  deps : List Nat
  deriving DecidableEq, Repr

/-- It acts on the lines printed so far. -/
instance : Executable (List String) DepTask where
  execute t printed := (t, printed ++ ["Task -- " ++ t.id])
  dependencies t := (t.deps, t)

end NetBricks.Scheduler
