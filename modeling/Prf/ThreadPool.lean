import Prf.Library.Pool
import Prf.System

/-!
# The thread pool

`ThreadPool` of `thread_pool.cpp`. In the composed system a task goes on whenever it likes; here the
closures given to `request` stand in the queue of the pool, and each of its threads pops one, runs it
to its end and pops the next. Nobody waits for the `Waiter` that `request` returns.
-/

namespace Prf

variable {ι V : Type}

namespace TaskPhase

/-- The closure has been called. -/
def isBegun : TaskPhase ι V → Bool
  | queued => false
  | _ => true

/-- The closure has returned. -/
def isFinished : TaskPhase ι V → Bool
  | finished => true
  | _ => false

end TaskPhase

def Action.isTask : Action ι V → Bool
  | task _ => true
  | _ => false

/-- The closures that `Executor::start_loop` requests. -/
def updateTasks [DecidableEq ι] (G : Graph ι V) (planner : Planner) :
    Jobs (State ι V) (Action ι V) where
  step := State.step G planner
  started s := s.tasks.length
  advance := .task
  isJob := Action.isTask
  begun s i := s.tasks[i]?.any fun task => task.phase.isBegun
  ended s i := s.tasks[i]?.any fun task => task.phase.isFinished

/-- The program with a pool of `numberOfThreads` threads. -/
def pooled (numberOfThreads : ℕ) (G : Graph ι V) (buildTransaction : ID) :
    Pool numberOfThreads (State ι V) :=
  Pool.idle numberOfThreads (State.init G buildTransaction)

end Prf
