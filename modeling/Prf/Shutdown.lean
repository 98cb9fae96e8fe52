import Prf.ThreadPool

/-!
# Stopping the program

`stop_execution` of `thread.cpp` beside the program with its pool: every loop looks at
`stop_the_threads` when it pops, the thread of the `Executor` joins the pool, that of the
`PlannerManager` the running planner, and both count `wait_threads` down. Any number of threads may
call it, also while another call is under way. A thread at an empty queue looks again whenever it
likes here, so the notifications have nothing to do.

All this is about the threads of one `build`. A program that calls `initialize` and `build` once more,
as the tests do after each `stop_execution`, starts new ones.
-/

namespace Prf

variable {ι V : Type}

/-- `stop_planning_needed` and the running planner, where they are not what they would be. -/
def State.setPlanning (s : State ι V) (runningPlanner : Option Pass) (stopPlanningNeeded : Bool) :
    State ι V :=
  { s with planner := { s.planner with
      runningPlanner := runningPlanner
      stopPlanningNeeded := stopPlanningNeeded } }

/-- Where the thread of the `Executor` is. It has a message in hand where it `handles` one. -/
inductive ExecutorLoop where
  | pops
  | handles
  | stopsPool
  | returned
  | ended
deriving DecidableEq

/-- Where the thread of the `PlannerManager` is. -/
inductive PlannerLoop where
  | pops
  | handles
  | stopsPlanning
  | returned
  | ended
deriving DecidableEq

/-- What a call of `stop_execution` does next. -/
inductive StopLine where
  | storesStop
  | waits
  | resets
deriving DecidableEq

/-- The program, its threads, the calls of `stop_execution` under way, and how many have returned. -/
structure Shutdown (n : ℕ) (ι V : Type) where
  pool : Pool n (State ι V)
  workerEnded : Fin n → Bool
  executorLoop : ExecutorLoop
  plannerLoop : PlannerLoop
  stopTheThreads : Bool
  waitThreads : ℤ
  callers : List StopLine
  returns : ℕ

namespace Shutdown

/-- The next move of a user thread, of a thread of the program, or of a call of `stop_execution`. -/
inductive Move (n : ℕ) (ι V : Type) where
  | user (action : Action ι V)
  | executor
  | worker (w : Fin n)
  | plannerManager
  | runningPlanner
  | callStop
  | stopExecution (i : ℕ)

/-- All moves but those that the user decides on. -/
def Move.isOwn {n : ℕ} : Move n ι V → Bool
  | user _ => false
  | callStop => false
  | _ => true

variable {n : ℕ} [DecidableEq ι] (G : Graph ι V) (planner : Planner)

/-- The program before anything has happened. -/
def init (n : ℕ) (G : Graph ι V) (buildTransaction : ID) : Shutdown n ι V where
  pool := pooled n G buildTransaction
  workerEnded := fun _ => false
  executorLoop := .pops
  plannerLoop := .pops
  stopTheThreads := false
  waitThreads := 0
  callers := []
  returns := 0

/-- What the program does in the move `m`. -/
def poolMoves (r : Shutdown n ι V) (m : Pool.Move n (Action ι V)) : Option (Shutdown n ι V) :=
  (r.pool.step (updateTasks G planner) m).map fun pool => { r with pool := pool }

/-- `Executor::start_loop` and the thread it runs on. -/
def executorMoves (r : Shutdown n ι V) : Option (Shutdown n ι V) :=
  match r.executorLoop with
  | .pops =>
      if r.stopTheThreads then some { r with executorLoop := .stopsPool }
      else if r.pool.system.executorMessages = [] then none
      else some { r with executorLoop := .handles }
  | .handles => (r.poolMoves G planner (.system .executor)).map fun r => { r with executorLoop := .pops }
  -- `ThreadPool::stop` joins the threads one by one
  | .stopsPool =>
      if ∀ w, r.workerEnded w then some { r with executorLoop := .returned } else none
  | .returned => some { r with waitThreads := r.waitThreads - 1, executorLoop := .ended }
  | .ended => none

/-- The loop of a thread of the pool. -/
def workerMoves (r : Shutdown n ι V) (w : Fin n) : Option (Shutdown n ι V) :=
  if r.workerEnded w then none
  else if r.pool.worker w = none ∧ r.stopTheThreads then
    some { r with workerEnded := Function.update r.workerEnded w true }
  else r.poolMoves G planner (.worker w)

/-- `PlannerManager::start_loop` and the thread it runs on. -/
def plannerManagerMoves (r : Shutdown n ι V) : Option (Shutdown n ι V) :=
  match r.plannerLoop with
  | .pops =>
      if r.pool.system.planner.received ≠ none then r.poolMoves G planner (.system .plannerHandle)
      -- the `stop_planning` after the loop
      else if r.stopTheThreads then some
        { r with
          plannerLoop := .stopsPlanning
          pool := { r.pool with system :=
            r.pool.system.setPlanning r.pool.system.planner.runningPlanner true } }
      else if r.pool.system.plannerMessages = [] then none
      else some { r with plannerLoop := .handles }
  | .handles =>
      (r.poolMoves G planner (.system .plannerReceive)).map fun r => { r with plannerLoop := .pops }
  | .stopsPlanning =>
      if r.pool.system.planner.runningPlanner = none then some
        { r with
          plannerLoop := .returned
          pool := { r.pool with system := r.pool.system.setPlanning none false } }
      else none
  | .returned => some { r with waitThreads := r.waitThreads - 1, plannerLoop := .ended }
  | .ended => none

/-- The `i`-th call of `stop_execution` under way, after its first line. -/
def stopExecutionMoves (r : Shutdown n ι V) (i : ℕ) : Option (Shutdown n ι V) :=
  match r.callers[i]? with
  | none => none
  | some .storesStop => some { r with stopTheThreads := true, callers := r.callers.set i .waits }
  | some .waits =>
      if r.waitThreads = 0 then some { r with callers := r.callers.set i .resets } else none
  | some .resets => some
      { r with
        stopTheThreads := false
        callers := r.callers.eraseIdx i
        returns := r.returns + 1 }

/-- One move of one thread. -/
def step (r : Shutdown n ι V) : Move n ι V → Option (Shutdown n ι V)
  | .user action => if action.isInternal then none else r.poolMoves G planner (.system action)
  | .executor => r.executorMoves G planner
  | .worker w => r.workerMoves G planner w
  | .plannerManager => r.plannerManagerMoves G planner
  | .runningPlanner => r.poolMoves G planner (.system .plannerPass)
  | .callStop => some { r with waitThreads := 2, callers := r.callers ++ [.storesStop] }
  | .stopExecution i => r.stopExecutionMoves i

/-- The same where nobody calls `stop_execution` before the last call has returned. -/
def oneAtATime (r : Shutdown n ι V) : Move n ι V → Option (Shutdown n ι V)
  | .callStop => if r.callers = [] then r.step G planner .callStop else none
  | m => r.step G planner m

end Shutdown

end Prf
