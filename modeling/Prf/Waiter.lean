import Prf.Types

/-!
# The waiter

`Waiter` of `utils.cpp`, line by line: taking and giving back `mtx`, the store of `already_done`,
the notification, the evaluation of the predicate and the release-and-block of `wait` are steps of their
own. The `Executor` calls `done` on the `Waiter` of a message, user threads call `wait` and `sample`,
and the one that owns the message deletes it after its wait.
-/

namespace Prf

/-- What a thread does next. It holds `mtx` unless it is `outside`, `blocked` or `woken`. -/
inductive WaiterPoint where
  | outside
  | stores
  | notifies
  | leavesDone
  | checks
  | blocks
  | blocked
  | woken
  | returns
  | loads
  | sampled (result : Bool)
deriving DecidableEq

/-- A `Waiter` and the threads at it. What an observer writes down is how often `done` has been
called, and whether a `wait` has returned or a `sample` has returned true. -/
structure Waiter (θ : Type) where
  alreadyDone : Bool
  mtx : Option θ
  point : θ → WaiterPoint
  doneCalls : ℕ
  observed : Bool

/-- A call, a spurious wake-up, or the next line of what the thread is in. -/
inductive WaiterAction (θ : Type) where
  | done (t : θ)
  | wait (t : θ)
  | sample (t : θ)
  | spurious (t : θ)
  | advance (t : θ)

def WaiterAction.isCall {θ : Type} : WaiterAction θ → Bool
  | done _ => true
  | wait _ => true
  | sample _ => true
  | spurious _ => false
  | advance _ => false

namespace Waiter

variable {θ : Type}

/-- `Waiter::Waiter`. -/
def init : Waiter θ where
  alreadyDone := false
  mtx := none
  point := fun _ => .outside
  doneCalls := 0
  observed := false

/-- `cond.notify_all()`. -/
def notifyAll (w : Waiter θ) : Waiter θ :=
  { w with point := fun t => if w.point t = .blocked then .woken else w.point t }

variable [DecidableEq θ]

def goto (w : Waiter θ) (t : θ) (point : WaiterPoint) : Waiter θ :=
  { w with point := Function.update w.point t point }

/-- `t` takes `mtx`, if it can, and goes on to the first line under it. -/
def enter (w : Waiter θ) (t : θ) (point : WaiterPoint) : Option (Waiter θ) :=
  if w.mtx = none then some { w.goto t point with mtx := some t } else none

/-- `t` gives `mtx` back. -/
def leave (w : Waiter θ) (t : θ) (point : WaiterPoint) : Waiter θ :=
  { w.goto t point with mtx := none }

/-- The next line of the thread, or `none` where it cannot go on by itself. -/
def advance (w : Waiter θ) (t : θ) : Option (Waiter θ) :=
  match w.point t with
  | .outside => none
  -- `done`
  | .stores => some { w.goto t .notifies with alreadyDone := true }
  | .notifies => some (w.notifyAll.goto t .leavesDone)
  | .leavesDone => some (w.leave t .outside)
  -- `wait`
  | .checks => some (w.goto t (if w.alreadyDone then .returns else .blocks))
  | .blocks => some (w.leave t .blocked)
  | .blocked => none
  | .woken => w.enter t .checks
  | .returns => some { w.leave t .outside with observed := true }
  -- `sample`
  | .loads => some (w.goto t (.sampled w.alreadyDone))
  | .sampled result => some { w.leave t .outside with observed := w.observed || result }

/-- One step. A thread calls one operation at a time. -/
def step (w : Waiter θ) : WaiterAction θ → Option (Waiter θ)
  | .done t =>
      if w.point t = .outside then
        (w.enter t .stores).map fun w => { w with doneCalls := w.doneCalls + 1 }
      else none
  | .wait t => if w.point t = .outside then w.enter t .checks else none
  | .sample t => if w.point t = .outside then w.enter t .loads else none
  | .spurious t => if w.point t = .blocked then some (w.goto t .woken) else none
  | .advance t => w.advance t

end Waiter

end Prf
