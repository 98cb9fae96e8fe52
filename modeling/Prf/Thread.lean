import Prf.ConcurrentQueue

/-!
# Threads at a queue, and stopping them

`ConcurrentQueue` once more, now line by line: taking and giving back `data_lock`, the evaluation of
the predicate, the release-and-block of `wait` and the notifications are steps of their own, and
`stop_execution` of `thread.cpp` runs beside them. Its wait for `wait_threads` may end at any time
here.
-/

namespace Prf

/-- What a thread does next. It holds `data_lock` unless it is `outside`, `blocked` or `woken`. -/
inductive Point (α : Type) where
  | outside
  | pushes (value : α)
  | pushed (value : α)
  | checks
  | blocks
  | blocked
  | woken
  | loadsStop
  | takes
  | took (value : α)
  | tries
  | leaves

/-- How far `stop_execution` is: the flag not stored, stored, and `notify_stop` performed. -/
inductive StopPoint where
  | idle
  | stored
  | notified
deriving DecidableEq

/-- A queue, its threads and `stop_the_threads`. -/
structure Threads (θ α : Type) where
  data : List α
  dataLock : Option θ
  point : θ → Point α
  stopTheThreads : Bool
  stopExecution : StopPoint
  trace : List (QueueEvent α)

namespace Threads

variable {θ α : Type}

/-- A new queue, before any thread uses it. -/
def init : Threads θ α where
  data := []
  dataLock := none
  point := fun _ => .outside
  stopTheThreads := false
  stopExecution := .idle
  trace := []

/-- `data.push(value)`. -/
def append (q : Threads θ α) (value : α) : Threads θ α :=
  { q with data := q.data ++ [value], trace := q.trace ++ [.push value] }

/-- `data.front()` and `data.pop()`, where `rest` is what stays. -/
def remove (q : Threads θ α) (value : α) (rest : List α) : Threads θ α :=
  { q with data := rest, trace := q.trace ++ [.remove value] }

def lock (q : Threads θ α) (t : θ) : Threads θ α :=
  { q with dataLock := some t }

def unlock (q : Threads θ α) : Threads θ α :=
  { q with dataLock := none }

/-- `wait.notify_all()`. -/
def notifyAll (q : Threads θ α) : Threads θ α :=
  { q with point := fun t => match q.point t with | .blocked => .woken | point => point }

variable [DecidableEq θ]

def goto (q : Threads θ α) (t : θ) (point : Point α) : Threads θ α :=
  { q with point := Function.update q.point t point }

/-- `wait.notify_one()`. -/
inductive NotifyOne : Threads θ α → Threads θ α → Prop where
  | nobody {q : Threads θ α} (hnobody : ∀ t, q.point t ≠ .blocked) : NotifyOne q q
  | wakes {q : Threads θ α} (t : θ) (hblocked : q.point t = .blocked) : NotifyOne q (q.goto t .woken)

/-- One step of the thread `t`, or of `stop_execution`. -/
inductive Step : Threads θ α → Threads θ α → Prop where
  -- `push`
  | enterPush {q : Threads θ α} (t : θ) (value : α) (hpoint : q.point t = .outside)
      (hlock : q.dataLock = none) : Step q ((q.lock t).goto t (.pushes value))
  | push {q : Threads θ α} (t : θ) (value : α) (hpoint : q.point t = .pushes value) :
      Step q ((q.append value).goto t (.pushed value))
  | notifyPushed {q q' : Threads θ α} (t : θ) (value : α) (hpoint : q.point t = .pushed value)
      (hnotify : NotifyOne q q') : Step q (q'.goto t .leaves)
  -- `pop`
  | enterPop {q : Threads θ α} (t : θ) (hpoint : q.point t = .outside) (hlock : q.dataLock = none) :
      Step q ((q.lock t).goto t .checks)
  | checkTrue {q : Threads θ α} (t : θ) (hpoint : q.point t = .checks)
      (hcheck : q.data ≠ [] ∨ q.stopTheThreads = true) : Step q (q.goto t .loadsStop)
  | checkFalse {q : Threads θ α} (t : θ) (hpoint : q.point t = .checks) (hdata : q.data = [])
      (hstop : q.stopTheThreads = false) : Step q (q.goto t .blocks)
  | block {q : Threads θ α} (t : θ) (hpoint : q.point t = .blocks) :
      Step q (q.unlock.goto t .blocked)
  | spurious {q : Threads θ α} (t : θ) (hpoint : q.point t = .blocked) : Step q (q.goto t .woken)
  | relock {q : Threads θ α} (t : θ) (hpoint : q.point t = .woken) (hlock : q.dataLock = none) :
      Step q ((q.lock t).goto t .checks)
  | stopped {q : Threads θ α} (t : θ) (hpoint : q.point t = .loadsStop)
      (hstop : q.stopTheThreads = true) : Step q (q.goto t .leaves)
  | goOn {q : Threads θ α} (t : θ) (hpoint : q.point t = .loadsStop)
      (hstop : q.stopTheThreads = false) : Step q (q.goto t .takes)
  | take {q : Threads θ α} (t : θ) (value : α) (rest : List α) (hpoint : q.point t = .takes)
      (hdata : q.data = value :: rest) :
      Step q ((q.remove value rest).goto t (.took value))
  | tookLast {q : Threads θ α} (t : θ) (value : α) (hpoint : q.point t = .took value)
      (hdata : q.data = []) : Step q (q.goto t .leaves)
  | notifyTook {q q' : Threads θ α} (t : θ) (value : α) (hpoint : q.point t = .took value)
      (hdata : q.data ≠ []) (hnotify : NotifyOne q q') : Step q (q'.goto t .leaves)
  -- `try_pop`
  | enterTryPop {q : Threads θ α} (t : θ) (hpoint : q.point t = .outside)
      (hlock : q.dataLock = none) : Step q ((q.lock t).goto t .tries)
  | tryFails {q : Threads θ α} (t : θ) (hpoint : q.point t = .tries) (hdata : q.data = []) :
      Step q (q.goto t .leaves)
  | tryTakes {q : Threads θ α} (t : θ) (value : α) (rest : List α) (hpoint : q.point t = .tries)
      (hdata : q.data = value :: rest) :
      Step q ((q.remove value rest).goto t .leaves)
  -- the end of each of them
  | leave {q : Threads θ α} (t : θ) (hpoint : q.point t = .leaves) :
      Step q (q.unlock.goto t .outside)
  -- `stop_execution`; it takes no lock
  | storeStop {q : Threads θ α} (hpoint : q.stopExecution = .idle) :
      Step q { q with stopTheThreads := true, stopExecution := .stored }
  | notifyStop {q : Threads θ α} (hpoint : q.stopExecution = .stored) :
      Step q { q.notifyAll with stopExecution := .notified }
  | resetStop {q : Threads θ α} (hpoint : q.stopExecution = .notified) :
      Step q { q with stopTheThreads := false, stopExecution := .idle }

end Threads

end Prf
