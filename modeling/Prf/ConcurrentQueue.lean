import Prf.Types

/-!
# The concurrent queue

`ConcurrentQueue` of `concurrent_queue.hpp` with `stop_the_threads` false: any number of threads
calling its operations, each of them one step under `data_lock`. A `pop` that finds nothing gives the
lock back and blocks in the same step, and tries again after it has been woken.
-/

namespace Prf

/-- What an observer of a queue writes down; no code reads it. -/
inductive QueueEvent (α : Type) where
  | push (value : α)
  | remove (value : α)

namespace QueueEvent

variable {α : Type}

def pushed? : QueueEvent α → Option α
  | push value => some value
  | remove _ => none

def removed? : QueueEvent α → Option α
  | push _ => none
  | remove value => some value

/-- The values pushed, in push order. -/
def pushed (trace : List (QueueEvent α)) : List α :=
  trace.filterMap pushed?

/-- The values `pop` and `try_pop` have returned. -/
def removed (trace : List (QueueEvent α)) : List α :=
  trace.filterMap removed?

variable (trace : List (QueueEvent α)) (value : α)

@[simp]
theorem pushed_push : pushed (trace ++ [push value]) = pushed trace ++ [value] :=
  List.filterMap_append

@[simp]
theorem pushed_remove : pushed (trace ++ [remove value]) = pushed trace :=
  List.filterMap_append.trans (List.append_nil _)

@[simp]
theorem removed_push : removed (trace ++ [push value]) = removed trace :=
  List.filterMap_append.trans (List.append_nil _)

@[simp]
theorem removed_remove : removed (trace ++ [remove value]) = removed trace ++ [value] :=
  List.filterMap_append

end QueueEvent

/-- Where a thread is with the condition variable: not in `wait`, blocked in it, or woken and not yet
at its predicate again. -/
inductive Waiting where
  | outside
  | blocked
  | woken
deriving DecidableEq

/-- `class ConcurrentQueue`, and the threads that use it. -/
structure ConcurrentQueue (θ α : Type) where
  data : List α
  waiting : θ → Waiting
  trace : List (QueueEvent α)

namespace ConcurrentQueue

variable {θ α : Type}

/-- A new queue. -/
def empty : ConcurrentQueue θ α where
  data := []
  waiting := fun _ => .outside
  trace := []

/-- `data.push(value)`. -/
def append (q : ConcurrentQueue θ α) (value : α) : ConcurrentQueue θ α :=
  { q with data := q.data ++ [value], trace := q.trace ++ [.push value] }

/-- `data.front()` and `data.pop()`, where `rest` is what stays. -/
def remove (q : ConcurrentQueue θ α) (value : α) (rest : List α) : ConcurrentQueue θ α :=
  { q with data := rest, trace := q.trace ++ [.remove value] }

variable [DecidableEq θ]

def setWaiting (q : ConcurrentQueue θ α) (t : θ) (waiting : Waiting) : ConcurrentQueue θ α :=
  { q with waiting := Function.update q.waiting t waiting }

/-- `wait.notify_one()`. Which of the blocked threads it wakes is open. -/
inductive NotifyOne : ConcurrentQueue θ α → ConcurrentQueue θ α → Prop where
  | nobody {q : ConcurrentQueue θ α} (hnobody : ∀ t, q.waiting t ≠ .blocked) : NotifyOne q q
  | wakes {q : ConcurrentQueue θ α} (t : θ) (hblocked : q.waiting t = .blocked) :
      NotifyOne q (q.setWaiting t .woken)

/-- One operation of the thread `t`, or a spurious wake-up of it. -/
inductive Step : ConcurrentQueue θ α → ConcurrentQueue θ α → Prop where
  | push {q q' : ConcurrentQueue θ α} (t : θ) (value : α) (hout : q.waiting t = .outside)
      (hnotify : NotifyOne (q.append value) q') : Step q q'
  | popWaits {q : ConcurrentQueue θ α} (t : θ) (hruns : q.waiting t ≠ .blocked)
      (hempty : q.data = []) : Step q (q.setWaiting t .blocked)
  | popLast {q : ConcurrentQueue θ α} (t : θ) (value : α) (hruns : q.waiting t ≠ .blocked)
      (hdata : q.data = [value]) : Step q ((q.remove value []).setWaiting t .outside)
  | popNotifies {q q' : ConcurrentQueue θ α} (t : θ) (value : α) (rest : List α)
      (hruns : q.waiting t ≠ .blocked) (hdata : q.data = value :: rest) (hrest : rest ≠ [])
      (hnotify : NotifyOne ((q.remove value rest).setWaiting t .outside) q') : Step q q'
  | tryPopFails {q : ConcurrentQueue θ α} (t : θ) (hout : q.waiting t = .outside)
      (hempty : q.data = []) : Step q q
  | tryPop {q : ConcurrentQueue θ α} (t : θ) (value : α) (rest : List α)
      (hout : q.waiting t = .outside) (hdata : q.data = value :: rest) : Step q (q.remove value rest)
  | spurious {q : ConcurrentQueue θ α} (t : θ) (hblocked : q.waiting t = .blocked) :
      Step q (q.setWaiting t .woken)

end ConcurrentQueue

end Prf
