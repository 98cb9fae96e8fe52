import Mathlib

/-!
# Reading a log

A log is a list of events, the last one last, and an observation finds a value in some of the events.
-/

namespace Log

variable {α β : Type*} (observe : α → Option β)

/-- The last value observed. -/
def last (log : List α) : Option β :=
  (log.filterMap observe).getLast?

theorem last_append (log events : List α) :
    last observe (log ++ events) = (last observe events).or (last observe log) := by
  rw [last, List.filterMap_append, List.getLast?_append]
  rfl

theorem last_singleton (event : α) : last observe [event] = observe event := by
  cases h : observe event <;> simp [last, h]

theorem last_concat (log : List α) (event : α) :
    last observe (log ++ [event]) = (observe event).or (last observe log) := by
  rw [last_append, last_singleton]

theorem last_cons (event : α) (log : List α) :
    last observe (event :: log) = (last observe log).or (observe event) := by
  rw [← List.singleton_append, last_append, last_singleton]

/-! ## Silent events -/

variable {observe} {log events : List α}

theorem filterMap_append_silent (h : ∀ event ∈ events, observe event = none) :
    (log ++ events).filterMap observe = log.filterMap observe := by
  rw [List.filterMap_append, List.filterMap_eq_nil_iff.mpr h, List.append_nil]

theorem last_append_silent (h : ∀ event ∈ events, observe event = none) :
    last observe (log ++ events) = last observe log := by
  rw [last, filterMap_append_silent h, last]

theorem last_eq_none (h : ∀ event ∈ log, observe event = none) : last observe log = none := by
  rw [last, List.filterMap_eq_nil_iff.mpr h, List.getLast?_nil]

end Log
