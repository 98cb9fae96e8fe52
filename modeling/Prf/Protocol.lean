import Prf.Planner
import Prf.Library.Replica

/-!
# The scheduling protocol

The composed system without values. What is left is which transaction knows which target clusters,
where the task of a cluster has got to, the two queues, and the planner with its delayed view. `edge`
says in which clusters an update of a cluster may find new targets. The composed system of
`System.lean` refines this protocol.
-/

namespace Prf.Protocol

/-- Where the task of a cluster has got to; the clusters it has newly made targets stay with it until
it tells the planner. -/
inductive Phase where
  | queued
  | announced
  | executing
  | registered (futures : Finset ID)
  | buffered (futures : Finset ID)
  | finished
deriving DecidableEq

/-- The clusters a task still has to announce. -/
def Phase.futures : Phase → Finset ID
  | registered futures => futures
  | buffered futures => futures
  | _ => ∅

/-- The planner has been told that the task runs, and not that it has ended. -/
def Phase.isRunning : Phase → Bool
  | queued => false
  | finished => false
  | _ => true

/-- A state of the protocol. The `Executor` has handled the registrations below `registered` and
finalised the transactions below `oldest`; `keys` are the keys of
`targets_outside_current_cluster`. -/
structure State where
  next : ID
  registered : ID
  oldest : ID
  committed : Finset ID
  keys : ID → Finset ID
  executorMessages : List ExecutorMessage
  transactions : Finset ID
  updatings : ID → Finset ID
  phase : ID → ID → Option Phase
  plannerMessages : List PlannerMessage
  planner : PlannerManager

namespace State

/-- Nothing registered yet; `first` is the id of the build transaction. -/
def init (first : ID) : State where
  next := first
  registered := first
  oldest := first
  committed := ∅
  keys := fun _ => ∅
  executorMessages := []
  transactions := ∅
  updatings := fun _ => ∅
  phase := fun _ _ => none
  plannerMessages := []
  planner := ⟨[], none, false, none⟩

/-- The user thread still holds the transaction. -/
def IsOpen (first : ID) (s : State) (T : ID) : Prop :=
  first ≤ T ∧ T < s.next ∧ T ∉ s.committed

/-- The clusters the task of `c` for `T` still has to announce. -/
def futures (s : State) (T c : ID) : Finset ID :=
  (s.phase T c).elim ∅ Phase.futures

/-- The messages on their way to the `Executor`, those a planner has still to push included. -/
def proposals (s : State) : List ExecutorMessage :=
  s.executorMessages ++
    match s.planner.runningPlanner with
    | some pass => pass.pushes
    | none => []

/-- The messages the planner has not handled. -/
def unhandled (s : State) : List PlannerMessage :=
  s.planner.received.toList ++ s.plannerMessages

end State

/-- `phase` with the task of `c` for `T` moved on. -/
def setPhase (phase : ID → ID → Option Phase) (T c : ID) (next : Phase) : ID → ID → Option Phase :=
  fun T' c' => if T' = T ∧ c' = c then some next else phase T' c'

theorem setPhase_of_ne (phase : ID → ID → Option Phase) {T c T' c' : ID} (next : Phase)
    (h : T' = T → c' ≠ c) : setPhase phase T c next T' c' = phase T' c' := by
  simp only [setPhase, ite_eq_right_iff, and_imp]
  intro hT hc
  exact absurd hc (h hT)

/-- The moves, one for each of the composed system's that a scheduler can notice. -/
inductive Move (planner : Planner) (clusterRanks : ID → Rank) (edge : ID → ID → Prop)
    (first : ID) : State → State → Prop
  | register {s : State} : Move planner clusterRanks edge first s
      { s with
        next := s.next + 1
        keys := Function.update s.keys s.next ∅
        executorMessages := s.executorMessages ++ [.registerTransaction s.next] }
  | send {s : State} {T : ID} (targets : Finset ID) (isOpen : s.IsOpen first T) :
      Move planner clusterRanks edge first s
        { s with keys := Function.update s.keys T (s.keys T ∪ targets) }
  | commit {s : State} {T : ID} (isOpen : s.IsOpen first T) :
      Move planner clusterRanks edge first s
        { s with
          committed := insert T s.committed
          executorMessages := s.executorMessages ++ [.transactionExecute T] }
  | handleRegister {s : State} {T : ID} {rest : List ExecutorMessage}
      (front : s.executorMessages = .registerTransaction T :: rest) :
      Move planner clusterRanks edge first s
        { s with
          executorMessages := rest
          registered := s.registered + 1
          plannerMessages := s.plannerMessages ++ [.startTransaction T] }
  | handleExecute {s : State} {T : ID} {rest : List ExecutorMessage}
      (front : s.executorMessages = .transactionExecute T :: rest) :
      Move planner clusterRanks edge first s
        { s with
          executorMessages := rest
          transactions := insert T s.transactions
          plannerMessages := s.plannerMessages ++
            [.updateTransaction ⟨T, [], ascending (s.keys T), []⟩] }
  | skipStart {s : State} {T c : ID} {rest : List ExecutorMessage}
      (front : s.executorMessages = .startUpdateCluster T c :: rest)
      (skipped : T ∉ s.transactions ∨ c ∈ s.updatings T) :
      Move planner clusterRanks edge first s { s with executorMessages := rest }
  | start {s : State} {T c : ID} {rest : List ExecutorMessage}
      (front : s.executorMessages = .startUpdateCluster T c :: rest)
      (running : T ∈ s.transactions) (fresh : c ∉ s.updatings T) :
      Move planner clusterRanks edge first s
        { s with
          executorMessages := rest
          updatings := Function.update s.updatings T (insert c (s.updatings T))
          phase := setPhase s.phase T c .queued }
  | skipFinalize {s : State} {T : ID} {rest : List ExecutorMessage}
      (front : s.executorMessages = .finalizeTransaction T :: rest)
      (skipped : T ∉ s.transactions) :
      Move planner clusterRanks edge first s { s with executorMessages := rest }
  | finalize {s : State} {T : ID} {rest : List ExecutorMessage}
      (front : s.executorMessages = .finalizeTransaction T :: rest)
      (running : T ∈ s.transactions) :
      Move planner clusterRanks edge first s
        { s with
          executorMessages := rest
          oldest := s.oldest + 1
          transactions := s.transactions.erase T
          updatings := Function.update s.updatings T ∅
          plannerMessages := s.plannerMessages ++ [.finishTransaction T] }
  | announce {s : State} {T c : ID} (task : s.phase T c = some .queued) :
      Move planner clusterRanks edge first s
        { s with
          phase := setPhase s.phase T c .announced
          plannerMessages := s.plannerMessages ++ [.updateTransaction ⟨T, [c], [], []⟩] }
  | generate {s : State} {T c : ID} (task : s.phase T c = some .announced) :
      Move planner clusterRanks edge first s
        { s with
          phase := setPhase s.phase T c .executing
          keys := Function.update s.keys T (insert c (s.keys T)) }
  | collect {s : State} {T c : ID} {targets : Finset ID}
      (task : s.phase T c = some .executing) (edges : ∀ d ∈ targets, edge c d) :
      Move planner clusterRanks edge first s
        { s with
          phase := setPhase s.phase T c (.registered (targets \ s.keys T))
          keys := Function.update s.keys T (s.keys T ∪ targets) }
  | buffer {s : State} {T c : ID} {futures : Finset ID}
      (task : s.phase T c = some (.registered futures)) :
      Move planner clusterRanks edge first s
        { s with phase := setPhase s.phase T c (.buffered futures) }
  | finish {s : State} {T c : ID} {futures : Finset ID}
      (task : s.phase T c = some (.buffered futures)) :
      Move planner clusterRanks edge first s
        { s with
          phase := setPhase s.phase T c .finished
          plannerMessages := s.plannerMessages ++
            [.updateTransaction ⟨T, [], ascending futures, [c]⟩] }
  | receiveStart {s : State} {T : ID} {rest : List PlannerMessage}
      (idle : s.planner.received = none)
      (front : s.plannerMessages = .startTransaction T :: rest) :
      Move planner clusterRanks edge first s
        { s with
          plannerMessages := rest
          planner := { s.planner with
            transactionStates := handleStartMessage T s.planner.transactionStates } }
  | receive {s : State} {message : PlannerMessage} {rest : List PlannerMessage}
      (idle : s.planner.received = none) (front : s.plannerMessages = message :: rest)
      (refresh : message.needRefresh = true) :
      Move planner clusterRanks edge first s
        { s with
          plannerMessages := rest
          planner := { s.planner with
            received := some message
            stopPlanningNeeded := true } }
  | handle {s : State} {message : PlannerMessage} {states : List TransactionState}
      (received : s.planner.received = some message) (ended : s.planner.runningPlanner = none)
      (handled : handleMessage clusterRanks s.planner.transactionStates message = some states) :
      Move planner clusterRanks edge first s
        { s with planner := ⟨states, some Pass.start, false, none⟩ }
  | push {s : State} {pass : Pass} {message : ExecutorMessage} {rest : List ExecutorMessage}
      (running : s.planner.runningPlanner = some pass) (front : pass.pushes = message :: rest) :
      Move planner clusterRanks edge first s
        { s with
          executorMessages := s.executorMessages ++ [message]
          planner := { s.planner with runningPlanner := some { pass with pushes := rest } } }
  | advance {s : State} {pass : Pass}
      (running : s.planner.runningPlanner = some pass) (front : pass.pushes = []) :
      Move planner clusterRanks edge first s
        { s with planner := { s.planner with
            runningPlanner := pass.next planner clusterRanks s.planner.transactionStates
              s.planner.stopPlanningNeeded } }

end Prf.Protocol
