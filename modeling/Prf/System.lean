import Prf.Transaction
import Prf.Planner

/-!
# The composed system

User threads, the `Executor` thread, the thread pool, the `PlannerManager` thread and the thread of
the running planner, with the two message queues between them. One action is one thread doing what
it does between two points at which another thread can notice: handling one message, one `update`
of a value, one push of a planner. A `failure_log` leaves no state behind.
-/

namespace Prf

/-- Where the closure given to `ThreadPool::request` has got to. A finished task stays in the list. -/
inductive TaskPhase (ι V : Type) where
  | queued
  | announced
  | executing (subtransaction : InnerTransaction ι V)
  | registered (futures : Finset ID) (hooks : List (Hook ι V))
  | buffered (futures : Finset ID)
  | finished

structure Task (ι V : Type) where
  transactionId : ID
  clusterId : ID
  phase : TaskPhase ι V

/-- The private members of `class Executor`. `transactions` is keyed by the ids of the transactions
the messages point to. -/
structure Executor (ι V : Type) where
  transactions : Finset ID
  transactionUpdatings : ID → Finset ID
  beforeUpdateHooksBuffers : ID → List (Hook ι V)
  beforeUpdateHooks : List (Hook ι V)

/-- What an observer of the run writes down; no code reads it. -/
inductive Event (ι V : Type) where
  | topSend (transactionId : ID) (x : ι) (value : V)
  | update (transactionId : ID) (x : ι)
  | taskSend (transactionId : ID) (x : ι) (value : V)
  | deliver (transactionId : ID) (delivery : Delivery ι V)
  | finalize (transactionId : ID) (view : ι → Option V)

/-- A state of the running program. `inner` are the transaction objects of the user threads, and
`afterBuildHooks` the hooks `Executor::invoke_after_build_hooks` has still to call inside the
transaction `buildTransaction`. -/
structure State (ι V : Type) where
  buildTransaction : ID
  nextTransactionId : ID
  afterBuildHooks : List (ι × V)
  inner : ID → InnerTransaction ι V
  committed : Finset ID
  executorMessages : List ExecutorMessage
  executor : Executor ι V
  tasks : List (Task ι V)
  plannerMessages : List PlannerMessage
  planner : PlannerManager
  store : Store ι V
  trace : List (Event ι V)

/-- The threads' moves. -/
inductive Action (ι V : Type) where
  | register
  | afterBuildHook
  | send (transactionId : ID) (x : ι) (value : V)
  | commit (transactionId : ID)
  | executor
  | task (index : ℕ)
  | plannerReceive
  | plannerHandle
  | plannerPass

/-- A move of a thread of the program, and not of a user thread. -/
def Action.isInternal {ι V : Type} : Action ι V → Bool
  | register => false
  | afterBuildHook => false
  | send _ _ _ => false
  | commit _ => false
  | executor => true
  | task _ => true
  | plannerReceive => true
  | plannerHandle => true
  | plannerPass => true

namespace State

variable {ι V : Type}

/-- The program when `Executor::initialize` is about to create the build transaction. -/
def init (G : Graph ι V) (buildTransaction : ID) : State ι V where
  buildTransaction := buildTransaction
  nextTransactionId := buildTransaction
  afterBuildHooks := G.afterBuildHooks
  inner := fun id => InnerTransaction.new id unmanagedClusterId
  committed := ∅
  executorMessages := []
  executor := ⟨∅, fun _ => ∅, fun _ => [], []⟩
  tasks := []
  plannerMessages := []
  planner := ⟨[], none, false, none⟩
  store := fun _ => ∅
  trace := []

/-- A user thread holds the transaction and has not given it to the `Executor` yet. -/
def IsOpen (s : State ι V) (transactionId : ID) : Prop :=
  s.buildTransaction ≤ transactionId ∧ transactionId < s.nextTransactionId ∧
    transactionId ∉ s.committed

instance (s : State ι V) (transactionId : ID) : Decidable (s.IsOpen transactionId) :=
  inferInstanceAs (Decidable (_ ∧ _ ∧ _))

def pushPlanner (s : State ι V) (message : PlannerMessage) : State ι V :=
  { s with plannerMessages := s.plannerMessages ++ [message] }

def setPhase (s : State ι V) (index : ℕ) (task : Task ι V) (phase : TaskPhase ι V) : State ι V :=
  { s with tasks := s.tasks.set index { task with phase := phase } }

/-- `InnerTransaction::InnerTransaction()`. -/
def register (s : State ι V) : State ι V :=
  { s with
    nextTransactionId := s.nextTransactionId + 1
    inner := Function.update s.inner s.nextTransactionId
      (InnerTransaction.new s.nextTransactionId unmanagedClusterId)
    executorMessages := s.executorMessages ++ [.registerTransaction s.nextTransactionId] }

/-- `InnerTransaction::start_updating` and `Transaction::get_join_handler`. -/
def commit (s : State ι V) (transactionId : ID) : State ι V :=
  { s with
    committed := insert transactionId s.committed
    executorMessages := s.executorMessages ++ [.transactionExecute transactionId] }

variable [DecidableEq ι] (G : Graph ι V)

/-- `send(value)` on a user thread. -/
def topSend (s : State ι V) (transactionId : ID) (x : ι) (value : V) : State ι V :=
  let sent := G.send x value s.store (s.inner transactionId)
  { s with
    store := sent.1
    inner := Function.update s.inner transactionId sent.2
    trace := s.trace ++ [.topSend transactionId x value] }

/-- `Executor::invoke_before_update_hooks`. -/
def applyHooks (transactionId : ID) (hooks : List (Hook ι V)) (store : Store ι V) : Store ι V :=
  hooks.foldl (fun store hook =>
    Function.update store hook.cell ((store hook.cell).insert transactionId hook.value)) store

/-- The body of the loop of `Executor::start_loop`. -/
def handleExecutorMessage (s : State ι V) : ExecutorMessage → Option (State ι V)
  | .transactionExecute transactionId => some
      { s with
        executor := { s.executor with
          transactions := insert transactionId s.executor.transactions }
        plannerMessages := s.plannerMessages ++ [.updateTransaction
          ⟨transactionId, [], ascending (s.inner transactionId).targetClusters, []⟩] }
  | .startUpdateCluster transactionId clusterId =>
      if transactionId ∉ s.executor.transactions then some s
      else if clusterId ∈ s.executor.transactionUpdatings transactionId then some s
      else some
        { s with
          executor := { s.executor with
            transactionUpdatings := Function.update s.executor.transactionUpdatings transactionId
              (insert clusterId (s.executor.transactionUpdatings transactionId)) }
          tasks := s.tasks ++ [⟨transactionId, clusterId, .queued⟩] }
  | .finalizeTransaction transactionId =>
      if transactionId ∉ s.executor.transactions then some s
      else
        match G.finalizeTransaction s.store (s.inner transactionId) with
        | .error _ => none
        | .ok (store, deliveries) => some
            { s with
              store := store
              executor :=
                { transactions := s.executor.transactions.erase transactionId
                  transactionUpdatings :=
                    Function.update s.executor.transactionUpdatings transactionId ∅
                  beforeUpdateHooksBuffers :=
                    Function.update s.executor.beforeUpdateHooksBuffers transactionId []
                  beforeUpdateHooks := s.executor.beforeUpdateHooks ++
                    s.executor.beforeUpdateHooksBuffers transactionId }
              plannerMessages := s.plannerMessages ++ [.finishTransaction transactionId]
              trace := s.trace ++ deliveries.map (.deliver transactionId) ++
                [.finalize transactionId (G.sample s.store transactionId)] }
  | .registerTransaction transactionId => some
      { s with
        store := applyHooks transactionId s.executor.beforeUpdateHooks s.store
        executor := { s.executor with beforeUpdateHooks := [] }
        plannerMessages := s.plannerMessages ++ [.startTransaction transactionId] }

/-- What one `update` of a value shows an observer. -/
def updateEvents (store : Store ι V) (transactionId : ID) (x : ι) : List (Event ι V) :=
  .update transactionId x ::
    match (G.primitive x).updater x (G.sample store transactionId) with
    | .ok (some value, _) => [.taskSend transactionId x value]
    | _ => []

/-- The next step of the closure `Executor::start_loop` gives to the thread pool. -/
def runTask (s : State ι V) (index : ℕ) (task : Task ι V) : Option (State ι V) :=
  match task.phase with
  | .queued => some <|
      (s.setPhase index task .announced).pushPlanner
        (.updateTransaction ⟨task.transactionId, [task.clusterId], [], []⟩)
  | .announced =>
      let generated := G.generateSubTransaction (s.inner task.transactionId) task.clusterId
      some { s.setPhase index task (.executing generated.2) with
        inner := Function.update s.inner task.transactionId generated.1 }
  | .executing subtransaction =>
      match subtransaction.executor with
      | [] =>
          let registered := G.registerExecutionResult (s.inner task.transactionId)
            subtransaction.executeResult
          some { s.setPhase index task (.registered registered.2 subtransaction.beforeUpdateHooks) with
            inner := Function.update s.inner task.transactionId registered.1 }
      | (_, x) :: rest =>
          match G.update x s.store (subtransaction.pop x rest) with
          | .error _ => none
          | .ok (store, subtransaction) => some
              { s.setPhase index task (.executing subtransaction) with
                store := store
                trace := s.trace ++ updateEvents G s.store task.transactionId x }
  | .registered futures hooks => some
      { s.setPhase index task (.buffered futures) with
        executor := { s.executor with
          beforeUpdateHooksBuffers := Function.update s.executor.beforeUpdateHooksBuffers
            task.transactionId (s.executor.beforeUpdateHooksBuffers task.transactionId ++ hooks) } }
  | .buffered futures => some <|
      (s.setPhase index task .finished).pushPlanner
        (.updateTransaction ⟨task.transactionId, [], ascending futures, [task.clusterId]⟩)
  | .finished => none

/-- `PlannerManager::start_loop` pops a message. One that needs a new plan waits in `received` until
`stop_planning` has joined the running planner. -/
def receivePlannerMessage (s : State ι V) (message : PlannerMessage)
    (rest : List PlannerMessage) : Option (State ι V) :=
  if message.needRefresh then some
    { s with
      plannerMessages := rest
      planner := { s.planner with
        received := some message
        stopPlanningNeeded := true } }
  else
    (handleMessage G.clusterRanks s.planner.transactionStates message).map fun states =>
      { s with
        plannerMessages := rest
        planner := { s.planner with transactionStates := states } }

/-- The rest of the round of `PlannerManager::start_loop` once no planner is running:
`handleMessage` and `start_planning`. -/
def handlePlannerMessage (s : State ι V) (message : PlannerMessage) : Option (State ι V) :=
  (handleMessage G.clusterRanks s.planner.transactionStates message).map fun states =>
    { s with planner :=
        { transactionStates := states
          runningPlanner := some Pass.start
          stopPlanningNeeded := false
          received := none } }

/-- The running planner pushes a message, or goes on to its next round. -/
def runPlanner (planner : Planner) (s : State ι V) (pass : Pass) : State ι V :=
  match pass.pushes with
  | message :: rest =>
      { s with
        executorMessages := s.executorMessages ++ [message]
        planner := { s.planner with runningPlanner := some { pass with pushes := rest } } }
  | [] =>
      { s with planner := { s.planner with
          runningPlanner := pass.next planner G.clusterRanks s.planner.transactionStates
            s.planner.stopPlanningNeeded } }

/-- One move of one thread, or `none` where that thread cannot move. -/
def step (planner : Planner) (s : State ι V) : Action ι V → Option (State ι V)
  | .register => some s.register
  | .afterBuildHook =>
      match s.afterBuildHooks with
      | [] => none
      | (x, value) :: rest =>
          if s.IsOpen s.buildTransaction then
            some { s.topSend G s.buildTransaction x value with afterBuildHooks := rest }
          else none
  | .send transactionId x value =>
      if s.IsOpen transactionId ∧ transactionId ≠ s.buildTransaction ∧ (G.primitive x).isSink then
        some (s.topSend G transactionId x value)
      else none
  | .commit transactionId =>
      if s.IsOpen transactionId ∧ (transactionId = s.buildTransaction → s.afterBuildHooks = []) then
        some (s.commit transactionId)
      else none
  | .executor =>
      match s.executorMessages with
      | [] => none
      | message :: rest => handleExecutorMessage G { s with executorMessages := rest } message
  | .task index =>
      match s.tasks[index]? with
      | none => none
      | some task => s.runTask G index task
  | .plannerReceive =>
      match s.planner.received, s.plannerMessages with
      | none, message :: rest => s.receivePlannerMessage G message rest
      | _, _ => none
  | .plannerHandle =>
      match s.planner.received, s.planner.runningPlanner with
      | some message, none => s.handlePlannerMessage G message
      | _, _ => none
  | .plannerPass =>
      match s.planner.runningPlanner with
      | none => none
      | some pass => some (s.runPlanner G planner pass)

/-- A run: the moves in the order in which they happen. -/
def run (planner : Planner) : State ι V → List (Action ι V) → Option (State ι V)
  | s, [] => some s
  | s, action :: actions => (step G planner s action).bind fun s => run planner s actions

end State

end Prf
