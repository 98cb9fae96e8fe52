import Prf.System

/-!
# User threads

`Transaction` and `JoinHandler` of `transaction.cpp`, `send` of the sinks, and the build transaction of
`Executor::initialize`, on any number of user threads over the composed system. What a thread does
between two points at which another thread can notice is one step; a thread that waits for a
transaction goes on only after the `Executor` has called `done`. A thread keeps its `Transaction`
objects to itself, and may give its `JoinHandler`s away.
-/

namespace Prf

/-- Where a user thread is. -/
inductive UserPoint (ι V : Type) where
  /-- In user code. -/
  | free
  /-- In `Executor::invoke_after_build_hooks`. -/
  | invokesHooks
  /-- At the end of `invoke_after_build_hooks`, waiting for the build transaction. -/
  | initializes (transactionId : ID)
  /-- In `send(value)`, which has made a `Transaction` of its own. -/
  | sends (x : ι) (value : V)
  /-- In `send(value)`, about to leave the scope of that `Transaction`. -/
  | sent
  /-- In `~Transaction`, waiting in `start_updating`. -/
  | destructs (index : ℕ) (transactionId : ID)
  /-- In `JoinHandler::join`. -/
  | joins (transactionId : ID)
  /-- In `~JoinHandler`. -/
  | drops (index : ℕ) (transactionId : ID)

/-- The transaction a thread waits for. -/
def UserPoint.awaits {ι V : Type} : UserPoint ι V → Option ID
  | initializes transactionId => some transactionId
  | destructs _ transactionId => some transactionId
  | joins transactionId => some transactionId
  | drops _ transactionId => some transactionId
  | _ => none

def UserPoint.isFree {ι V : Type} : UserPoint ι V → Bool
  | free => true
  | _ => false

/-- The wait at the end of `Executor::initialize`. -/
def UserPoint.endsBuild {ι V : Type} : UserPoint ι V → Bool
  | initializes _ => true
  | _ => false

/-- A user thread: the thread-local `current_transaction`, and the objects it holds. Of a
`Transaction` the model keeps `inner`, of a `JoinHandler` its `message`, given by the transaction's
id. -/
structure UserThread (ι V : Type) where
  point : UserPoint ι V
  currentTransaction : Option ID
  transactions : List (Option ID)
  handlers : List (Option ID)

/-- The program with its user threads: the transactions whose `Waiter` has been told that they are
done, and whether `Executor::initialize` has returned. -/
structure Session (θ ι V : Type) where
  state : State ι V
  alreadyDone : Finset ID
  thread : θ → UserThread ι V
  built : Bool

/-- What a user thread does next, or a move of a thread of the program. -/
inductive UserAction (θ ι V : Type) where
  | build (t : θ)
  | afterBuildHook (t : θ)
  | endBuild (t : θ)
  | construct (t : θ)
  | send (t : θ) (x : ι) (value : V)
  | sendInside (t : θ)
  | endSend (t : θ)
  | destruct (t : θ) (index : ℕ)
  | getJoinHandler (t : θ) (index : ℕ)
  | join (t : θ) (index : ℕ)
  | drop (t : θ) (index : ℕ)
  | move (t : θ) (index : ℕ) (u : θ)
  | wake (t : θ)
  | internal (action : Action ι V)

/-- The thread in user code that takes the step. -/
def UserAction.actor {θ ι V : Type} : UserAction θ ι V → Option θ
  | build t => some t
  | construct t => some t
  | send t _ _ => some t
  | destruct t _ => some t
  | getJoinHandler t _ => some t
  | join t _ => some t
  | drop t _ => some t
  | move t _ _ => some t
  | _ => none

/-- No `JoinHandler` leaves its thread. -/
def UserAction.isLocal {θ ι V : Type} [DecidableEq θ] : UserAction θ ι V → Bool
  | move t _ u => t = u
  | _ => true

namespace UserThread

variable {ι V : Type}

/-- `current_transaction = new InnerTransaction`, kept by a new `Transaction`. -/
def constructed (u : UserThread ι V) (transactionId : ID) : UserThread ι V :=
  { u with
    currentTransaction := some transactionId
    transactions := u.transactions ++ [some transactionId] }

/-- `Transaction::get_join_handler`. -/
def handedOver (u : UserThread ι V) (index : ℕ) (transactionId : ID) : UserThread ι V :=
  { u with
    currentTransaction := none
    transactions := u.transactions.set index none
    handlers := u.handlers ++ [some transactionId] }

/-- What a thread goes on with after its wait. -/
def woken (u : UserThread ι V) : UserThread ι V :=
  match u.point with
  | .initializes _ => { u with point := .free, currentTransaction := none }
  | .destructs index _ =>
      { u with
        point := .free
        currentTransaction := none
        transactions := u.transactions.eraseIdx index }
  | .joins _ => { u with point := .free }
  | .drops index _ => { u with point := .free, handlers := u.handlers.eraseIdx index }
  | _ => u

end UserThread

namespace Session

variable {θ ι V : Type}

/-- No thread has done anything yet. -/
def init (G : Graph ι V) (buildTransaction : ID) : Session θ ι V where
  state := State.init G buildTransaction
  alreadyDone := ∅
  thread := fun _ => ⟨.free, none, [], []⟩
  built := false

/-- The transaction for which the `Executor` calls `done` when it handles its next message. -/
def doneNext (s : State ι V) : Option ID :=
  match s.executorMessages with
  | .finalizeTransaction transactionId :: _ =>
      if transactionId ∈ s.executor.transactions then some transactionId else none
  | _ => none

/-- The transaction for which a move calls `done`. -/
def doneBy (s : State ι V) : Action ι V → Option ID
  | .executor => doneNext s
  | _ => none

/-- The thread waits for a transaction that is not done. -/
def Blocked (s : Session θ ι V) (t : θ) : Prop :=
  ∃ transactionId, (s.thread t).point.awaits = some transactionId ∧ transactionId ∉ s.alreadyDone

variable [DecidableEq θ]

def setThread (s : Session θ ι V) (t : θ) (u : UserThread ι V) : Session θ ι V :=
  { s with thread := Function.update s.thread t u }

/-- `InnerTransaction::InnerTransaction()` of a new `Transaction` on a thread that has none. -/
def begin (s : Session θ ι V) (t : θ) (point : UserPoint ι V) : Session θ ι V :=
  { s.setThread t { (s.thread t).constructed s.state.nextTransactionId with point := point } with
    state := s.state.register }

/-- `~Transaction` up to its wait. -/
def destruct (s : Session θ ι V) (t : θ) (index : ℕ) : Option (Session θ ι V) :=
  match (s.thread t).transactions[index]? with
  | none => none
  | some none => some <|
      s.setThread t { s.thread t with transactions := (s.thread t).transactions.eraseIdx index }
  | some (some transactionId) => some
      { s.setThread t { s.thread t with point := .destructs index transactionId } with
        state := s.state.commit transactionId }

variable [DecidableEq ι] (G : Graph ι V)

/-- `send(value)` inside the current transaction. -/
def sendTo (s : Session θ ι V) (t : θ) (transactionId : ID) (x : ι) (value : V)
    (point : UserPoint ι V) : Session θ ι V :=
  { s.setThread t { s.thread t with point := point } with
    state := s.state.topSend G transactionId x value }

/-- A step of a thread in user code. No transaction is made before the build has ended. -/
def stepFree (s : Session θ ι V) : UserAction θ ι V → Option (Session θ ι V)
  | .build t =>
      if (s.thread t).currentTransaction = none ∧
          s.state.nextTransactionId = s.state.buildTransaction then some
        { s.setThread t { s.thread t with
            point := .invokesHooks
            currentTransaction := some s.state.nextTransactionId } with
          state := s.state.register }
      else none
  | .construct t =>
      if s.built then
        match (s.thread t).currentTransaction with
        | none => some (s.begin t .free)
        | some _ => some <|
            s.setThread t { s.thread t with transactions := (s.thread t).transactions ++ [none] }
      else none
  | .send t x value =>
      if s.built ∧ (G.primitive x).isSink then
        match (s.thread t).currentTransaction with
        | none => some (s.begin t (.sends x value))
        | some transactionId => some (s.sendTo G t transactionId x value .free)
      else none
  | .destruct t index => s.destruct t index
  | .getJoinHandler t index =>
      match (s.thread t).transactions[index]? with
      | some (some transactionId) => some
          { s.setThread t ((s.thread t).handedOver index transactionId) with
            state := s.state.commit transactionId }
      | _ => none
  | .join t index =>
      match (s.thread t).handlers[index]? with
      | none => none
      | some none => some s
      | some (some transactionId) => some <|
          s.setThread t { s.thread t with point := .joins transactionId }
  | .drop t index =>
      match (s.thread t).handlers[index]? with
      | none => none
      | some none => some <|
          s.setThread t { s.thread t with handlers := (s.thread t).handlers.eraseIdx index }
      | some (some transactionId) => some <|
          s.setThread t { s.thread t with point := .drops index transactionId }
  | .move t index u =>
      match (s.thread t).handlers[index]? with
      | none => none
      | some message =>
          let s := s.setThread t { s.thread t with
            handlers := (s.thread t).handlers.set index none }
          some (s.setThread u { s.thread u with handlers := (s.thread u).handlers ++ [message] })
  | _ => none

/-- A step of a thread inside one of the library's functions. -/
def stepInside (s : Session θ ι V) : UserAction θ ι V → Option (Session θ ι V)
  | .afterBuildHook t =>
      match (s.thread t).point, (s.thread t).currentTransaction, s.state.afterBuildHooks with
      | .invokesHooks, some transactionId, (x, value) :: rest => some
          { s with state :=
              { s.state.topSend G transactionId x value with afterBuildHooks := rest } }
      | _, _, _ => none
  | .endBuild t =>
      match (s.thread t).point, (s.thread t).currentTransaction, s.state.afterBuildHooks with
      | .invokesHooks, some transactionId, [] => some
          { s.setThread t { s.thread t with point := .initializes transactionId } with
            state := s.state.commit transactionId }
      | _, _, _ => none
  | .sendInside t =>
      match (s.thread t).point, (s.thread t).currentTransaction with
      | .sends x value, some transactionId => some (s.sendTo G t transactionId x value .sent)
      | _, _ => none
  | .endSend t =>
      match (s.thread t).point with
      | .sent => s.destruct t ((s.thread t).transactions.length - 1)
      | _ => none
  | .wake t =>
      match (s.thread t).point.awaits with
      | some transactionId =>
          if transactionId ∈ s.alreadyDone then some
            { s.setThread t (s.thread t).woken with
              built := s.built || (s.thread t).point.endsBuild }
          else none
      | none => none
  | _ => none

/-- One step of a user thread, or a move of a thread of the program. -/
def step (planner : Planner) (s : Session θ ι V) (action : UserAction θ ι V) :
    Option (Session θ ι V) :=
  match action with
  | .internal action =>
      if action.isInternal then
        (State.step G planner s.state action).map fun state =>
          { s with
            state := state
            alreadyDone := s.alreadyDone ∪ (doneBy s.state action).toFinset }
      else none
  | action =>
      match action.actor with
      | some t => if (s.thread t).point.isFree then s.stepFree G action else none
      | none => s.stepInside G action

/-- A run: the steps in the order in which they happen. -/
def run (planner : Planner) : Session θ ι V → List (UserAction θ ι V) → Option (Session θ ι V)
  | s, [] => some s
  | s, action :: actions => (step G planner s action).bind fun s => run planner s actions

/-- `JoinHandler::finished`; a handler that has been moved from has no `message` to ask. -/
def finished (s : Session θ ι V) (t : θ) (index : ℕ) : Option Bool :=
  (s.thread t).handlers[index]?.join.map (· ∈ s.alreadyDone)

end Session

end Prf
