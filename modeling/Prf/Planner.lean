import Prf.Types

/-!
# The planner

`planner.cpp`: the view the `PlannerManager` keeps of the unfinished transactions, the messages that
change it, and the two functions that turn it into proposals for the `Executor`. A lookup that would
dereference `end()` is `none`.
-/

namespace Prf

/-- `ExecutorMessage`. The pointer in a `TransactionExecuteMessage` is given by the transaction's
id. -/
inductive ExecutorMessage where
  | transactionExecute (transactionId : ID)
  | startUpdateCluster (transactionId clusterId : ID)
  | finalizeTransaction (transactionId : ID)
  | registerTransaction (id : ID)
deriving DecidableEq

/-- `UpdateTransactionMessage`. -/
structure UpdateTransactionMessage where
  transactionId : ID
  now : List ID
  future : List ID
  finish : List ID
deriving DecidableEq

/-- `PlannerMessage`. -/
inductive PlannerMessage where
  | startTransaction (transactionId : ID)
  | updateTransaction (message : UpdateTransactionMessage)
  | finishTransaction (transactionId : ID)
deriving DecidableEq

/-- `need_refresh_message`. -/
def PlannerMessage.needRefresh : PlannerMessage → Bool
  | startTransaction _ => false
  | updateTransaction _ => true
  | finishTransaction _ => true

/-- `class TransactionState`. -/
structure TransactionState where
  transactionId : ID
  initialized : Bool
  future : Finset ID
  now : Finset ID
  targetRanks : Map ℕ

namespace TransactionState

/-- `TransactionState(transaction_id)`. -/
def new (transactionId : ID) : TransactionState where
  transactionId := transactionId
  initialized := false
  future := ∅
  now := ∅
  targetRanks := ∅

variable (clusterRanks : ID → Rank)

/-- One round over `message.future`. -/
def addFuture (state : TransactionState) (id : ID) : TransactionState :=
  if id ∈ state.future then state
  else
    let rank := (clusterRanks id).value
    { state with
      future := insert id state.future
      targetRanks := state.targetRanks.insert rank (state.targetRanks[rank]?.getD 0 + 1) }

/-- One round over `message.now`. -/
def addNow (state : TransactionState) (id : ID) : TransactionState :=
  { state with
    future := state.future.erase id
    now := insert id state.now }

/-- One round over `message.finish`. -/
def addFinish (state : TransactionState) (id : ID) : Option TransactionState :=
  if id ∈ state.now then
    let rank := (clusterRanks id).value
    match state.targetRanks[rank]? with
    | none => none
    | some count => some
        { state with
          now := state.now.erase id
          targetRanks :=
            if count = 1 then state.targetRanks.erase rank
            else state.targetRanks.insert rank (count - 1) }
  else some state

/-- The three loops of `handleUpdateMessage` on the state they are about. -/
def applyUpdate (message : UpdateTransactionMessage) (state : TransactionState) :
    Option TransactionState :=
  let state := message.future.foldl (addFuture clusterRanks) state
  let state := message.now.foldl addNow state
  (message.finish.foldlM (addFinish clusterRanks) state).map ({ · with initialized := true })

end TransactionState

/-- The loop of `handleStartMessage`, which runs as long as the last id is below the new one. -/
def appendStates : ℕ → ID → List TransactionState
  | 0, _ => []
  | missing + 1, last => TransactionState.new (last + 1) :: appendStates missing (last + 1)

/-- `PlannerManager::handleStartMessage`. -/
def handleStartMessage (transactionId : ID) (states : List TransactionState) :
    List TransactionState :=
  match states.getLast? with
  | none => [TransactionState.new transactionId]
  | some back => states ++ appendStates (transactionId - back.transactionId) back.transactionId

/-- The `while` loop of `handleStartMessage` on ids of 64 bits, stopped after `fuel` rounds if it is
still running. -/
def startLoop (transactionId : ID) : ℕ → List TransactionState → Option (List TransactionState)
  | fuel, states =>
      match states.getLast? with
      | none => none
      | some back =>
          if transactionId ≤ back.transactionId then some states
          else
            match fuel with
            | 0 => none
            | fuel + 1 =>
                startLoop transactionId fuel
                  (states ++ [TransactionState.new ((back.transactionId + 1) % u64Size)])

/-- `handleStartMessage` with that loop. -/
def handleStartRounds (fuel : ℕ) (transactionId : ID) (states : List TransactionState) :
    Option (List TransactionState) :=
  if states = [] then some [TransactionState.new transactionId]
  else startLoop transactionId fuel states

/-- `PlannerManager::handleUpdateMessage`. -/
def handleUpdateMessage (clusterRanks : ID → Rank) (message : UpdateTransactionMessage)
    (states : List TransactionState) : Option (List TransactionState) :=
  match states.head?, states.getLast? with
  | some front, some back =>
      if message.transactionId < front.transactionId ∨
          back.transactionId < message.transactionId then some states
      else
        let idx := message.transactionId - front.transactionId
        match states[idx]? with
        | none => none
        | some state =>
            (state.applyUpdate clusterRanks message).map fun state => states.set idx state
  | _, _ => some states

/-- `PlannerManager::handleFinishMessage`. -/
def handleFinishMessage (transactionId : ID) (states : List TransactionState) :
    List TransactionState :=
  match states with
  | [] => []
  | front :: rest => if front.transactionId = transactionId then rest else front :: rest

/-- `PlannerManager::handleMessage`. -/
def handleMessage (clusterRanks : ID → Rank) (states : List TransactionState) :
    PlannerMessage → Option (List TransactionState)
  | .startTransaction transactionId => some (handleStartMessage transactionId states)
  | .updateTransaction message => handleUpdateMessage clusterRanks message states
  | .finishTransaction transactionId => some (handleFinishMessage transactionId states)

/-- `simple_planner`: the messages it pushes. -/
def simplePlanner (clusterRanks : ID → Rank) (states : List TransactionState) :
    List ExecutorMessage :=
  match states with
  | [] => []
  | state :: _ =>
      if ¬ state.initialized then []
      else if state.now = ∅ ∧ state.future = ∅ then [.finalizeTransaction state.transactionId]
      else if state.now = ∅ then
        match state.targetRanks.toList.head? with
        | none => []
        | some (targetRank, _) =>
            ((ascending state.future).find? fun id => (clusterRanks id).value = targetRank).toList.map
              (.startUpdateCluster state.transactionId ·)
      else []

/-- The locals of `rank_based_planner` that live across transactions. -/
structure RankLocals where
  targetRank : ℕ
  usedClusters : Finset ID

/-- One round over `state.now`. -/
def visitNow (clusterRanks : ID → Rank) (loc : RankLocals) (now : ID) : RankLocals :=
  let rank := (clusterRanks now).value
  let loc := if rank < loc.targetRank then ⟨rank, ∅⟩ else loc
  { loc with usedClusters := insert now loc.usedClusters }

/-- One round over `state.future`, with the messages pushed so far. -/
def visitFuture (clusterRanks : ID → Rank) (transactionId : ID)
    (acc : RankLocals × List ExecutorMessage) (future : ID) :
    RankLocals × List ExecutorMessage :=
  let rank := (clusterRanks future).value
  if acc.1.targetRank < rank then acc
  else
    let loc := if rank < acc.1.targetRank then ⟨rank, ∅⟩ else acc.1
    if future ∈ loc.usedClusters then (loc, acc.2)
    else
      ({ loc with usedClusters := insert future loc.usedClusters },
        acc.2 ++ [.startUpdateCluster transactionId future])

/-- What `rank_based_planner` does with one initialized transaction: the messages it pushes and the
locals it goes on with. -/
def visitTransaction (clusterRanks : ID → Rank) (canFinish : Bool) (loc : RankLocals)
    (state : TransactionState) : RankLocals × List ExecutorMessage :=
  let loc := (ascending state.now).foldl (visitNow clusterRanks) loc
  let acc := (ascending state.future).foldl (visitFuture clusterRanks state.transactionId) (loc, [])
  (acc.1,
    acc.2 ++
      if canFinish ∧ state.future = ∅ ∧ state.now = ∅ then
        [.finalizeTransaction state.transactionId]
      else [])

/-- `std::vector<Planner>` holds one of these two. -/
inductive Planner where
  | simple
  | rankBased
deriving DecidableEq

/-- A planner function running in its thread: the transaction it looks at next, its locals, and the
messages of the current round it has still to push. -/
structure Pass where
  index : ℕ
  loc : RankLocals
  pushes : List ExecutorMessage

/-- A planner function before its first round. -/
def Pass.start : Pass where
  index := 0
  loc := ⟨u64Size - 1, ∅⟩
  pushes := []

/-- The next round of a planner function, or `none` when it returns. -/
def Pass.next (planner : Planner) (clusterRanks : ID → Rank) (states : List TransactionState)
    (stop : Bool) (pass : Pass) : Option Pass :=
  match planner with
  | .simple =>
      if pass.index = 0 then
        some { pass with index := 1, pushes := simplePlanner clusterRanks states }
      else none
  | .rankBased =>
      match states[pass.index]? with
      | none => none
      | some state =>
          if stop then none
          else if ¬ state.initialized then none
          else
            let visited := visitTransaction clusterRanks (pass.index = 0) pass.loc state
            some ⟨pass.index + 1, visited.1, visited.2⟩

section Next

variable {clusterRanks : ID → Rank} {states : List TransactionState} {stop : Bool}
  {pass pass' : Pass}

theorem Pass.next_simple (h : pass.next .simple clusterRanks states stop = some pass') :
    pass.index = 0 ∧
      pass' = { pass with index := 1, pushes := simplePlanner clusterRanks states } := by
  simp only [Pass.next, Option.ite_none_right_eq_some, Option.some.injEq] at h
  exact ⟨h.1, h.2.symm⟩

theorem Pass.next_rankBased (h : pass.next .rankBased clusterRanks states stop = some pass') :
    ∃ state, states[pass.index]? = some state ∧ stop = false ∧ state.initialized = true ∧
      pass' = ⟨pass.index + 1,
        (visitTransaction clusterRanks (pass.index = 0) pass.loc state).1,
        (visitTransaction clusterRanks (pass.index = 0) pass.loc state).2⟩ := by
  rw [Pass.next] at h
  cases hstate : states[pass.index]? with
  | none => simp [hstate] at h
  | some state =>
      simp only [hstate, Option.ite_none_left_eq_some, Option.some.injEq] at h
      obtain ⟨hstop, hinitialized, hpass⟩ := h
      exact ⟨state, rfl, by simpa using hstop, by simpa using hinitialized, hpass.symm⟩

end Next

/-- `class PlannerManager`. `received` is the message `start_loop` has popped and not handled yet,
because `stop_planning` still waits for the running planner. -/
structure PlannerManager where
  transactionStates : List TransactionState
  runningPlanner : Option Pass
  stopPlanningNeeded : Bool
  received : Option PlannerMessage

end Prf
