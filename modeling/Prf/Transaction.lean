import Prf.TimeInvariantValues

/-!
# Transactions

`InnerTransaction` of `transaction.cpp`: both the object a user thread fills with its sends and the
sub-transaction a thread of the pool runs for one cluster.
-/

namespace Prf

/-- `ClusterManager::UNMANAGED_CLUSTER_ID`, the cluster of the sinks. -/
abbrev unmanagedClusterId : ID := 0

/-- `class InnerTransaction`. The flags `inside_transaction` and `updating` only decide whether a
destructor starts the update, which is a step of its own here. -/
structure InnerTransaction (ι V : Type) where
  id : ID
  updatingCluster : ID
  targetsInsideCurrentCluster : Finset ι
  /-- the priority queue, kept in the order in which its entries are popped -/
  executor : List (ℕ × ι)
  targetsOutsideCurrentCluster : Map (Finset ι)
  cleanups : Finset ι
  beforeUpdateHooks : List (Hook ι V)

/-- `struct ExecuteResult`. -/
structure ExecuteResult (ι V : Type) where
  targets : Map (Finset ι)
  cleanups : Finset ι
  beforeUpdateHooks : List (Hook ι V)

namespace InnerTransaction

variable {ι V : Type}

/-- `InnerTransaction(id, updating_cluster)`; the constructor of a user thread's transaction leaves
the same object with `updating_cluster = UNMANAGED_CLUSTER_ID`. -/
def new (id updatingCluster : ID) : InnerTransaction ι V where
  id := id
  updatingCluster := updatingCluster
  targetsInsideCurrentCluster := ∅
  executor := []
  targetsOutsideCurrentCluster := ∅
  cleanups := ∅
  beforeUpdateHooks := []

/-- `targets_outside_current_cluster[cluster_id]`, read only. -/
def targetsOf (t : InnerTransaction ι V) (clusterId : ID) : Finset ι :=
  t.targetsOutsideCurrentCluster[clusterId]?.getD ∅

/-- `InnerTransaction::target_clusters`. -/
def targetClusters (t : InnerTransaction ι V) : Finset ID :=
  t.targetsOutsideCurrentCluster.keys.toFinset

variable [DecidableEq ι]

/-- `targets_outside_current_cluster[cluster_id].insert(tiv)`. -/
def insertTarget (clusterId : ID) (t : InnerTransaction ι V) (tiv : ι) : InnerTransaction ι V :=
  { t with targetsOutsideCurrentCluster :=
      t.targetsOutsideCurrentCluster.insert clusterId (insert tiv (t.targetsOf clusterId)) }

/-- `InnerTransaction::register_cleanup`. -/
def registerCleanup (t : InnerTransaction ι V) (tiv : ι) : InnerTransaction ι V :=
  { t with cleanups := insert tiv t.cleanups }

/-- `InnerTransaction::register_before_update_hook`. -/
def registerBeforeUpdateHook (t : InnerTransaction ι V) (hook : Hook ι V) : InnerTransaction ι V :=
  { t with beforeUpdateHooks := t.beforeUpdateHooks ++ [hook] }

/-- `executor.top()`, `executor.pop()` and the erasure from `targets_inside_current_cluster`. -/
def pop (t : InnerTransaction ι V) (tiv : ι) (rest : List (ℕ × ι)) : InnerTransaction ι V :=
  { t with
    executor := rest
    targetsInsideCurrentCluster := t.targetsInsideCurrentCluster.erase tiv }

/-- What `execute` returns when its queue is empty. -/
def executeResult (t : InnerTransaction ι V) : ExecuteResult ι V where
  targets := t.targetsOutsideCurrentCluster
  cleanups := t.cleanups
  beforeUpdateHooks := t.beforeUpdateHooks

end InnerTransaction

namespace Graph

variable {ι V : Type} (G : Graph ι V)

/-- `std::greater` on `(rank, pointer)` pairs, as the order of popping. -/
def popsBefore (e e' : ℕ × ι) : Prop :=
  e.1 < e'.1 ∨ e.1 = e'.1 ∧ G.addr e.2 ≤ G.addr e'.2

instance : DecidableRel G.popsBefore := fun _ _ => inferInstanceAs (Decidable (_ ∨ _))

variable [DecidableEq ι]

/-- `InnerTransaction::register_update`. -/
def registerUpdate (t : InnerTransaction ι V) (tiv : ι) : InnerTransaction ι V :=
  if t.updatingCluster = G.clusterId tiv then
    if tiv ∈ t.targetsInsideCurrentCluster then t
    else
      { t with
        targetsInsideCurrentCluster := insert tiv t.targetsInsideCurrentCluster
        executor := t.executor.orderedInsert G.popsBefore ((G.inClusterRank tiv).value, tiv) }
  else t.insertTarget (G.clusterId tiv) tiv

/-- `TimeInvariantValues::register_listeners_update`. -/
def registerListenersUpdate (t : InnerTransaction ι V) (tiv : ι) : InnerTransaction ι V :=
  (G.listners tiv).foldl G.registerUpdate t

/-- `send(value, transaction)` of a stream or a cell. -/
def send (tiv : ι) (value : V) (store : Store ι V) (t : InnerTransaction ι V) :
    Store ι V × InnerTransaction ι V :=
  (Function.update store tiv ((store tiv).insert t.id value),
    (G.registerListenersUpdate t tiv).registerCleanup tiv)

/-- `update(transaction)` of a stream or a cell. -/
def update (tiv : ι) (store : Store ι V) (t : InnerTransaction ι V) :
    Except Failure (Store ι V × InnerTransaction ι V) :=
  match (G.primitive tiv).updater tiv (G.sample store t.id) with
  | .error e => .error e
  | .ok (res, hooks) =>
      let t := hooks.foldl InnerTransaction.registerBeforeUpdateHook t
      match res with
      | none => .ok (store, t)
      | some value => .ok (G.send tiv value store t)

/-- The loop of `InnerTransaction::execute`, stopped after `fuel` rounds if it is still running. -/
def executeLoop : ℕ → Store ι V → InnerTransaction ι V →
    Option (Except Failure (Store ι V × InnerTransaction ι V))
  | fuel, store, t =>
      match t.executor with
      | [] => some (.ok (store, t))
      | (_, tiv) :: rest =>
          match fuel with
          | 0 => none
          | fuel + 1 =>
              match G.update tiv store (t.pop tiv rest) with
              | .error e => some (.error e)
              | .ok (store, t) => executeLoop fuel store t

/-- `InnerTransaction::execute`: the stored values it leaves and its result. -/
def execute (fuel : ℕ) (store : Store ι V) (t : InnerTransaction ι V) :
    Option (Except Failure (Store ι V × ExecuteResult ι V)) :=
  (G.executeLoop fuel store t).map fun r => r.map fun (store, t) => (store, t.executeResult)

/-- `InnerTransaction::generate_sub_transaction`. Reading the map with `operator[]` leaves an entry
for the cluster behind. -/
def generateSubTransaction (t : InnerTransaction ι V) (updatingCluster : ID) :
    InnerTransaction ι V × InnerTransaction ι V :=
  ({ t with targetsOutsideCurrentCluster :=
      t.targetsOutsideCurrentCluster.insertIfNew updatingCluster ∅ },
    (G.sorted (t.targetsOf updatingCluster)).foldl G.registerUpdate
      (InnerTransaction.new t.id updatingCluster))

/-- One round of the outer loop of `register_execution_result`. -/
def registerTargets (acc : InnerTransaction ι V × Finset ID) (entry : ID × Finset ι) :
    InnerTransaction ι V × Finset ID :=
  ((G.sorted entry.2).foldl (InnerTransaction.insertTarget entry.1) acc.1,
    if entry.1 ∈ acc.1.targetsOutsideCurrentCluster then acc.2 else insert entry.1 acc.2)

/-- `InnerTransaction::register_execution_result`: the transaction afterwards and the clusters that
have newly become targets. -/
def registerExecutionResult (t : InnerTransaction ι V) (result : ExecuteResult ι V) :
    InnerTransaction ι V × Finset ID :=
  let acc := result.targets.toList.foldl G.registerTargets (t, ∅)
  ({ acc.1 with cleanups := acc.1.cleanups ∪ result.cleanups }, acc.2)

/-- The second loop of `InnerTransaction::finalize`. -/
def refreshAll (transactionId : ID) : List ι → Store ι V → Except Failure (Store ι V)
  | [], store => .ok store
  | x :: xs, store => do
      let values ← G.refresh store transactionId x
      refreshAll transactionId xs (Function.update store x values)

/-- `InnerTransaction::finalize`: the stored values it leaves, and the calls it makes to outside
listeners. -/
def finalizeTransaction (store : Store ι V) (t : InnerTransaction ι V) :
    Except Failure (Store ι V × List (Delivery ι V)) := do
  let deliveries ← (G.sorted t.cleanups).mapM (G.finalize store t.id)
  let store ← G.refreshAll t.id (G.sorted t.cleanups) store
  return (store, deliveries.flatten)

end Graph

end Prf
