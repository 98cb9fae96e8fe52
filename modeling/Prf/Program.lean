import Prf.Node

/-!
# Building a program

What user code does to the nodes before the build: `cluster.cpp` and the linking half of
`time_invariant_values.cpp`. Every value owns one node, so a value is its node's address here.
-/

namespace Prf

/-- The memory of the build: `ClusterManager::global_current_id`, the `NodeManager`, and the
`listners` of each value. -/
structure Program where
  globalCurrentId : ID
  manager : NodeManager
  listners : ℕ → List ℕ

namespace Program

/-- Before the first value. `initialize` starts over without resetting the id. -/
def start (globalCurrentId : ID) : Program where
  globalCurrentId := globalCurrentId
  manager := NodeManager.empty
  listners := fun _ => []

/-- `ClusterManager::next_id`. -/
def nextId (p : Program) : Program :=
  { p with globalCurrentId := p.globalCurrentId + 1 }

/-- `Cluster::Cluster(name)`: `enter_cluster` and `register_cluster_name`. -/
def enterCluster (p : Program) (name : String) : Program :=
  let p := p.nextId
  { p with manager := { p.manager with
      clusterNames := p.manager.clusterNames.insert p.globalCurrentId name } }

/-- `Cluster::close` and `Cluster::~Cluster`: `exit_cluster`. -/
def exitCluster (p : Program) : Program :=
  p.nextId

/-- `TimeInvariantValues::TimeInvariantValues`. `none` where the address is taken. -/
def newValue (p : Program) (node : ℕ) (clusterId : ID) : Option Program :=
  if h : node ∉ p.manager.nodes then
    some { p with manager := p.manager.registerNode node clusterId h }
  else none

/-- `TimeInvariantValues::listen`. -/
def listen (this : ℕ) (p : Program) (tiv : ℕ) : Program :=
  { p with
    manager := { p.manager with heap := p.manager.heap.linkTo tiv this }
    listners := Function.update p.listners tiv (p.listners tiv ++ [this]) }

/-- `TimeInvariantValues::child_to`. -/
def childTo (this : ℕ) (p : Program) (tiv : ℕ) : Program :=
  { p with manager := { p.manager with heap := p.manager.heap.linkTo tiv this } }

/-- `TimeInvariantValues::listen_over_loop`. -/
def listenOverLoop (p : Program) (this tiv : ℕ) : Option Program :=
  (p.manager.heap.loopChildTo tiv this).map fun heap =>
    { p with
      manager := { p.manager with heap := heap }
      listners := Function.update p.listners tiv (p.listners tiv ++ [this]) }

/-- `TimeInvariantValues::global_listen`. -/
def globalListen (p : Program) (this tiv : ℕ) : Program :=
  { p with listners := Function.update p.listners tiv (p.listners tiv ++ [this]) }

/-- What user code can do, with the address of the new value where there is one. -/
inductive ApiStep where
  | enterCluster (name : String)
  | exitCluster
  /-- the constructors of `StreamSink` and `CellSink` -/
  | newSink (node : ℕ)
  /-- the constructors of `Cell` and of the three loops, and every method that makes a value from
  others: what it listens to, and what it is a child of besides -/
  | newNode (node : ℕ) (listenTo childTo : List ℕ)
  /-- `StreamLoop::loop` and `CellLoop::loop` -/
  | loop (this tiv : ℕ)
  /-- `GlobalCellLoop::loop` -/
  | globalLoop (this tiv : ℕ)

/-- One call into the library. User code only has values that exist. -/
def step (p : Program) : ApiStep → Option Program
  | .enterCluster name => some (p.enterCluster name)
  | .exitCluster => some p.exitCluster
  | .newSink node => p.newValue node 0
  | .newNode node listens childs =>
      if (∀ tiv ∈ listens, tiv ∈ p.manager.nodes) ∧ ∀ tiv ∈ childs, tiv ∈ p.manager.nodes then
        (p.newValue node p.globalCurrentId).map fun p =>
          childs.foldl (childTo node) (listens.foldl (listen node) p)
      else none
  | .loop this tiv =>
      if this ∈ p.manager.nodes ∧ tiv ∈ p.manager.nodes then p.listenOverLoop this tiv else none
  | .globalLoop this tiv =>
      if this ∈ p.manager.nodes ∧ tiv ∈ p.manager.nodes then some (p.globalListen this tiv) else none

end Program

end Prf
