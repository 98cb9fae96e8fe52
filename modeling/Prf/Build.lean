import Prf.Node
import Prf.TimeInvariantValues

/-!
# From the nodes to the graph

The `Node` objects behind a dependency graph, and the graph that the constructors of a finished
program have left: every listening value has entered itself in the `listners` of what it listens to.
-/

namespace Prf

namespace Graph

variable {ι V : Type} [DecidableEq ι]

/-- The graph of a program, given its values and the ids and ranks the build has assigned. -/
def ofProgram (nodes : List ι) (primitive : ι → Primitive ι V) (addr : ι → ℕ) (clusterId : ι → ID)
    (inClusterRank : ι → Rank) (clusterRanks : ID → Rank) (listeners : ι → ℕ)
    (nodes_nodup : nodes.Nodup) (mem_nodes : ∀ x, x ∈ nodes)
    (addr_injective : ∀ x y, addr x = addr y → x = y)
    (loop_cluster : ∀ x y, x ∈ (primitive y).listenOverLoop → clusterId x = clusterId y) :
    Graph ι V where
  nodes := nodes
  primitive := primitive
  addr := addr
  clusterId := clusterId
  inClusterRank := inClusterRank
  clusterRanks := clusterRanks
  listners x := nodes.filter fun y => x ∈ (primitive y).listens
  listeners := listeners
  nodes_nodup := nodes_nodup
  mem_nodes := mem_nodes
  addr_injective := addr_injective
  mem_listners x y := by simp [mem_nodes]
  loop_cluster := loop_cluster

variable (G : Graph ι V)

/-- The nodes of the values as `link_to` has linked them, each at the address of its value. -/
def nodeManager : NodeManager where
  heap a :=
    match G.nodes.find? fun x => G.addr x = a with
    | none => Node.new 0
    | some x =>
        { Node.new (G.clusterId x) with
          childs := (G.nodes.filter fun y => x ∈ (G.primitive y).links).map G.addr }
  nodes := G.nodes.map G.addr
  nodes_nodup := G.nodes_nodup.map fun x y h => G.addr_injective x y h
  clusterRanks := []
  alreadyBuild := false
  clusterNames := ∅

/-- The ranks that `generate_in_cluster_ranks` finds for the nodes, or nothing if it takes more than
`fuel` rounds. -/
def generatedRanks (fuel : ℕ) : Option (List Rank) :=
  (G.nodeManager.generateInClusterRanks fuel).map fun manager =>
    G.nodes.map fun x => (manager.heap (G.addr x)).inClusterRank

/-- The in-cluster ranks are those of `generate_in_cluster_ranks`. -/
def InClusterRanksGenerated : Prop :=
  ∃ fuel, G.generatedRanks fuel = some (G.nodes.map G.inClusterRank)

end Graph

end Prf
