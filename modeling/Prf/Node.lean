import Prf.UnionFind
import Prf.Utils

/-!
# Nodes

`node.cpp`: the heap of `Node` objects the user's code has
made, and what `NodeManager::build` turns it into. A `Node *` is its address.
-/

namespace Prf

/-- `class Node`. -/
structure Node where
  clusterId : ID
  inClusterRank : Rank
  childs : List ℕ
  sameClusters : List ℕ
  loopChilds : List ℕ
deriving DecidableEq

/-- The nodes in memory. -/
abbrev Heap := ℕ → Node

/-- `Node::Node`. -/
def Node.new (clusterId : ID) : Node where
  clusterId := clusterId
  inClusterRank := Rank.zero
  childs := []
  sameClusters := []
  loopChilds := []

namespace Heap

/-- `Node::link_to`. -/
def linkTo (heap : Heap) (this other : ℕ) : Heap :=
  Function.update heap this { heap this with childs := (heap this).childs ++ [other] }

/-- `Node::loop_child_to`. `none` is the `failure_log` about a loop across clusters. -/
def loopChildTo (heap : Heap) (this other : ℕ) : Option Heap :=
  if (heap this).clusterId ≠ (heap other).clusterId then none
  else
    let heap := Function.update heap this
      { heap this with sameClusters := (heap this).sameClusters ++ [other] }
    let heap := Function.update heap other
      { heap other with sameClusters := (heap other).sameClusters ++ [this] }
    some (Function.update heap this
      { heap this with loopChilds := (heap this).loopChilds ++ [other] })

/-- `Node::set_cluster_id`. -/
def setClusterId (heap : Heap) (node : ℕ) (id : ID) : Heap :=
  Function.update heap node { heap node with clusterId := id }

/-- `get_in_cluster_rank() = rank`. -/
def setInClusterRank (heap : Heap) (node : ℕ) (rank : Rank) : Heap :=
  Function.update heap node { heap node with inClusterRank := rank }

end Heap

/-- `class NodeManager`, with the memory its pointers lead to. A node registers once, when it is
made. -/
structure NodeManager where
  heap : Heap
  nodes : List ℕ
  nodes_nodup : nodes.Nodup
  clusterRanks : List Rank
  alreadyBuild : Bool
  clusterNames : Map String

namespace NodeManager

/-- `NodeManager()`, before the first node of the program. -/
def empty : NodeManager where
  heap := fun _ => Node.new 0
  nodes := []
  nodes_nodup := List.nodup_nil
  clusterRanks := []
  alreadyBuild := false
  clusterNames := ∅

variable (manager : NodeManager)

/-- `new Node(cluster_id)` at a fresh address, and `register_node`. -/
def registerNode (node : ℕ) (clusterId : ID) (hfresh : node ∉ manager.nodes) : NodeManager :=
  { manager with
    heap := Function.update manager.heap node (Node.new clusterId)
    nodes := manager.nodes ++ [node]
    nodes_nodup := by
      rw [List.nodup_append]
      refine ⟨manager.nodes_nodup, by simp, ?_⟩
      rintro a ha b hb rfl
      exact hfresh (List.mem_singleton.mp hb ▸ ha) }

/-- `node2u64[node]`. -/
def node2u64 (node : ℕ) : ℕ := (numbering manager.nodes)[node]?.getD 0

/-! ### split_cluster_by_associates -/

/-- The first loop over the links of one node: two nodes of one explicit cluster stay together. -/
def mergeChilds (uf : UnionFind) (parent : ℕ) : Option UnionFind :=
  (manager.heap parent).childs.foldlM (fun uf child =>
    if (manager.heap parent).clusterId ≠ (manager.heap child).clusterId then some uf
    else uf.merge (manager.node2u64 parent) (manager.node2u64 child)) uf

/-- The second loop over the loop partners of one node. -/
def mergeSameClusters (uf : UnionFind) (node : ℕ) : Option UnionFind :=
  (manager.heap node).sameClusters.foldlM (fun uf other =>
    uf.merge (manager.node2u64 node) (manager.node2u64 other)) uf

/-- One round of the loop that puts the sinks into one cluster. `find` is whether `sink_node` has
been set. -/
def mergeSink (acc : Option ℕ × UnionFind) (n : ℕ) : Option (Option ℕ × UnionFind) :=
  if (manager.heap n).clusterId = 0 then
    match acc.1 with
    | some sinkNode =>
        (acc.2.merge (manager.node2u64 n) (manager.node2u64 sinkNode)).map (acc.1, ·)
    | none => some (some n, acc.2)
  else some acc

/-- `unionfind_ids.push_back(uf.get_parent(i.second))`. -/
def pushParent (acc : List ℕ × UnionFind) (i : ℕ × ℕ) : Option (List ℕ × UnionFind) :=
  (acc.2.getParent i.2).map fun (parent, uf) => (acc.1 ++ [parent], uf)

/-- One round of the renumbering. -/
def renumber (unionfindId2clusterId : Map ℕ) (acc : UnionFind × Heap × Map String) (node : ℕ) :
    Option (UnionFind × Heap × Map String) :=
  (acc.1.getParent (manager.node2u64 node)).map fun (unionfindId, uf) =>
    let clusterId := unionfindId2clusterId[unionfindId]?.getD 0
    let name := manager.clusterNames[(acc.2.1 node).clusterId]?.getD ""
    (uf, acc.2.1.setClusterId node clusterId,
      acc.2.2.insert clusterId (if name = "" then "NO_NAME" else name))

/-- One round of the repair: ids `sink_id` and `UNMANAGED_CLUSTER_ID` change places. -/
def swapClusterId (sinkId : ID) (heap : Heap) (node : ℕ) : Heap :=
  let fixedId := (heap node).clusterId
  heap.setClusterId node
    (if fixedId = sinkId then 0 else if fixedId = 0 then sinkId else fixedId)

/-- `std::swap` of the names under two ids. -/
def swapNames (a b : ID) (names : Map String) : Map String :=
  let nameA := names[a]?.getD ""
  let nameB := names[b]?.getD ""
  (names.insert a nameB).insert b nameA

/-- What follows the renumbering. -/
def repairSink (sinkNode : Option ℕ) (heap : Heap) (names : Map String) : Heap × Map String :=
  match sinkNode with
  | none => (heap, names)
  | some sink =>
      if (heap sink).clusterId = 0 then (heap, names)
      else
        (manager.nodes.foldl (swapClusterId (heap sink).clusterId) heap,
          swapNames (heap sink).clusterId 0 names)

/-- `NodeManager::split_cluster_by_associates`. `none` where `UnionFind` would leave its array. -/
def splitClusterByAssociates : Option NodeManager := do
  let uf := UnionFind.new (numbering manager.nodes).size
  let uf ← manager.nodes.foldlM manager.mergeChilds uf
  let uf ← manager.nodes.foldlM manager.mergeSameClusters uf
  let (sinkNode, uf) ← manager.nodes.foldlM manager.mergeSink (none, uf)
  let (unionfindIds, uf) ← (numbering manager.nodes).toList.foldlM pushParent ([], uf)
  let (_, heap, names) ←
    manager.nodes.foldlM (manager.renumber (numbering unionfindIds)) (uf, manager.heap, ∅)
  let (heap, names) := manager.repairSink sinkNode heap names
  return { manager with heap := heap, clusterNames := names }

/-! ### The ranks -/

/-- The locals of `generate_cluster_ranks`, and of `generate_in_cluster_ranks`: the vertices still to
be treated, their ranks, and for each the parents that have not been treated. -/
structure RankState where
  updates : List ℕ
  ranks : ℕ → Rank
  parents : ℕ → Finset ℕ

/-- One round of the first inner loop: `ranks[updating].ensure_after(ranks[child])`. -/
def ensureChild (updatingId : ℕ) (ranks : ℕ → Rank) (childId : ℕ) : ℕ → Rank :=
  Function.update ranks childId ((ranks updatingId).ensureAfter (ranks childId)).1

/-- One round of the second inner loop. `updates` is kept with its back first. -/
def releaseChild (updatingId : ℕ) (state : RankState) (childId : ℕ) : RankState :=
  let left := (state.parents childId).erase updatingId
  { state with
    parents := Function.update state.parents childId left
    updates := if left = ∅ then childId :: state.updates else state.updates }

/-- The worklist loop of both functions, stopped after `fuel` rounds if it is still running. -/
def rankLoop (childs : ℕ → Finset ℕ) : ℕ → RankState → Option (ℕ → Rank)
  | fuel, state =>
      match state.updates with
      | [] => some state.ranks
      | updatingId :: rest =>
          match fuel with
          | 0 => none
          | fuel + 1 =>
              let ranks := (ascending (childs updatingId)).foldl (ensureChild updatingId) state.ranks
              rankLoop childs fuel
                ((ascending (childs updatingId)).foldl (releaseChild updatingId)
                  { state with updates := rest, ranks := ranks })

/-- The largest cluster id in use. -/
def maxId : ID := manager.nodes.foldl (fun maxId node => max maxId (manager.heap node).clusterId) 0

/-- The pairs `(parent, child)` the first loop of `generate_cluster_ranks` goes through. -/
def clusterLinks : List (ID × ID) :=
  manager.nodes.flatMap fun node => (manager.heap node).childs.map fun child =>
    ((manager.heap node).clusterId, (manager.heap child).clusterId)

/-- The pairs of numbers the first loop of `generate_in_cluster_ranks` goes through. -/
def inClusterLinks : List (ℕ × ℕ) :=
  manager.nodes.flatMap fun parent => (manager.heap parent).childs.filterMap fun child =>
    if (manager.heap parent).clusterId ≠ (manager.heap child).clusterId then none
    else some (manager.node2u64 parent, manager.node2u64 child)

/-- `childs[vertex]`, once every link has been entered. -/
def childsOf (links : List (ℕ × ℕ)) (vertex : ℕ) : Finset ℕ :=
  ((links.filter fun link => link.1 = vertex).map Prod.snd).toFinset

/-- `parents[vertex]`, once every link has been entered. -/
def parentsOf (links : List (ℕ × ℕ)) (vertex : ℕ) : Finset ℕ :=
  ((links.filter fun link => link.2 = vertex).map Prod.fst).toFinset

/-- `NodeManager::generate_cluster_ranks`, with as many rounds as it may take. -/
def generateClusterRanks (fuel : ℕ) : Option NodeManager :=
  let links := manager.clusterLinks
  let start : RankState :=
    { updates := ((List.range (manager.maxId + 1)).filter fun i => parentsOf links i = ∅).reverse
      ranks := fun _ => Rank.zero
      parents := parentsOf links }
  (rankLoop (childsOf links) fuel start).map fun ranks =>
    { manager with clusterRanks := (List.range (manager.maxId + 1)).map ranks }

/-- `NodeManager::generate_in_cluster_ranks`, with as many rounds as it may take. The ranks are
written through `u64_to_node`. -/
def generateInClusterRanks (fuel : ℕ) : Option NodeManager :=
  let links := manager.inClusterLinks
  let u64ToNode := transpose (numbering manager.nodes)
  let start : RankState :=
    { updates := ((manager.nodes.map manager.node2u64).filter fun i => parentsOf links i = ∅).reverse
      ranks := fun i => (manager.heap (u64ToNode[i]?.getD 0)).inClusterRank
      parents := parentsOf links }
  (rankLoop (childsOf links) fuel start).map fun ranks =>
    { manager with heap := manager.nodes.foldl (fun heap node =>
        heap.setInClusterRank node (ranks (manager.node2u64 node))) manager.heap }

/-- What stops `NodeManager::build` before it starts. -/
inductive BuildFailure where
  | noNodes
  | alreadyBuilt
deriving DecidableEq

/-- The text `failure_log` prints. -/
def BuildFailure.message : BuildFailure → String
  | .noNodes => "ノードが登録されてません"
  | .alreadyBuilt => "ビルドは一度まで"

/-- `NodeManager::build`. -/
def build (fuel : ℕ) : Option (Except BuildFailure NodeManager) :=
  if manager.nodes = [] then some (.error .noNodes)
  else if manager.alreadyBuild then some (.error .alreadyBuilt)
  else do
    let manager ← { manager with alreadyBuild := true }.splitClusterByAssociates
    let manager ← manager.generateClusterRanks fuel
    let manager ← manager.generateInClusterRanks fuel
    return .ok manager

end NodeManager

end Prf
