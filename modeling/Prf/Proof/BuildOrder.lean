import Prf.Proof.InClusterRanks

/-!
# Builds of one graph

What `NodeManager::build` makes of a graph depends on the graph, and not on the addresses of its nodes
or the order in which they were registered. The union-find roots, the numbers and the order of the
worklists do depend on them. The classes, the ranks in the clusters and the ranks of the clusters are
described by relations between the nodes themselves.
-/

namespace Prf

open Relation

/-- Fresh nodes and their links, before they have addresses. -/
structure NodeGraph (α : Type) where
  clusterId : α → ID
  childs : α → List α
  sameClusters : α → List α
  loopChilds : α → List α
  clusterNames : Map String

/-- The addresses of the nodes, and the order in which they are registered. -/
structure Placement (α : Type) where
  addr : α → ℕ
  order : List α
  addr_injective : Function.Injective addr
  order_nodup : order.Nodup
  mem_order : ∀ x, x ∈ order

namespace NodeGraph

variable {α : Type} (graph : NodeGraph α) (p : Placement α)

/-- The manager of the nodes where they have been placed. -/
def manager : NodeManager where
  heap a :=
    match p.order.find? fun x => p.addr x = a with
    | none => Node.new 0
    | some x =>
        { Node.new (graph.clusterId x) with
          childs := (graph.childs x).map p.addr
          sameClusters := (graph.sameClusters x).map p.addr
          loopChilds := (graph.loopChilds x).map p.addr }
  nodes := p.order.map p.addr
  nodes_nodup := p.order_nodup.map p.addr_injective
  clusterRanks := []
  alreadyBuild := false
  clusterNames := graph.clusterNames

/-- The pairs of nodes that have to come into one cluster. -/
def Together (x y : α) : Prop :=
  y ∈ graph.childs x ∧ graph.clusterId x = graph.clusterId y ∨ y ∈ graph.sameClusters x ∨
    graph.clusterId x = 0 ∧ graph.clusterId y = 0

def SameCluster : α → α → Prop := EqvGen graph.Together

/-- A link inside a cluster. -/
def InnerLink (x y : α) : Prop := y ∈ graph.childs x ∧ graph.SameCluster x y

/-- A link from the cluster of `x` to that of `y`, which may be the same. -/
def ClusterLink (x y : α) : Prop :=
  ∃ a b, graph.SameCluster a x ∧ graph.SameCluster b y ∧ b ∈ graph.childs a

variable {graph p}

/-! ## The nodes in memory -/

theorem heap_addr (x : α) : (graph.manager p).heap (p.addr x) =
    { Node.new (graph.clusterId x) with
      childs := (graph.childs x).map p.addr
      sameClusters := (graph.sameClusters x).map p.addr
      loopChilds := (graph.loopChilds x).map p.addr } := by
  obtain ⟨y, hy⟩ : ∃ y, p.order.find? (fun y => p.addr y = p.addr x) = some y :=
    Option.isSome_iff_exists.mp (List.find?_isSome.mpr ⟨x, p.mem_order x, by simp⟩)
  obtain rfl : y = x := p.addr_injective (by simpa using List.find?_some hy)
  simp only [manager, hy]

theorem mem_nodes {a : ℕ} : a ∈ (graph.manager p).nodes ↔ ∃ x, p.addr x = a := by
  simp [manager, p.mem_order]

theorem addr_mem_nodes (x : α) : p.addr x ∈ (graph.manager p).nodes := mem_nodes.mpr ⟨x, rfl⟩

theorem linksRegistered : (graph.manager p).LinksRegistered := by
  constructor <;> intro a ha b hb <;> obtain ⟨x, rfl⟩ := mem_nodes.mp ha <;> rw [heap_addr] at hb
  · obtain ⟨y, -, rfl⟩ := List.mem_map.mp hb
    exact addr_mem_nodes y
  · obtain ⟨y, -, rfl⟩ := List.mem_map.mp hb
    exact addr_mem_nodes y

theorem together_addr (x y : α) :
    (graph.manager p).Together (p.addr x) (p.addr y) ↔ graph.Together x y := by
  simp only [NodeManager.Together, addr_mem_nodes, true_and, heap_addr, Node.new, Together,
    List.mem_map_of_injective p.addr_injective]

theorem eqvGen_together_addr (x y : α) :
    EqvGen (graph.manager p).Together (p.addr x) (p.addr y) ↔ graph.SameCluster x y := by
  have hrange : ∀ a b, (graph.manager p).Together a b →
      a ∈ Set.range p.addr ∧ b ∈ Set.range p.addr :=
    fun a b h => ⟨mem_nodes.mp h.1, mem_nodes.mp h.2.1⟩
  rw [Gluing.eqvGen_image p.addr_injective hrange]
  simp only [together_addr]
  rfl

/-! ## What the build makes of them -/

/-- The outcome of a build in terms of the graph alone. -/
structure BuiltFrom (graph : NodeGraph α) (p : Placement α) (built : NodeManager) : Prop where
  sameCluster : ∀ x y, (built.heap (p.addr x)).clusterId = (built.heap (p.addr y)).clusterId ↔
    graph.SameCluster x y
  inClusterRank : ∀ x n, n ≤ (built.heap (p.addr x)).inClusterRank.value ↔
    Layering.Chain graph.InnerLink (Layering.Grounded graph.InnerLink) n x
  clusterRank : ∀ x n, n ≤ built.clusterRank (built.heap (p.addr x)).clusterId ↔
    Layering.Chain graph.ClusterLink (Layering.Grounded graph.ClusterLink) n x

section Split

variable {split : NodeManager} (hsplit : (graph.manager p).SplitInto split)
include hsplit

theorem split_sameCluster (x y : α) :
    (split.heap (p.addr x)).clusterId = (split.heap (p.addr y)).clusterId ↔
      graph.SameCluster x y := by
  rw [hsplit.same _ (addr_mem_nodes x) _ (addr_mem_nodes y), eqvGen_together_addr]

theorem split_childs (x : α) : (split.heap (p.addr x)).childs = (graph.childs x).map p.addr := by
  rw [hsplit.heap, heap_addr]

theorem split_innerLink (x y : α) :
    Program.InnerLink split (p.addr x) (p.addr y) ↔ graph.InnerLink x y := by
  simp only [Program.InnerLink, hsplit.nodes, addr_mem_nodes, true_and, split_childs hsplit,
    List.mem_map_of_injective p.addr_injective, split_sameCluster hsplit, InnerLink]

theorem split_clusterLink (x y : α) :
    ((split.heap (p.addr x)).clusterId, (split.heap (p.addr y)).clusterId) ∈ split.clusterLinks ↔
      graph.ClusterLink x y := by
  rw [NodeManager.mem_clusterLinks]
  constructor
  · rintro ⟨_, hnode, _, hchild, hx, hy⟩
    obtain ⟨a, rfl⟩ := mem_nodes.mp (hsplit.nodes ▸ hnode)
    rw [split_childs hsplit] at hchild
    obtain ⟨b, hb, rfl⟩ := List.mem_map.mp hchild
    exact ⟨a, b, (split_sameCluster hsplit a x).mp hx, (split_sameCluster hsplit b y).mp hy, hb⟩
  · rintro ⟨a, b, hax, hby, hb⟩
    refine ⟨p.addr a, hsplit.nodes ▸ addr_mem_nodes a, p.addr b, ?_,
      (split_sameCluster hsplit a x).mpr hax, (split_sameCluster hsplit b y).mpr hby⟩
    rw [split_childs hsplit]
    exact List.mem_map_of_mem hb

theorem chain_innerLink (x : α) (n : ℕ) :
    Layering.Chain (Program.InnerLink split) (Layering.Grounded (Program.InnerLink split)) n
        (p.addr x) ↔
      Layering.Chain graph.InnerLink (Layering.Grounded graph.InnerLink) n x := by
  have hrange : ∀ a b, Program.InnerLink split a b → a ∈ Set.range p.addr :=
    fun a b h => mem_nodes.mp (hsplit.nodes ▸ h.1)
  have hlinks : (fun a b => Program.InnerLink split (p.addr a) (p.addr b)) = graph.InnerLink :=
    funext₂ fun a b => propext (split_innerLink hsplit a b)
  rw [Layering.chain_image hrange]
  simp only [Layering.grounded_image hrange, hlinks]

theorem chain_clusterLink (x : α) (n : ℕ) :
    Layering.Chain (fun c d => (c, d) ∈ split.clusterLinks)
        (Layering.Grounded fun c d => (c, d) ∈ split.clusterLinks) n
        (split.heap (p.addr x)).clusterId ↔
      Layering.Chain graph.ClusterLink (Layering.Grounded graph.ClusterLink) n x := by
  let cluster (x : α) : ID := (split.heap (p.addr x)).clusterId
  have hrange : ∀ c d, (c, d) ∈ split.clusterLinks → c ∈ Set.range cluster := by
    intro c d hlink
    obtain ⟨_, hnode, _, -, rfl, -⟩ := NodeManager.mem_clusterLinks.mp hlink
    obtain ⟨a, rfl⟩ := mem_nodes.mp (hsplit.nodes ▸ hnode)
    exact ⟨a, rfl⟩
  have hlinks : (fun a b => (cluster a, cluster b) ∈ split.clusterLinks) = graph.ClusterLink :=
    funext₂ fun a b => propext (split_clusterLink hsplit a b)
  have hchain := Layering.chain_image hrange
    (P := Layering.Grounded fun c d => (c, d) ∈ split.clusterLinks) n x
  simp only [Layering.grounded_image hrange, hlinks] at hchain
  exact hchain

end Split

theorem exists_build (graph : NodeGraph α) (p : Placement α) (hne : p.order ≠ [])
    (hsize : p.order.length < u64Size) :
    ∃ rounds, ∀ fuel ≥ rounds, ∃ built, (graph.manager p).build fuel = some (.ok built) ∧
      BuiltFrom graph p built := by
  let start : NodeManager := { graph.manager p with alreadyBuild := true }
  have hstart : start.LinksRegistered := ⟨linksRegistered.childs, linksRegistered.sameClusters⟩
  obtain ⟨split, hsplit, hinto⟩ := NodeManager.exists_splitInto hstart
  have hinto' : (graph.manager p).SplitInto split := ⟨hinto.nodes, hinto.heap, hinto.same,
    hinto.counted, hinto.sinks⟩
  have hlength : split.nodes.length < u64Size := by
    rw [hinto'.nodes]
    simpa [manager] using hsize
  have hreg := hinto'.linksRegistered linksRegistered
  refine ⟨max (split.maxId + 1) split.nodes.length, fun fuel hfuel => ?_⟩
  obtain ⟨ranked, hranked, hheap, hnodes, hrank⟩ := NodeManager.exists_generateClusterRanks
    hreg.childs hlength (le_of_max_le_left hfuel)
  have hfresh : ∀ x ∈ ranked.nodes, (ranked.heap x).inClusterRank = Rank.zero := by
    intro x hx
    rw [hnodes, hinto'.nodes] at hx
    obtain ⟨x, rfl⟩ := mem_nodes.mp hx
    rw [hheap, hinto'.heap, heap_addr]
    rfl
  have hchilds : ∀ x ∈ ranked.nodes, ∀ y ∈ (ranked.heap x).childs,
      (ranked.heap x).clusterId = (ranked.heap y).clusterId → y ∈ ranked.nodes := by
    intro x hx y hy _
    rw [hnodes] at hx ⊢
    exact hreg.childs x hx y (hheap ▸ hy)
  obtain ⟨built, hbuilt, hbnodes, hbranks, hbid, hbrank⟩ :=
    NodeManager.exists_generateInClusterRanks hchilds hfresh (hnodes ▸ hlength)
      (hnodes ▸ le_of_max_le_right hfuel)
  have hinner : Program.InnerLink ranked = Program.InnerLink split := by
    funext x y
    simp only [Program.InnerLink, hnodes, hheap]
  refine ⟨built, ?_, fun x y => ?_, fun x n => ?_, fun x n => ?_⟩
  · have hne' : (graph.manager p).nodes ≠ [] := by simpa [manager] using hne
    simp only [NodeManager.build, hne', if_false, show (graph.manager p).alreadyBuild = false from rfl]
    simp [start, hsplit, hranked, hbuilt]
  · rw [hbid, hbid, hheap]
    exact split_sameCluster hinto' x y
  · rw [hbrank _ (hnodes ▸ hinto'.nodes ▸ addr_mem_nodes x), hinner]
    exact chain_innerLink hinto' x n
  · have hsame : built.clusterRank = ranked.clusterRank := by
      funext c
      simp only [NodeManager.clusterRank, hbranks]
    rw [hsame, hbid, hheap, Layering.le_rank_iff_chain fun c n => hrank c n]
    exact chain_clusterLink hinto' x n

/-- Two builds of one graph differ in the names of the clusters only: they put the same nodes
together, and give each node and its cluster the same ranks. -/
theorem build_independent (graph : NodeGraph α) (p q : Placement α) (hne : p.order ≠ [])
    (hsize : p.order.length < u64Size) :
    ∃ rounds, ∀ fuel ≥ rounds, ∃ built built',
      (graph.manager p).build fuel = some (.ok built) ∧
      (graph.manager q).build fuel = some (.ok built') ∧
      (∀ x y, (built.heap (p.addr x)).clusterId = (built.heap (p.addr y)).clusterId ↔
        (built'.heap (q.addr x)).clusterId = (built'.heap (q.addr y)).clusterId) ∧
      (∀ x, (built.heap (p.addr x)).inClusterRank = (built'.heap (q.addr x)).inClusterRank) ∧
      ∀ x, built.clusterRank (built.heap (p.addr x)).clusterId =
        built'.clusterRank (built'.heap (q.addr x)).clusterId := by
  have hperm : p.order.Perm q.order :=
    (List.perm_ext_iff_of_nodup p.order_nodup q.order_nodup).mpr fun x =>
      iff_of_true (p.mem_order x) (q.mem_order x)
  obtain ⟨rounds, h⟩ := exists_build graph p hne hsize
  obtain ⟨rounds', h'⟩ := exists_build graph q (fun hnil => hne (hperm.trans (hnil ▸ .refl _)).eq_nil)
    (hperm.length_eq ▸ hsize)
  refine ⟨max rounds rounds', fun fuel hfuel => ?_⟩
  obtain ⟨built, hbuilt, hfrom⟩ := h fuel (le_of_max_le_left hfuel)
  obtain ⟨built', hbuilt', hfrom'⟩ := h' fuel (le_of_max_le_right hfuel)
  refine ⟨built, built', hbuilt, hbuilt', fun x y => ?_, fun x => ?_, fun x => ?_⟩
  · rw [hfrom.sameCluster, hfrom'.sameCluster]
  · apply Rank.value_injective
    exact eq_of_forall_le_iff fun n =>
      (hfrom.inClusterRank x n).trans (hfrom'.inClusterRank x n).symm
  · exact eq_of_forall_le_iff fun n => (hfrom.clusterRank x n).trans (hfrom'.clusterRank x n).symm

/-- A sink, and a value made from it that is linked to itself. -/
def selfLinked : NodeGraph (Fin 2) where
  clusterId x := if x = 0 then 0 else 1
  childs _ := [1]
  sameClusters _ := []
  loopChilds _ := []
  clusterNames := ∅

def forwards : Placement (Fin 2) where
  addr x := x
  order := [0, 1]
  addr_injective := Fin.val_injective
  order_nodup := by decide
  mem_order := by decide

def backwards : Placement (Fin 2) where
  addr x := 7 - x
  order := [1, 0]
  addr_injective := by decide
  order_nodup := by decide
  mem_order := by decide

theorem build_independent_selfLinked :
    forwards.order ≠ [] ∧ forwards.order.length < u64Size ∧
    ∃ rounds, ∀ fuel ≥ rounds, ∃ built built',
      (selfLinked.manager forwards).build fuel = some (.ok built) ∧
      (selfLinked.manager backwards).build fuel = some (.ok built') ∧
      (∀ x y, (built.heap (forwards.addr x)).clusterId = (built.heap (forwards.addr y)).clusterId ↔
        (built'.heap (backwards.addr x)).clusterId = (built'.heap (backwards.addr y)).clusterId) ∧
      (∀ x, (built.heap (forwards.addr x)).inClusterRank =
        (built'.heap (backwards.addr x)).inClusterRank) ∧
      ∀ x, built.clusterRank (built.heap (forwards.addr x)).clusterId =
        built'.clusterRank (built'.heap (backwards.addr x)).clusterId :=
  ⟨by decide, by decide, build_independent selfLinked forwards backwards (by decide) (by decide)⟩

end NodeGraph

end Prf
