import Prf.Proof.Programs

/-!
# In-cluster ranks

`generate_in_cluster_ranks` writes into each node the length of a longest path of links inside its
cluster. It runs the loop of `generate_cluster_ranks`, in which no vertex is treated twice.
-/

namespace Prf

namespace NodeManager

open Relation Program

variable {manager : NodeManager} {x y : ℕ}

/-! ## The links by their numbers -/

theorem node2u64_inj (hx : x ∈ manager.nodes) (hy : y ∈ manager.nodes) :
    manager.node2u64 x = manager.node2u64 y ↔ x = y :=
  ⟨fun h => numbering_injOn manager.nodes hx hy h, fun h => h ▸ rfl⟩

theorem mem_inClusterLinks {i j : ℕ} : (i, j) ∈ manager.inClusterLinks ↔
    ∃ x y, InnerLink manager x y ∧ manager.node2u64 x = i ∧ manager.node2u64 y = j := by
  simp only [inClusterLinks, List.mem_flatMap, List.mem_filterMap, InnerLink]
  constructor
  · rintro ⟨x, hx, y, hy, hlink⟩
    split at hlink
    · cases hlink
    · rename_i hid
      simp only [Option.some.injEq, Prod.mk.injEq] at hlink
      exact ⟨x, y, ⟨hx, hy, not_ne_iff.mp hid⟩, hlink⟩
  · rintro ⟨x, y, ⟨hx, hy, hid⟩, rfl, rfl⟩
    exact ⟨x, hx, y, hy, by simp [hid]⟩

def numbers (manager : NodeManager) : Finset ℕ := (manager.nodes.map manager.node2u64).toFinset

theorem mem_numbers {i : ℕ} : i ∈ manager.numbers ↔ ∃ x ∈ manager.nodes, manager.node2u64 x = i := by
  simp [numbers]

theorem card_numbers_le : manager.numbers.card ≤ manager.nodes.length :=
  (List.toFinset_card_le _).trans (List.length_map _).le

/-- The state in which `generate_in_cluster_ranks` enters its loop. -/
def inClusterStart (manager : NodeManager) : RankState where
  updates := ((manager.nodes.map manager.node2u64).filter fun i =>
    parentsOf manager.inClusterLinks i = ∅).reverse
  ranks := fun i =>
    (manager.heap ((transpose (numbering manager.nodes))[i]?.getD 0)).inClusterRank
  parents := parentsOf manager.inClusterLinks

theorem foldl_setInClusterRank (ranks : ℕ → Rank) (l : List ℕ) (heap : Heap) (x : ℕ) :
    l.foldl (fun heap node => heap.setInClusterRank node (ranks node)) heap x =
      if x ∈ l then { heap x with inClusterRank := ranks x } else heap x := by
  induction l generalizing heap with
  | nil => simp
  | cons y l ih =>
      rw [List.foldl_cons, ih]
      by_cases hxy : x = y
      · subst hxy
        by_cases hx : x ∈ l <;> simp [hx, Heap.setInClusterRank]
      · by_cases hx : x ∈ l <;> simp [hx, hxy, Heap.setInClusterRank, Function.update_of_ne]

/-! ## The loop -/

section InClusterLoop

variable (hchilds : ∀ x ∈ manager.nodes, ∀ y ∈ (manager.heap x).childs,
  (manager.heap x).clusterId = (manager.heap y).clusterId → y ∈ manager.nodes)
include hchilds

theorem inClusterLinks_numbers {i j : ℕ} (hlink : (i, j) ∈ manager.inClusterLinks) :
    i ∈ manager.numbers ∧ j ∈ manager.numbers := by
  obtain ⟨x, y, ⟨hx, hy, hid⟩, rfl, rfl⟩ := mem_inClusterLinks.mp hlink
  exact ⟨mem_numbers.mpr ⟨x, hx, rfl⟩, mem_numbers.mpr ⟨y, hchilds x hx y hy hid, rfl⟩⟩

theorem inClusterLinks_iff (hx : x ∈ manager.nodes) (hy : y ∈ manager.nodes) :
    (manager.node2u64 x, manager.node2u64 y) ∈ manager.inClusterLinks ↔ InnerLink manager x y := by
  rw [mem_inClusterLinks]
  constructor
  · rintro ⟨a, b, hlink, ha, hb⟩
    obtain rfl := (node2u64_inj hlink.1 hx).mp ha
    obtain rfl := (node2u64_inj (hchilds a hlink.1 b hlink.2.1 hlink.2.2) hy).mp hb
    exact hlink
  · exact fun hlink => ⟨x, y, hlink, rfl, rfl⟩

theorem linked_inClusterLinks_subset : linked manager.inClusterLinks ⊆ manager.numbers := by
  intro i hi
  rcases mem_linked.mp hi with ⟨j, hlink | hlink⟩
  · exact (inClusterLinks_numbers hchilds hlink).1
  · exact (inClusterLinks_numbers hchilds hlink).2

theorem card_linked_inClusterLinks_le :
    (linked manager.inClusterLinks).card ≤ manager.nodes.length :=
  (Finset.card_le_card (linked_inClusterLinks_subset hchilds)).trans card_numbers_le

theorem sweep_inClusterStart
    (hfresh : ∀ x ∈ manager.nodes, (manager.heap x).inClusterRank = Rank.zero) :
    Sweep manager.numbers manager.inClusterLinks ∅ manager.inClusterStart := by
  apply Sweep.start
  · exact fun _ _ => inClusterLinks_numbers hchilds
  · refine List.nodup_reverse.mpr (List.Nodup.filter _ ?_)
    refine (List.nodup_map_iff_inj_on manager.nodes_nodup).mpr fun x hx y hy heq => ?_
    exact (node2u64_inj hx hy).mp heq
  · simp [numbers]
  · intro i hi
    obtain ⟨x, hx, rfl⟩ := mem_numbers.mp hi
    rw [show (transpose (numbering manager.nodes))[manager.node2u64 x]? = some x from
      transpose_numbering hx]
    exact hfresh x hx

theorem chain_inClusterLinks (hx : x ∈ manager.nodes) (n : ℕ) :
    Layering.Chain (fun i j => (i, j) ∈ manager.inClusterLinks)
        (Layering.Grounded fun i j => (i, j) ∈ manager.inClusterLinks) n (manager.node2u64 x) ↔
      Layering.Chain (InnerLink manager) (Layering.Grounded (InnerLink manager)) n x := by
  let number (x : {x // x ∈ manager.nodes}) : ℕ := manager.node2u64 x
  have hrange : ∀ i j, (i, j) ∈ manager.inClusterLinks → i ∈ Set.range number := by
    intro i j hlink
    obtain ⟨x, hx, rfl⟩ := mem_numbers.mp (inClusterLinks_numbers hchilds hlink).1
    exact ⟨⟨x, hx⟩, rfl⟩
  have hval : ∀ x y, InnerLink manager x y →
      x ∈ Set.range (Subtype.val : {x // x ∈ manager.nodes} → ℕ) :=
    fun x y hlink => ⟨⟨x, hlink.1⟩, rfl⟩
  have hlinks : (fun a b => (number a, number b) ∈ manager.inClusterLinks) =
      fun a b : {x // x ∈ manager.nodes} => InnerLink manager a b :=
    funext₂ fun a b => propext (inClusterLinks_iff hchilds a.2 b.2)
  have hnumbers := Layering.chain_image hrange
    (P := Layering.Grounded fun i j => (i, j) ∈ manager.inClusterLinks) n ⟨x, hx⟩
  have hnodes := Layering.chain_image hval
    (P := Layering.Grounded (InnerLink manager)) n ⟨x, hx⟩
  simp only [Layering.grounded_image hrange, Layering.grounded_image hval, hlinks] at hnumbers hnodes
  exact hnumbers.trans hnodes.symm

theorem exists_generateInClusterRanks
    (hfresh : ∀ x ∈ manager.nodes, (manager.heap x).inClusterRank = Rank.zero)
    (hsize : manager.nodes.length < u64Size) {fuel : ℕ} (hfuel : manager.nodes.length ≤ fuel) :
    ∃ ranked, manager.generateInClusterRanks fuel = some ranked ∧ ranked.nodes = manager.nodes ∧
      ranked.clusterRanks = manager.clusterRanks ∧
      (∀ x, (ranked.heap x).clusterId = (manager.heap x).clusterId) ∧
      ∀ x ∈ manager.nodes, ∀ n, n ≤ (ranked.heap x).inClusterRank.value ↔
        Layering.Chain (InnerLink manager) (Layering.Grounded (InnerLink manager)) n x := by
  have hstart := sweep_inClusterStart hchilds hfresh
  have hlinked := (card_linked_inClusterLinks_le hchilds).trans_lt hsize
  obtain ⟨done, state, hrun, hend, hsweep⟩ :=
    hstart.run hlinked (by simpa using card_numbers_le.trans hfuel)
  refine ⟨{ manager with heap := manager.nodes.foldl (fun heap node =>
      heap.setInClusterRank node (state.ranks (manager.node2u64 node))) manager.heap },
    ?_, rfl, rfl, fun x => ?_, fun x hx n => ?_⟩
  · simp only [inClusterStart] at hrun
    simp only [generateInClusterRanks, hrun, Option.map_some]
  · simp only [foldl_setInClusterRank fun node => state.ranks (manager.node2u64 node)]
    split <;> rfl
  · simp only [foldl_setInClusterRank fun node => state.ranks (manager.node2u64 node), hx, if_true]
    rw [hsweep.le_rank_iff n (mem_numbers.mpr ⟨x, hx, rfl⟩), ← chain_inClusterLinks hchilds hx]
    constructor
    · exact Layering.Chain.imp fun i _ _ hdone => hsweep.grounded i hdone
    · refine Layering.Chain.imp fun i j hlink hgrounded => ?_
      exact (hsweep.mem_done hend (inClusterLinks_numbers hchilds hlink).1).mpr hgrounded

end InClusterLoop

/-! ## Longest paths -/

/-- In an acyclic cluster the rank of a node is the length of a longest path that ends in it. -/
theorem generateInClusterRanks_longest (manager : NodeManager)
    (hchilds : ∀ x ∈ manager.nodes, ∀ y ∈ (manager.heap x).childs,
      (manager.heap x).clusterId = (manager.heap y).clusterId → y ∈ manager.nodes)
    (hfresh : ∀ x ∈ manager.nodes, (manager.heap x).inClusterRank = Rank.zero)
    (hsize : manager.nodes.length < u64Size)
    (hacyclic : ∀ x, ¬ TransGen (InnerLink manager) x x) :
    ∀ fuel ≥ manager.nodes.length, ∃ ranked, manager.generateInClusterRanks fuel = some ranked ∧
      ∀ x ∈ manager.nodes, IsGreatest {n | Layering.Path (InnerLink manager) n x}
        (ranked.heap x).inClusterRank.value := by
  intro fuel hfuel
  obtain ⟨ranked, hranked, -, -, -, hrank⟩ :=
    exists_generateInClusterRanks hchilds hfresh hsize hfuel
  have hpath : ∀ x ∈ manager.nodes, ∀ n, n ≤ (ranked.heap x).inClusterRank.value ↔
      Layering.Path (InnerLink manager) n x := by
    intro x hx n
    rw [hrank x hx, Layering.path_iff_chain]
    constructor
    · exact Layering.Chain.imp fun _ _ _ _ => trivial
    · exact Layering.Chain.imp fun _ _ _ _ y _ => hacyclic y
  exact ⟨ranked, hranked, fun x hx => ⟨(hpath x hx _).mp le_rfl, fun n hn => (hpath x hx n).mpr hn⟩⟩

/-- A link that is passed over by two others, and entered twice. -/
def shortcut : NodeManager :=
  { empty with
    heap := fun x =>
      if x = 5 then { Node.new 1 with childs := [3, 4, 4] }
      else if x = 3 then { Node.new 1 with childs := [4] }
      else Node.new 1
    nodes := [4, 5, 3]
    nodes_nodup := by decide }

theorem generateInClusterRanks_longest_shortcut :
    (∀ x ∈ shortcut.nodes, ∀ y ∈ (shortcut.heap x).childs,
      (shortcut.heap x).clusterId = (shortcut.heap y).clusterId → y ∈ shortcut.nodes) ∧
    (∀ x ∈ shortcut.nodes, (shortcut.heap x).inClusterRank = Rank.zero) ∧
    shortcut.nodes.length < u64Size ∧ (∀ x, ¬ TransGen (InnerLink shortcut) x x) ∧
    ∀ fuel ≥ shortcut.nodes.length, ∃ ranked, shortcut.generateInClusterRanks fuel = some ranked ∧
      ∀ x ∈ shortcut.nodes, IsGreatest {n | Layering.Path (InnerLink shortcut) n x}
        (ranked.heap x).inClusterRank.value := by
  have hchilds : ∀ x ∈ shortcut.nodes, ∀ y ∈ (shortcut.heap x).childs,
      (shortcut.heap x).clusterId = (shortcut.heap y).clusterId → y ∈ shortcut.nodes := by decide
  have hfresh : ∀ x ∈ shortcut.nodes, (shortcut.heap x).inClusterRank = Rank.zero := by decide
  have hsize : shortcut.nodes.length < u64Size := by decide
  have hacyclic : ∀ x, ¬ TransGen (InnerLink shortcut) x x := by
    let depth (x : ℕ) : ℕ := if x = 5 then 0 else if x = 3 then 1 else 2
    have hlink : ∀ x y, InnerLink shortcut x y → depth x < depth y := by
      have hall : ∀ x ∈ shortcut.nodes, ∀ y ∈ (shortcut.heap x).childs, depth x < depth y := by
        decide
      exact fun x y h => hall x h.1 y h.2.1
    exact Layering.acyclic_of_lt depth hlink
  exact ⟨hchilds, hfresh, hsize, hacyclic,
    generateInClusterRanks_longest shortcut hchilds hfresh hsize hacyclic⟩

/-! ## Both loops -/

/-- Within `fuel` rounds no vertex is taken off the worklist twice, and no increment wraps around. -/
def TreatsOnce (childs : ℕ → Finset ℕ) (fuel : ℕ) (start : RankState) : Prop :=
  ((rankRounds childs fuel start).map Prod.fst).Nodup ∧
    ∀ e ∈ rankRounds childs fuel start, NoWrap childs e.1 e.2

theorem Sweep.treatsOnce {vertices done : Finset ℕ} {links : List (ℕ × ℕ)} {state : RankState}
    (h : Sweep vertices links done state) (hsize : (linked links).card < u64Size) (fuel : ℕ) :
    TreatsOnce (childsOf links) fuel state :=
  ⟨(h.rounds hsize fuel).1, fun e he => ((h.rounds hsize fuel).2 e he).2⟩

/-- Whatever the links are, both loops end, treat no vertex twice, and leave ranks below the number
of clusters and of nodes. -/
theorem rankLoops_end (manager : NodeManager)
    (hchilds : ∀ x ∈ manager.nodes, ∀ y ∈ (manager.heap x).childs, y ∈ manager.nodes)
    (hfresh : ∀ x ∈ manager.nodes, (manager.heap x).inClusterRank = Rank.zero)
    (hsize : manager.nodes.length < u64Size) :
    ((∀ fuel ≥ manager.maxId + 1, ∃ ranked, manager.generateClusterRanks fuel = some ranked ∧
        (∀ c ∈ manager.clustersInUse, ranked.clusterRank c < manager.clustersInUse.card) ∧
        ∀ c ∉ manager.clustersInUse, ranked.clusterRank c = 0) ∧
      ∀ fuel, TreatsOnce (childsOf manager.clusterLinks) fuel manager.clusterStart) ∧
    (∀ fuel ≥ manager.nodes.length, ∃ ranked, manager.generateInClusterRanks fuel = some ranked ∧
        ∀ x ∈ manager.nodes, (ranked.heap x).inClusterRank.value < manager.nodes.length) ∧
      ∀ fuel, TreatsOnce (childsOf manager.inClusterLinks) fuel manager.inClusterStart := by
  have hinner : ∀ x ∈ manager.nodes, ∀ y ∈ (manager.heap x).childs,
      (manager.heap x).clusterId = (manager.heap y).clusterId → y ∈ manager.nodes :=
    fun x hx y hy _ => hchilds x hx y hy
  refine ⟨⟨fun fuel hfuel => ?_, ?_⟩, fun fuel hfuel => ?_, ?_⟩
  · obtain ⟨ranked, hranked, -, -, hrank⟩ := exists_generateClusterRanks hchilds hsize hfuel
    refine ⟨ranked, hranked, fun c hc => ?_, fun c hc => ?_⟩
    · have hchain := (Layering.le_rank_iff_chain (fun c n => hrank c n) _ c).mp le_rfl
      exact hchain.lt_card manager.clustersInUse (fun _ _ h => (clusterLinks_inUse hchilds h).1)
        (fun _ h => h) hc
    · by_contra hne
      obtain ⟨d, -, hlink, -⟩ := (hrank c 0).mp (Nat.pos_of_ne_zero hne)
      exact hc (clusterLinks_inUse hchilds hlink).2
  · exact (sweep_clusterStart hchilds).treatsOnce (card_linked_clusterLinks_lt hchilds hsize)
  · obtain ⟨ranked, hranked, -, -, -, hrank⟩ :=
      exists_generateInClusterRanks hinner hfresh hsize hfuel
    refine ⟨ranked, hranked, fun x hx => ?_⟩
    have hchain := (hrank x hx _).mp le_rfl
    have hlt := hchain.lt_card manager.nodes.toFinset (fun _ _ h => List.mem_toFinset.mpr h.1)
      (fun _ h => h) (List.mem_toFinset.mpr hx)
    exact hlt.trans_le (List.toFinset_card_le _)
  · exact (sweep_inClusterStart hinner hfresh).treatsOnce
      ((card_linked_inClusterLinks_le hinner).trans_lt hsize)

theorem rankLoops_end_chainedCluster :
    (∀ x ∈ chainedCluster.nodes, ∀ y ∈ (chainedCluster.heap x).childs, y ∈ chainedCluster.nodes) ∧
    (∀ x ∈ chainedCluster.nodes, (chainedCluster.heap x).inClusterRank = Rank.zero) ∧
    chainedCluster.nodes.length < u64Size ∧
    ∀ fuel, TreatsOnce (childsOf chainedCluster.clusterLinks) fuel chainedCluster.clusterStart := by
  have hchilds : ∀ x ∈ chainedCluster.nodes, ∀ y ∈ (chainedCluster.heap x).childs,
      y ∈ chainedCluster.nodes := by decide
  have hfresh : ∀ x ∈ chainedCluster.nodes,
      (chainedCluster.heap x).inClusterRank = Rank.zero := by decide
  have hsize : chainedCluster.nodes.length < u64Size := by decide
  exact ⟨hchilds, hfresh, hsize, (rankLoops_end chainedCluster hchilds hfresh hsize).1.2⟩

end NodeManager

end Prf
