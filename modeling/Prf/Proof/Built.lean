import Prf.Evaluation
import Prf.Proof.InClusterRanks
import Prf.Proof.Scheduling
import Prf.Proof.Written

/-!
# What the build makes of a written program

The build of a program that was accepted ends, and the values are a `Graph` from then on: the
`listners` are exact, no loop leaves its cluster, exactly the sinks are unmanaged, and the ranks in a
cluster go up along its links. The order in which the values were made is one to evaluate them in.
-/

namespace Prf

open Relation

namespace NodeManager

variable {manager built : NodeManager}

/-! ## The build of fresh nodes -/

/-- What `build` turns fresh nodes into. -/
structure BuildsInto (manager built : NodeManager) : Prop where
  nodes : built.nodes = manager.nodes
  childs : ∀ x, (built.heap x).childs = (manager.heap x).childs
  same : ∀ x ∈ manager.nodes, ∀ y ∈ manager.nodes,
    (built.heap x).clusterId = (built.heap y).clusterId ↔ EqvGen manager.Together x y
  sinks : ∀ x ∈ manager.nodes, (manager.heap x).clusterId = 0 → (built.heap x).clusterId = 0
  inClusterRank : ∀ x ∈ manager.nodes, ∀ n, n ≤ (built.heap x).inClusterRank.value ↔
    Layering.Chain (Program.InnerLink built) (Layering.Grounded (Program.InnerLink built)) n x

theorem childs_generateInClusterRanks {fuel : ℕ} {ranked : NodeManager}
    (h : manager.generateInClusterRanks fuel = some ranked) (x : ℕ) :
    (ranked.heap x).childs = (manager.heap x).childs := by
  obtain ⟨ranks, -, rfl⟩ := Option.map_eq_some_iff.mp h
  simp only [foldl_setInClusterRank fun node => ranks (manager.node2u64 node)]
  split <;> rfl

theorem exists_buildsInto (hreg : manager.LinksRegistered)
    (hfresh : ∀ x ∈ manager.nodes, (manager.heap x).inClusterRank = Rank.zero)
    (hne : manager.nodes ≠ []) (hnew : manager.alreadyBuild = false)
    (hsize : manager.nodes.length < u64Size) :
    ∃ rounds, ∀ fuel ≥ rounds, ∃ built, manager.build fuel = some (.ok built) ∧
      manager.BuildsInto built := by
  let start : NodeManager := { manager with alreadyBuild := true }
  have hstart : start.LinksRegistered := ⟨hreg.childs, hreg.sameClusters⟩
  obtain ⟨split, hsplit, hinto⟩ := exists_splitInto hstart
  have hnodes : split.nodes = manager.nodes := hinto.nodes
  have hlinks := hinto.linksRegistered hstart
  have hlength : split.nodes.length < u64Size := hnodes ▸ hsize
  refine ⟨max (split.maxId + 1) split.nodes.length, fun fuel hfuel => ?_⟩
  obtain ⟨ranked, hranked, hheap, hrnodes, -⟩ :=
    exists_generateClusterRanks hlinks.childs hlength (le_of_max_le_left hfuel)
  have hchilds : ∀ x ∈ ranked.nodes, ∀ y ∈ (ranked.heap x).childs,
      (ranked.heap x).clusterId = (ranked.heap y).clusterId → y ∈ ranked.nodes := by
    intro x hx y hy _
    rw [hrnodes] at hx ⊢
    exact hlinks.childs x hx y (hheap ▸ hy)
  have hrfresh : ∀ x ∈ ranked.nodes, (ranked.heap x).inClusterRank = Rank.zero := by
    intro x hx
    rw [hrnodes, hnodes] at hx
    rw [hheap, hinto.heap]
    exact hfresh x hx
  obtain ⟨built, hbuilt, hbnodes, -, hbid, hbrank⟩ := exists_generateInClusterRanks hchilds hrfresh
    (hrnodes ▸ hlength) (hrnodes ▸ le_of_max_le_right hfuel)
  have hbchilds := childs_generateInClusterRanks hbuilt
  have hid : ∀ x, (built.heap x).clusterId = (split.heap x).clusterId := fun x => by
    rw [hbid, hheap]
  have hinner : Program.InnerLink ranked = Program.InnerLink built := by
    funext x y
    simp only [Program.InnerLink, hbnodes, hbchilds, hbid]
  refine ⟨built, ?_, hbnodes.trans (hrnodes.trans hnodes), fun x => ?_, fun x hx y hy => ?_,
    fun x hx hzero => ?_, fun x hx n => ?_⟩
  · simp only [build, hne, if_false, hnew]
    simp [start, hsplit, hranked, hbuilt]
  · rw [hbchilds, hheap, hinto.heap]
  · rw [hid, hid]
    exact hinto.same x hx y hy
  · rw [hid]
    exact hinto.sinks x hx hzero
  · rw [hbrank x (hrnodes ▸ hnodes ▸ hx), hinner]

theorem rankLoop_mono {childs : ℕ → Finset ℕ} {fuel fuel' : ℕ} (hle : fuel ≤ fuel')
    {state : RankState} {ranks : ℕ → Rank} (h : rankLoop childs fuel state = some ranks) :
    rankLoop childs fuel' state = some ranks := by
  induction fuel generalizing fuel' state with
  | zero =>
      cases hupdates : state.updates with
      | nil => rwa [rankLoop_nil hupdates] at h ⊢
      | cons u rest => simp [rankLoop, hupdates] at h
  | succ fuel ih =>
      obtain ⟨fuel', rfl⟩ := Nat.exists_eq_add_of_le' (Nat.one_le_of_lt hle)
      cases hupdates : state.updates with
      | nil => rwa [rankLoop_nil hupdates] at h ⊢
      | cons u rest =>
          rw [rankLoop_cons hupdates] at h ⊢
          exact ih (Nat.le_of_succ_le_succ hle) h

theorem build_mono {fuel fuel' : ℕ} (hle : fuel ≤ fuel')
    (h : manager.build fuel = some (.ok built)) : manager.build fuel' = some (.ok built) := by
  simp only [build] at h ⊢
  split at h
  · cases h
  split at h
  · cases h
  rename_i hne hnew
  rw [if_neg hne, if_neg hnew]
  simp only [Option.bind_eq_bind, Option.bind_eq_some_iff] at h ⊢
  obtain ⟨split, hsplit, ranked, hranked, last, hlast, h⟩ := h
  obtain ⟨ranks, hloop, hranks⟩ := Option.map_eq_some_iff.mp hranked
  obtain ⟨inRanks, hinLoop, hinRanks⟩ := Option.map_eq_some_iff.mp hlast
  refine ⟨split, hsplit, ranked, ?_, last, ?_, h⟩
  · exact Option.map_eq_some_iff.mpr ⟨ranks, rankLoop_mono hle hloop, hranks⟩
  · exact Option.map_eq_some_iff.mpr ⟨inRanks, rankLoop_mono hle hinLoop, hinRanks⟩

namespace BuildsInto

variable {x y : ℕ}

theorem inClusterRank_lt (h : manager.BuildsInto built)
    (hacyclic : ∀ x, ¬ TransGen (Program.InnerLink built) x x)
    (hlink : Program.InnerLink built x y) (hy : y ∈ manager.nodes) :
    (built.heap x).inClusterRank.value < (built.heap y).inClusterRank.value := by
  have hx : x ∈ manager.nodes := h.nodes ▸ hlink.1
  have hchain := (h.inClusterRank x hx _).mp le_rfl
  exact (h.inClusterRank y hy _).mpr ⟨x, fun u _ => hacyclic u, hlink, hchain⟩

/-- A sink keeps all other nodes out of the unmanaged cluster. -/
theorem clusterId_eq_zero_iff (h : manager.BuildsInto built) (hreg : manager.Registered)
    (hsink : ∃ sink ∈ manager.nodes, (manager.heap sink).clusterId = 0) (hx : x ∈ manager.nodes) :
    (built.heap x).clusterId = 0 ↔ (manager.heap x).clusterId = 0 := by
  obtain ⟨sink, hmem, hzero⟩ := hsink
  refine ⟨fun hid => ?_, h.sinks x hx⟩
  have hsame := (h.same x hx sink hmem).mp (hid.trans (h.sinks sink hmem hzero).symm)
  exact (clusterId_eq_of_eqvGen hreg hsame).trans hzero

end BuildsInto

end NodeManager

namespace Source

variable {V : Type} {s : Source V} {built : NodeManager}

namespace Faithful

theorem exists_built (h : s.Faithful) (hne : s.nodes ≠ []) (hsize : s.nodes.length < u64Size) :
    ∃ rounds, ∀ fuel ≥ rounds, ∃ built, s.program.manager.build fuel = some (.ok built) ∧
      s.program.manager.BuildsInto built :=
  NodeManager.exists_buildsInto h.ordered.registered.linksRegistered h.fresh hne h.unbuilt hsize

theorem buildsInto (h : s.Faithful) (hsize : s.nodes.length < u64Size) {fuel : ℕ}
    (hbuild : s.program.manager.build fuel = some (.ok built)) :
    s.program.manager.BuildsInto built := by
  have hne : s.nodes ≠ [] := by
    intro hnil
    rw [nodes] at hnil
    simp [NodeManager.build, hnil] at hbuild
  obtain ⟨rounds, hrounds⟩ := h.exists_built hne hsize
  obtain ⟨built', hbuild', hinto⟩ := hrounds (max fuel rounds) (le_max_right ..)
  have heq := (NodeManager.build_mono (le_max_left fuel rounds) hbuild).symm.trans hbuild'
  obtain rfl := Except.ok.inj (Option.some.inj heq)
  exact hinto

theorem innerLink_acyclic (h : s.Faithful) (hbuilt : s.program.manager.BuildsInto built) (x : ℕ) :
    ¬ TransGen (Program.InnerLink built) x x := by
  refine Layering.acyclic_of_lt (s.nodes.idxOf ·) (fun x y hlink => ?_) x
  obtain ⟨hx, hy, -⟩ := hlink
  rw [hbuilt.nodes] at hx
  rw [hbuilt.childs] at hy
  exact (h.ordered.childs x hx y hy).2.2

theorem loop_cluster (h : s.Faithful) (hbuilt : s.program.manager.BuildsInto built) {x y : ℕ}
    (hy : y ∈ s.nodes) (hx : x ∈ (s.primitive y).listenOverLoop) :
    (built.heap x).clusterId = (built.heap y).clusterId := by
  have hmem := h.operands y hy x (Primitive.listenOverLoop_subset_reads _ hx)
  refine (hbuilt.same x hmem y hy).mpr (.rel _ _ ⟨hmem, hy, .inr (.inl ?_)⟩)
  exact h.loops y hy x hx

end Faithful

/-! ## The values as a graph -/

/-- The value at the address, or `default` if there is none. -/
def value (s : Source V) (default : {x // x ∈ s.nodes}) (address : ℕ) : {x // x ∈ s.nodes} :=
  if h : address ∈ s.nodes then ⟨address, h⟩ else default

theorem val_value {default : {x // x ∈ s.nodes}} {address : ℕ} (h : address ∈ s.nodes) :
    (s.value default address).val = address := by
  rw [value, dif_pos h]

theorem mem_map_value {default : {x // x ∈ s.nodes}} {l : List ℕ} (hl : ∀ x ∈ l, x ∈ s.nodes)
    (x : {x // x ∈ s.nodes}) : x ∈ l.map (s.value default) ↔ x.val ∈ l := by
  rw [List.mem_map]
  constructor
  · rintro ⟨address, haddress, rfl⟩
    rwa [val_value (hl address haddress)]
  · exact fun hx => ⟨x.val, hx, Subtype.ext (val_value x.property)⟩

/-- The graph of a program that has been built. The values are at addresses of their own. -/
def Faithful.graph (h : s.Faithful) (hbuilt : s.program.manager.BuildsInto built)
    (addr : {x // x ∈ s.nodes} → ℕ) (addr_injective : ∀ x y, addr x = addr y → x = y) :
    Graph {x // x ∈ s.nodes} V where
  nodes := s.nodes.attach
  primitive x := (s.primitive x).map (s.value x)
  addr := addr
  clusterId x := (built.heap x).clusterId
  inClusterRank x := (built.heap x).inClusterRank
  clusterRanks c := built.clusterRanks[c]?.getD Rank.zero
  listners x := (s.program.listners x).map (s.value x)
  listeners x := s.listeners x
  nodes_nodup := List.nodup_attach.mpr s.program.manager.nodes_nodup
  mem_nodes x := List.mem_attach _ x
  addr_injective := addr_injective
  mem_listners x y := by
    have hlistners := h.listners x x.property
    have hlistens : ∀ a ∈ (s.primitive y).listens, a ∈ s.nodes := fun a ha =>
      h.operands y y.property a (Primitive.listens_subset_reads _ ha)
    rw [mem_map_value (fun a ha => ((hlistners a).mp ha).1), hlistners, Primitive.listens_map,
      mem_map_value hlistens]
    exact and_iff_right y.property
  loop_cluster x y hx := by
    have hloops : ∀ a ∈ (s.primitive y).listenOverLoop, a ∈ s.nodes := fun a ha =>
      h.operands y y.property a (Primitive.listenOverLoop_subset_reads _ ha)
    rw [Primitive.listenOverLoop_map, mem_map_value hloops] at hx
    exact h.loop_cluster hbuilt y.property hx

theorem Faithful.describes_graph (h : s.Faithful) (hbuilt : s.program.manager.BuildsInto built)
    (addr : {x // x ∈ s.nodes} → ℕ) (addr_injective : ∀ x y, addr x = addr y → x = y) :
    s.Describes built Subtype.val (h.graph hbuilt addr addr_injective) where
  nodes := List.attach_map_subtype_val _
  primitive x := Primitive.map_map_of_reads _ fun a ha =>
    val_value (h.operands x x.property a ha)
  listners x := by
    have hval : ∀ a ∈ s.program.listners x, (s.value x a).val = a := fun a ha =>
      val_value ((h.listners x x.property a).mp ha).1
    simp only [graph, List.map_map]
    exact (List.map_congr_left hval).trans (List.map_id _)
  listeners _ := rfl
  clusterId _ := rfl
  inClusterRank _ := rfl
  clusterRanks _ := rfl

namespace Describes

variable {ι : Type} {node : ι → ℕ} {G : Graph ι V} {x y : ι}

theorem node_injective (h : s.Describes built node G) : Function.Injective node := by
  have hnodup : (G.nodes.map node).Nodup := h.nodes ▸ s.program.manager.nodes_nodup
  intro x y heq
  exact List.inj_on_of_nodup_map hnodup (G.mem_nodes x) (G.mem_nodes y) heq

theorem node_mem (h : s.Describes built node G) (x : ι) : node x ∈ s.nodes :=
  h.nodes ▸ List.mem_map_of_mem (G.mem_nodes x)

theorem linkedTo_iff (h : s.Describes built node G) (hs : s.Faithful) :
    G.LinkedTo x y ↔ node y ∈ (s.program.manager.heap (node x)).childs := by
  rw [hs.childs _ (h.node_mem x), and_iff_right (h.node_mem y), ← h.primitive,
    Primitive.links_map, List.mem_map_of_injective h.node_injective]
  rfl

theorem isLoop_eq (h : s.Describes built node G) (x : ι) :
    (G.primitive x).isLoop = (s.primitive (node x)).isLoop := by
  rw [← h.primitive, Primitive.isLoop_map]

theorem isSink_eq (h : s.Describes built node G) (x : ι) :
    (G.primitive x).isSink = (s.primitive (node x)).isSink := by
  rw [← h.primitive, Primitive.isSink_map]

theorem clusterRank_eq (h : s.Describes built node G) (x : ι) :
    (G.clusterRanks (G.clusterId x)).value = built.clusterRank (built.heap (node x)).clusterId := by
  rw [h.clusterRanks, h.clusterId, NodeManager.clusterRank]

theorem unmanaged_iff (h : s.Describes built node G) (hs : s.Faithful)
    (hbuilt : s.program.manager.BuildsInto built) (hsink : ∃ x, (G.primitive x).isSink) (x : ι) :
    G.clusterId x = unmanagedClusterId ↔ (G.primitive x).isSink := by
  obtain ⟨sink, hsink⟩ := hsink
  rw [h.isSink_eq] at hsink ⊢
  rw [hs.sinks _ (h.node_mem sink)] at hsink
  rw [hs.sinks _ (h.node_mem x), h.clusterId]
  exact hbuilt.clusterId_eq_zero_iff hs.ordered.registered ⟨_, h.node_mem sink, hsink⟩ (h.node_mem x)

theorem inClusterRank_lt (h : s.Describes built node G) (hs : s.Faithful)
    (hbuilt : s.program.manager.BuildsInto built) (hlink : G.LinkedTo x y)
    (hcluster : G.clusterId x = G.clusterId y) :
    (G.inClusterRank x).value < (G.inClusterRank y).value := by
  rw [h.clusterId, h.clusterId] at hcluster
  rw [h.linkedTo_iff hs, ← hbuilt.childs] at hlink
  rw [h.inClusterRank, h.inClusterRank]
  have hin : node x ∈ built.nodes := hbuilt.nodes ▸ h.node_mem x
  exact hbuilt.inClusterRank_lt (hs.innerLink_acyclic hbuilt) ⟨hin, hlink, hcluster⟩ (h.node_mem y)

theorem clusterRank_lt (h : s.Describes built node G) (hs : s.Faithful)
    (hbuilt : s.program.manager.BuildsInto built) (hranks : built.RanksIncrease)
    (hlink : G.LinkedTo x y) (hcluster : G.clusterId x ≠ G.clusterId y) :
    (G.clusterRanks (G.clusterId x)).value < (G.clusterRanks (G.clusterId y)).value := by
  rw [h.clusterId, h.clusterId] at hcluster
  rw [h.linkedTo_iff hs, ← hbuilt.childs] at hlink
  rw [h.clusterRank_eq, h.clusterRank_eq]
  exact hranks _ (hbuilt.nodes ▸ h.node_mem x) _ hlink hcluster

theorem exists_node (h : s.Describes built node G) {a : ℕ} (ha : a ∈ s.nodes) : ∃ x, node x = a := by
  rw [← h.nodes] at ha
  obtain ⟨x, -, hx⟩ := List.mem_map.mp ha
  exact ⟨x, hx⟩

/-- Of what the evaluation needs, only the ranks of the clusters are left open by the build. -/
theorem layered_iff (h : s.Describes built node G) (hs : s.Faithful)
    (hbuilt : s.program.manager.BuildsInto built) (hloop : ∀ x, (G.primitive x).isLoop = false)
    (hsink : ∃ x, (G.primitive x).isSink) : G.Layered ↔ built.RanksIncrease := by
  constructor
  · intro hlayered a ha b hb hne
    rw [hbuilt.nodes] at ha
    rw [hbuilt.childs] at hb
    obtain ⟨x, rfl⟩ := h.exists_node ha
    obtain ⟨y, rfl⟩ := h.exists_node (hs.ordered.childs _ ha b hb).1
    have hlt := hlayered.clusterRank_lt x y ((h.linkedTo_iff hs).mpr hb)
    rw [h.clusterRank_eq, h.clusterRank_eq, h.clusterId, h.clusterId] at hlt
    exact hlt hne
  · intro hranks
    exact ⟨hloop, fun x hx => (h.unmanaged_iff hs hbuilt hsink x).mp hx,
      fun _ _ => h.clusterRank_lt hs hbuilt hranks, fun _ _ => h.inClusterRank_lt hs hbuilt⟩

/-- A value is made after those it is linked to. -/
theorem enumerates (h : s.Describes built node G) (hs : s.Faithful) :
    Dataflow.Enumerates G.LinkedTo G.nodes where
  mem := G.mem_nodes
  nodup := G.nodes_nodup
  sorted := by
    rw [List.pairwise_iff_getElem]
    intro i j hi hj hij hlink
    have hidx : ∀ k (hk : k < G.nodes.length), s.nodes.idxOf (node G.nodes[k]) = k := by
      intro k hk
      have hlength : k < s.nodes.length := by simpa [← h.nodes] using hk
      have hget : node G.nodes[k] = s.nodes[k] := by simp [← h.nodes]
      rw [hget]
      exact s.program.manager.nodes_nodup.idxOf_getElem k hlength
    obtain ⟨-, -, hlt⟩ := hs.ordered.childs _ (h.node_mem _) _ ((h.linkedTo_iff hs).mp hlink)
    have hlt : s.nodes.idxOf (node G.nodes[j]) < s.nodes.idxOf (node G.nodes[i]) := hlt
    rw [hidx j hj, hidx i hi] at hlt
    exact lt_asymm hij hlt

end Describes

/-- Whatever user code calls, as long as nothing is refused: the nodes mirror the values, the build
ends, and wherever the values are in memory they are a graph. The order in which they were made is one
to evaluate them in, ranks in a cluster go up, the sinks are kept apart if there are any, and without
loops it is layered exactly when the ranks of the clusters go up. -/
theorem run_builds {calls : List (Call V)} (hrun : Source.start.run calls = some (.ok s))
    (hsize : s.nodes.length < u64Size) :
    s.Faithful ∧
      (s.nodes ≠ [] → ∃ rounds, ∀ fuel ≥ rounds, ∃ built,
        s.program.manager.build fuel = some (.ok built)) ∧
      ∀ fuel built, s.program.manager.build fuel = some (.ok built) →
        (∀ addr : {x // x ∈ s.nodes} → ℕ, Function.Injective addr →
          ∃ G : Graph {x // x ∈ s.nodes} V, G.addr = addr ∧ s.Describes built Subtype.val G) ∧
        ∀ (ι : Type) (node : ι → ℕ) (G : Graph ι V), s.Describes built node G →
          Dataflow.Enumerates G.LinkedTo G.nodes ∧
          (∀ x y, G.LinkedTo x y → G.clusterId x = G.clusterId y →
            (G.inClusterRank x).value < (G.inClusterRank y).value) ∧
          ((∃ x, (G.primitive x).isSink) →
            (∀ x, G.clusterId x = unmanagedClusterId ↔ (G.primitive x).isSink) ∧
            ((∀ x, (G.primitive x).isLoop = false) → (G.Layered ↔ built.RanksIncrease))) := by
  have hs : s.Faithful := faithful_start.run hrun
  refine ⟨hs, fun hne => ?_, fun fuel built hbuild => ?_⟩
  · obtain ⟨rounds, hrounds⟩ := hs.exists_built hne hsize
    exact ⟨rounds, fun fuel hfuel => (hrounds fuel hfuel).imp fun _ h => h.1⟩
  · have hbuilt := hs.buildsInto hsize hbuild
    refine ⟨fun addr haddr => ?_, fun ι node G h => ?_⟩
    · exact ⟨hs.graph hbuilt addr fun x y heq => haddr heq, rfl, hs.describes_graph hbuilt ..⟩
    · refine ⟨h.enumerates hs, fun x y => h.inClusterRank_lt hs hbuilt, fun hsink => ?_⟩
      exact ⟨h.unmanaged_iff hs hbuilt hsink, fun hloop => h.layered_iff hs hbuilt hloop hsink⟩

/-- A sink, a map of it in a cluster of its own, and a cell that holds what the map sends and is
listened to. -/
def mapInCluster : List (Call ℕ) :=
  [.make 0 .streamSink, .cluster "A", .make 1 (.streamMap (· + 1) 0), .close 0,
    .make 2 (.hold 0 1), .listen 2]

/-- The program these calls write. -/
def written : Source ℕ :=
  match Source.start.run mapInCluster with
  | some (.ok s) => s
  | _ => .start

theorem run_mapInCluster : Source.start.run mapInCluster = some (.ok written) := by
  rfl

/-- What the build makes of it. -/
def writtenBuilt : NodeManager :=
  match written.program.manager.build 4 with
  | some (.ok built) => built
  | _ => NodeManager.empty

theorem build_written : written.program.manager.build 4 = some (.ok writtenBuilt) := by
  have hok : (match written.program.manager.build 4 with
      | some (.ok _) => true
      | _ => false) = true := by decide +kernel
  rw [writtenBuilt]
  split at hok
  case h_1 built hbuilt => rw [hbuilt]
  case h_2 => cases hok

/-- The graph of its values. -/
def writtenGraph : Graph (Fin 3) ℕ :=
  { sinkMapHold with clusterRanks := fun c => ([0, 1, 2].map Rank.ofNat)[c]?.getD .zero }

theorem describes_writtenGraph : written.Describes writtenBuilt Fin.val writtenGraph where
  nodes := by decide +kernel
  primitive x := by fin_cases x <;> rfl
  listners := by decide +kernel
  listeners := by decide +kernel
  clusterId := by decide +kernel
  inClusterRank := by decide +kernel
  clusterRanks := by
    have hranks : writtenBuilt.clusterRanks = [0, 1, 2].map Rank.ofNat := by decide +kernel
    intro c
    rw [hranks]
    rfl

theorem run_builds_mapInCluster :
    written.nodes.length < u64Size ∧ written.Faithful ∧
      Dataflow.Enumerates writtenGraph.LinkedTo writtenGraph.nodes ∧
      (∀ x, writtenGraph.clusterId x = unmanagedClusterId ↔ (writtenGraph.primitive x).isSink) ∧
      (writtenGraph.Layered ↔ writtenBuilt.RanksIncrease) := by
  have hsize : written.nodes.length < u64Size := by decide +kernel
  obtain ⟨hs, -, hbuilt⟩ := run_builds run_mapInCluster hsize
  obtain ⟨-, hgraph⟩ := hbuilt 4 writtenBuilt build_written
  obtain ⟨horder, -, hsink⟩ := hgraph (Fin 3) Fin.val writtenGraph describes_writtenGraph
  obtain ⟨hunmanaged, hlayered⟩ := hsink ⟨0, rfl⟩
  exact ⟨hsize, hs, horder, hunmanaged, hlayered (by decide)⟩

end Source

end Prf
