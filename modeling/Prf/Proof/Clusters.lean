import Prf.Node
import Prf.Transaction

/-!
# What the build does to cluster ids

The union-find loops of `split_cluster_by_associates` generate one equivalence relation, and the
renumbering gives each class its own id. The repair at the end looks for a sink. Where there is
none, a class of other nodes keeps the id of the sinks.
-/

namespace Prf

namespace NodeManager

variable (manager : NodeManager)

/-- The links of the registered nodes stay among them, and a loop does not leave its cluster. -/
structure Registered : Prop where
  childs : ∀ x ∈ manager.nodes, ∀ c ∈ (manager.heap x).childs, c ∈ manager.nodes
  sameClusters : ∀ x ∈ manager.nodes, ∀ c ∈ (manager.heap x).sameClusters,
    c ∈ manager.nodes ∧ (manager.heap x).clusterId = (manager.heap c).clusterId

/-- All links and loop partners of the registered nodes are registered. -/
structure LinksRegistered : Prop where
  childs : ∀ x ∈ manager.nodes, ∀ c ∈ (manager.heap x).childs, c ∈ manager.nodes
  sameClusters : ∀ x ∈ manager.nodes, ∀ c ∈ (manager.heap x).sameClusters, c ∈ manager.nodes

variable {manager} in
theorem Registered.linksRegistered (h : manager.Registered) : manager.LinksRegistered :=
  ⟨h.childs, fun x hx c hc => (h.sameClusters x hx c hc).1⟩

/-- The pairs of nodes that have to come into one cluster. -/
def Together (x y : ℕ) : Prop :=
  x ∈ manager.nodes ∧ y ∈ manager.nodes ∧
    (y ∈ (manager.heap x).childs ∧ (manager.heap x).clusterId = (manager.heap y).clusterId ∨
      y ∈ (manager.heap x).sameClusters ∨
      (manager.heap x).clusterId = 0 ∧ (manager.heap y).clusterId = 0)

def Splits (uf : UnionFind) (R : ℕ → ℕ → Prop) : Prop :=
  uf.Represents {x | x ∈ manager.nodes} manager.node2u64 R

variable {manager} {uf : UnionFind} {R : ℕ → ℕ → Prop}

theorem splits_new : manager.Splits (UnionFind.new (numbering manager.nodes).size) fun _ _ => False :=
  UnionFind.represents_new (fun _ hx => numbering_lt hx) (numbering_injOn manager.nodes)

/-- The pairs the first loop adds for one node. -/
def ChildPair (manager : NodeManager) (parent x y : ℕ) : Prop :=
  ∃ child ∈ (manager.heap parent).childs,
    (manager.heap parent).clusterId = (manager.heap child).clusterId ∧ x = parent ∧ y = child

/-- The pairs the second loop adds for one node. -/
def SamePair (manager : NodeManager) (node x y : ℕ) : Prop :=
  ∃ other ∈ (manager.heap node).sameClusters, x = node ∧ y = other

/-- The pairs the loop over the sinks adds, once the first of them is `sink`. -/
def SinkPair (manager : NodeManager) (l : List ℕ) (sink x y : ℕ) : Prop :=
  x ∈ l ∧ (manager.heap x).clusterId = 0 ∧ y = sink

theorem splits_mergeChilds (hreg : manager.LinksRegistered) {parent : ℕ}
    (hparent : parent ∈ manager.nodes) (h : manager.Splits uf R) :
    ∃ uf', manager.mergeChilds uf parent = some uf' ∧
      manager.Splits uf' fun x y => R x y ∨ manager.ChildPair parent x y := by
  refine UnionFind.Represents.foldlM _ (fun child hchild uf R h => ?_) h
  by_cases hid : (manager.heap parent).clusterId = (manager.heap child).clusterId
  · obtain ⟨uf', hmerge, h'⟩ := h.merge hparent (hreg.childs parent hparent child hchild)
    refine ⟨uf', by simp [hid, hmerge], h'.of_iff fun x y => ?_⟩
    simp only [Gluing.Add, hid, true_and]
  · exact ⟨uf, by simp [hid], h.of_iff fun x y => by simp [hid]⟩

theorem splits_mergeSameClusters (hreg : manager.LinksRegistered) {node : ℕ}
    (hnode : node ∈ manager.nodes) (h : manager.Splits uf R) :
    ∃ uf', manager.mergeSameClusters uf node = some uf' ∧
      manager.Splits uf' fun x y => R x y ∨ manager.SamePair node x y := by
  refine UnionFind.Represents.foldlM _ (fun other hother uf R h => ?_) h
  exact h.merge hnode (hreg.sameClusters node hnode other hother)

theorem sinkPair_cons {n sink x y : ℕ} {l : List ℕ} (hid : (manager.heap n).clusterId ≠ 0) :
    manager.SinkPair l sink x y ↔ manager.SinkPair (n :: l) sink x y := by
  constructor
  · exact fun ⟨hx, hzero, hy⟩ => ⟨List.mem_cons_of_mem _ hx, hzero, hy⟩
  · rintro ⟨hx, hzero, hy⟩
    rcases List.mem_cons.mp hx with rfl | hx
    · exact absurd hzero hid
    · exact ⟨hx, hzero, hy⟩

theorem splits_mergeSink_some {sink : ℕ} (hsink : sink ∈ manager.nodes) (l : List ℕ)
    (hl : ∀ n ∈ l, n ∈ manager.nodes) (h : manager.Splits uf R) :
    ∃ uf', l.foldlM manager.mergeSink (some sink, uf) = some (some sink, uf') ∧
      manager.Splits uf' fun x y => R x y ∨ manager.SinkPair l sink x y := by
  induction l generalizing uf R with
  | nil => exact ⟨uf, rfl, h.of_iff fun x y => by simp [SinkPair]⟩
  | cons n l ih =>
      have hl' : ∀ n ∈ l, n ∈ manager.nodes := fun n' hn' => hl n' (by simp [hn'])
      by_cases hid : (manager.heap n).clusterId = 0
      · obtain ⟨uf₁, hmerge, h₁⟩ := h.merge (hl n (by simp)) hsink
        obtain ⟨uf₂, hfold, h₂⟩ := ih hl' h₁
        refine ⟨uf₂, by simp [List.foldlM_cons, mergeSink, hid, hmerge, hfold], ?_⟩
        refine h₂.of_iff fun x y => ?_
        simp only [Gluing.Add, SinkPair, List.mem_cons]
        constructor
        · rintro ((hxy | ⟨rfl, rfl⟩) | ⟨hx, hzero, hy⟩)
          · exact Or.inl hxy
          · exact Or.inr ⟨Or.inl rfl, hid, rfl⟩
          · exact Or.inr ⟨Or.inr hx, hzero, hy⟩
        · rintro (hxy | ⟨rfl | hx, hzero, hy⟩)
          · exact Or.inl (Or.inl hxy)
          · exact Or.inl (Or.inr ⟨rfl, hy⟩)
          · exact Or.inr ⟨hx, hzero, hy⟩
      · obtain ⟨uf₂, hfold, h₂⟩ := ih hl' h
        refine ⟨uf₂, by simp [List.foldlM_cons, mergeSink, hid, hfold], ?_⟩
        exact h₂.of_iff fun x y => or_congr_right (sinkPair_cons hid)

theorem splits_mergeSink (l : List ℕ) (hl : ∀ n ∈ l, n ∈ manager.nodes) (h : manager.Splits uf R) :
    (∀ n ∈ l, (manager.heap n).clusterId ≠ 0) ∧
        l.foldlM manager.mergeSink (none, uf) = some (none, uf) ∨
      ∃ sink ∈ l, (manager.heap sink).clusterId = 0 ∧
        ∃ uf', l.foldlM manager.mergeSink (none, uf) = some (some sink, uf') ∧
          manager.Splits uf' fun x y => R x y ∨ manager.SinkPair l sink x y := by
  induction l with
  | nil => exact Or.inl ⟨by simp, rfl⟩
  | cons n l ih =>
      have hl' : ∀ n ∈ l, n ∈ manager.nodes := fun n' hn' => hl n' (by simp [hn'])
      by_cases hid : (manager.heap n).clusterId = 0
      · obtain ⟨uf', hfold, h'⟩ := splits_mergeSink_some (hl n (by simp)) l hl' h
        refine Or.inr ⟨n, by simp, hid, uf', by simp [List.foldlM_cons, mergeSink, hid, hfold], ?_⟩
        obtain ⟨-, -, -, -, -, hin⟩ := id h'
        have hn : n ∈ manager.nodes := hl n (by simp)
        -- the sink itself is not merged with itself, which its class does not notice
        refine h'.congr ?_ ?_ ?_
        · rintro x y (hxy | ⟨hx, hzero, hy⟩)
          · exact .rel _ _ (Or.inl hxy)
          · exact .rel _ _ (Or.inr ⟨List.mem_cons_of_mem _ hx, hzero, hy⟩)
        · rintro x y (hxy | ⟨hx, hzero, rfl⟩)
          · exact .rel _ _ (Or.inl hxy)
          · rcases List.mem_cons.mp hx with rfl | hx
            · exact .refl _
            · exact .rel _ _ (Or.inr ⟨hx, hzero, rfl⟩)
        · rintro x y (hxy | ⟨hx, hzero, rfl⟩)
          · exact hin x y (Or.inl hxy)
          · exact ⟨hl x hx, hn⟩
      · rcases ih hl' with ⟨hnone, hfold⟩ | ⟨sink, hsink, hzero, uf', hfold, h'⟩
        · refine Or.inl ⟨?_, by simp [List.foldlM_cons, mergeSink, hid, hfold]⟩
          intro n' hn'
          rcases List.mem_cons.mp hn' with rfl | hn'
          · exact hid
          · exact hnone n' hn'
        · refine Or.inr ⟨sink, by simp [hsink], hzero, uf', ?_, ?_⟩
          · simp [List.foldlM_cons, mergeSink, hid, hfold]
          · exact h'.of_iff fun x y => or_congr_right (sinkPair_cons hid)

/-- The three merging loops together generate `Together`. -/
theorem splits_together (hreg : manager.LinksRegistered) :
    ∃ uf₁ uf₂ sinkNode uf₃,
      manager.nodes.foldlM manager.mergeChilds (UnionFind.new (numbering manager.nodes).size) =
        some uf₁ ∧
      manager.nodes.foldlM manager.mergeSameClusters uf₁ = some uf₂ ∧
      manager.nodes.foldlM manager.mergeSink (none, uf₂) = some (sinkNode, uf₃) ∧
      manager.Splits uf₃ manager.Together ∧
      (sinkNode = none → ∀ n ∈ manager.nodes, (manager.heap n).clusterId ≠ 0) ∧
      ∀ sink, sinkNode = some sink → sink ∈ manager.nodes ∧ (manager.heap sink).clusterId = 0 := by
  obtain ⟨uf₁, hfold₁, h₁⟩ := UnionFind.Represents.foldlM (P := manager.ChildPair) manager.nodes
    (fun n hn uf R h => splits_mergeChilds hreg hn h) splits_new
  obtain ⟨uf₂, hfold₂, h₂⟩ := UnionFind.Represents.foldlM (P := manager.SamePair) manager.nodes
    (fun n hn uf R h => splits_mergeSameClusters hreg hn h) h₁
  have hin : ∀ x y, manager.Together x y → x ∈ manager.nodes ∧ y ∈ manager.nodes :=
    fun x y h => ⟨h.1, h.2.1⟩
  rcases splits_mergeSink manager.nodes (fun n hn => hn) h₂ with
    ⟨hnone, hfold₃⟩ | ⟨sink, hsink, hzero, uf₃, hfold₃, h₃⟩
  · refine ⟨uf₁, uf₂, none, uf₂, hfold₁, hfold₂, hfold₃, ?_, fun _ => hnone, by simp⟩
    refine h₂.congr ?_ ?_ hin
    · rintro x y ((h | ⟨_, hp, _, hc, hid, rfl, rfl⟩) | ⟨_, hn, _, ho, rfl, rfl⟩)
      · exact h.elim
      · exact .rel _ _ ⟨hp, hreg.childs _ hp _ hc, Or.inl ⟨hc, hid⟩⟩
      · exact .rel _ _ ⟨hn, hreg.sameClusters _ hn _ ho, Or.inr (Or.inl ho)⟩
    · rintro x y ⟨hx, hy, ⟨hc, hid⟩ | ho | ⟨hzero, -⟩⟩
      · exact .rel _ _ (Or.inl (Or.inr ⟨x, hx, y, hc, hid, rfl, rfl⟩))
      · exact .rel _ _ (Or.inr ⟨x, hx, y, ho, rfl, rfl⟩)
      · exact absurd hzero (hnone x hx)
  · refine ⟨uf₁, uf₂, some sink, uf₃, hfold₁, hfold₂, hfold₃, ?_, by simp, ?_⟩
    · refine h₃.congr ?_ ?_ hin
      · rintro x y (((h | ⟨_, hp, _, hc, hid, rfl, rfl⟩) | ⟨_, hn, _, ho, rfl, rfl⟩) |
          ⟨hx, hx0, rfl⟩)
        · exact h.elim
        · exact .rel _ _ ⟨hp, hreg.childs _ hp _ hc, Or.inl ⟨hc, hid⟩⟩
        · exact .rel _ _ ⟨hn, hreg.sameClusters _ hn _ ho, Or.inr (Or.inl ho)⟩
        · exact .rel _ _ ⟨hx, hsink, Or.inr (Or.inr ⟨hx0, hzero⟩)⟩
      · rintro x y ⟨hx, hy, ⟨hc, hid⟩ | ho | ⟨hx0, hy0⟩⟩
        · exact .rel _ _ (Or.inl (Or.inl (Or.inr ⟨x, hx, y, hc, hid, rfl, rfl⟩)))
        · exact .rel _ _ (Or.inl (Or.inr ⟨x, hx, y, ho, rfl, rfl⟩))
        · exact .trans _ _ _ (.rel _ _ (Or.inr ⟨hx, hx0, rfl⟩))
            (.symm _ _ (.rel _ _ (Or.inr ⟨hy, hy0, rfl⟩)))
    · rintro _ ⟨⟩
      exact ⟨hsink, hzero⟩

/-! ### The renumbering -/

/-- What `split_cluster_by_associates` leaves: only cluster ids have changed, two nodes share one
exactly when they had to come together, the ids are counted from 0, and every sink has id 0. -/
structure SplitInto (manager manager' : NodeManager) : Prop where
  nodes : manager'.nodes = manager.nodes
  heap : ∀ x, manager'.heap x =
    { manager.heap x with clusterId := (manager'.heap x).clusterId }
  same : ∀ x ∈ manager.nodes, ∀ y ∈ manager.nodes,
    (manager'.heap x).clusterId = (manager'.heap y).clusterId ↔
      Relation.EqvGen manager.Together x y
  counted : ∃ count, ∀ n, (∃ x ∈ manager.nodes, (manager'.heap x).clusterId = n) ↔ n < count
  sinks : ∀ x ∈ manager.nodes, (manager.heap x).clusterId = 0 → (manager'.heap x).clusterId = 0

theorem foldlM_pushParent {root depth : ℕ → ℕ} (h : UnionFind.Forest uf.parents root depth)
    (l : List (ℕ × ℕ)) (hl : ∀ i ∈ l, i.2 < uf.size) (acc : List ℕ) :
    ∃ uf', l.foldlM pushParent (acc, uf) = some (acc ++ l.map (fun i => root i.2), uf') ∧
      UnionFind.Forest uf'.parents root depth ∧ uf'.size = uf.size := by
  induction l generalizing uf acc with
  | nil => exact ⟨uf, by simp [List.foldlM_nil], h, rfl⟩
  | cons i l ih =>
      obtain ⟨uf₁, hget, h₁, hsize₁⟩ := UnionFind.forest_getParent h (hl i (by simp))
      obtain ⟨uf₂, hfold, h₂, hsize₂⟩ :=
        ih h₁ (fun i' hi' => hsize₁ ▸ hl i' (by simp [hi'])) (acc ++ [root i.2])
      refine ⟨uf₂, ?_, h₂, hsize₂.trans hsize₁⟩
      simp [List.foldlM_cons, pushParent, hget, hfold]

theorem foldlM_renumber {root depth : ℕ → ℕ} (h : UnionFind.Forest uf.parents root depth)
    (ids : Map ℕ) (l : List ℕ) (hl : ∀ n ∈ l, manager.node2u64 n < uf.size) (heap : Heap)
    (names : Map String) :
    ∃ uf' heap' names', l.foldlM (manager.renumber ids) (uf, heap, names) =
        some (uf', heap', names') ∧
      ∀ x, heap' x = if x ∈ l then
          { heap x with clusterId := ids[root (manager.node2u64 x)]?.getD 0 }
        else heap x := by
  induction l generalizing uf heap names with
  | nil => exact ⟨uf, heap, names, rfl, fun x => by simp⟩
  | cons n l ih =>
      obtain ⟨uf₁, hget, h₁, hsize₁⟩ := UnionFind.forest_getParent h (hl n (by simp))
      obtain ⟨uf₂, heap', names', hfold, hheap⟩ := ih h₁
        (fun n' hn' => hsize₁ ▸ hl n' (by simp [hn']))
        (heap.setClusterId n (ids[root (manager.node2u64 n)]?.getD 0))
        (names.insert (ids[root (manager.node2u64 n)]?.getD 0)
          (if manager.clusterNames[(heap n).clusterId]?.getD "" = "" then "NO_NAME"
            else manager.clusterNames[(heap n).clusterId]?.getD ""))
      refine ⟨uf₂, heap', names', ?_, fun x => ?_⟩
      · simp only [List.foldlM_cons, renumber, hget, Option.map_some]
        exact hfold
      · rw [hheap x]
        by_cases hx : x = n
        · subst hx
          by_cases hxl : x ∈ l <;> simp [hxl, Heap.setClusterId]
        · simp [hx, Heap.setClusterId, Function.update_of_ne]

theorem foldl_swapClusterId (sinkId : ID) (l : List ℕ) (hl : l.Nodup) (heap : Heap) (x : ℕ) :
    l.foldl (swapClusterId sinkId) heap x =
      if x ∈ l then
        { heap x with clusterId := Equiv.swap sinkId 0 (heap x).clusterId }
      else heap x := by
  induction l generalizing heap with
  | nil => simp
  | cons n l ih =>
      obtain ⟨hn, hl⟩ := List.nodup_cons.mp hl
      rw [List.foldl_cons, ih hl]
      by_cases hx : x = n
      · subst hx
        simp [hn, swapClusterId, Heap.setClusterId, Equiv.swap_apply_def]
      · simp [hx, swapClusterId, Heap.setClusterId, Function.update_of_ne]

theorem repairSink_heap (manager : NodeManager) (sinkNode : Option ℕ) (heap : Heap) (names : Map String) :
    ∃ swap : Equiv.Perm ID,
      (∀ x, (manager.repairSink sinkNode heap names).1 x =
        if x ∈ manager.nodes then { heap x with clusterId := swap (heap x).clusterId }
        else heap x) ∧
      (∀ sink, sinkNode = some sink → swap (heap sink).clusterId = 0) ∧
      (swap = 1 ∨ ∃ sink, sinkNode = some sink ∧ swap = Equiv.swap (heap sink).clusterId 0) := by
  cases sinkNode with
  | none => exact ⟨1, fun x => by simp [repairSink], by simp, Or.inl rfl⟩
  | some sink =>
      by_cases hzero : (heap sink).clusterId = 0
      · exact ⟨1, fun x => by simp [repairSink, hzero], by simp [hzero], Or.inl rfl⟩
      · refine ⟨Equiv.swap (heap sink).clusterId 0, fun x => ?_, ?_, Or.inr ⟨sink, rfl, rfl⟩⟩
        · simp only [repairSink, hzero, if_false]
          exact foldl_swapClusterId _ _ manager.nodes_nodup heap x
        · rintro _ ⟨⟩
          exact Equiv.swap_apply_left _ _

theorem swap_lt_iff {a b count : ℕ} (ha : a < count) (hb : b < count) (n : ℕ) :
    Equiv.swap a b n < count ↔ n < count := by
  rw [Equiv.swap_apply_def]
  split
  · omega
  · split <;> omega

theorem clusterId_eq_of_eqvGen (hreg : manager.Registered) {x y : ℕ}
    (h : Relation.EqvGen manager.Together x y) :
    (manager.heap x).clusterId = (manager.heap y).clusterId := by
  refine Gluing.eq_of_eqvGen (f := fun x => (manager.heap x).clusterId) ?_ h
  rintro x y ⟨hx, -, ⟨-, hid⟩ | ho | ⟨hx0, hy0⟩⟩
  · exact hid
  · exact (hreg.sameClusters x hx y ho).2
  · exact hx0.trans hy0.symm

theorem exists_splitInto (hreg : manager.LinksRegistered) :
    ∃ manager', manager.splitClusterByAssociates = some manager' ∧
      manager.SplitInto manager' := by
  obtain ⟨uf₁, uf₂, sinkNode, uf₃, hfold₁, hfold₂, hfold₃, hsplit, hnone, hsome⟩ :=
    splits_together hreg
  obtain ⟨root, depth, hforest, hclass, hlt, -⟩ := hsplit
  have hentry : ∀ i ∈ (numbering manager.nodes).toList,
      i.1 ∈ manager.nodes ∧ i.2 = manager.node2u64 i.1 := fun i hi => mem_toList_numbering.mp hi
  obtain ⟨uf₄, hfold₄, hforest₄, hsize₄⟩ := foldlM_pushParent hforest
    (numbering manager.nodes).toList
    (fun i hi => (hentry i hi).2 ▸ hlt _ (hentry i hi).1) []
  let ids := numbering ((numbering manager.nodes).toList.map fun i => root i.2)
  have hroot : ∀ u, u ∈ ((numbering manager.nodes).toList.map fun i => root i.2) ↔
      ∃ x ∈ manager.nodes, root (manager.node2u64 x) = u := by
    intro u
    constructor
    · intro hu
      obtain ⟨i, hi, rfl⟩ := List.mem_map.mp hu
      exact ⟨i.1, (hentry i hi).1, by rw [(hentry i hi).2]⟩
    · rintro ⟨x, hx, rfl⟩
      exact List.mem_map.mpr ⟨(x, manager.node2u64 x), mem_toList_numbering.mpr ⟨hx, rfl⟩, rfl⟩
  obtain ⟨uf₅, heap₅, names₅, hfold₅, hheap₅⟩ := foldlM_renumber hforest₄ ids manager.nodes
    (fun n hn => hsize₄ ▸ hlt n hn) manager.heap ∅
  obtain ⟨swap, hheap, hswap, hkind⟩ := repairSink_heap manager sinkNode heap₅ names₅
  have hid : ∀ x ∈ manager.nodes, ((manager.repairSink sinkNode heap₅ names₅).1 x).clusterId =
      swap (ids[root (manager.node2u64 x)]?.getD 0) := by
    intro x hx
    rw [hheap, if_pos hx, hheap₅, if_pos hx]
  have hbound : ∀ n, swap n < ids.size ↔ n < ids.size := by
    rcases hkind with rfl | ⟨sink, hsink, rfl⟩
    · exact fun n => Iff.rfl
    · have hin := (hsome sink hsink).1
      have hlt : (heap₅ sink).clusterId < ids.size := by
        rw [hheap₅, if_pos hin]
        exact numbering_lt ((hroot _).mpr ⟨sink, hin, rfl⟩)
      exact swap_lt_iff hlt (Nat.zero_lt_of_lt hlt)
  refine ⟨{ manager with
    heap := (manager.repairSink sinkNode heap₅ names₅).1
    clusterNames := (manager.repairSink sinkNode heap₅ names₅).2 }, ?_, ?_⟩
  · rw [List.nil_append] at hfold₄
    simp only [splitClusterByAssociates, hfold₁, hfold₂, hfold₃, hfold₄, Option.bind_eq_bind,
      Option.bind_some, show manager.nodes.foldlM (manager.renumber (numbering _)) _ = _ from hfold₅]
    rfl
  · have hsame : ∀ x ∈ manager.nodes, ∀ y ∈ manager.nodes,
        ids[root (manager.node2u64 x)]?.getD 0 = ids[root (manager.node2u64 y)]?.getD 0 ↔
          Relation.EqvGen manager.Together x y := by
      intro x hx y hy
      rw [← hclass x hx y hy]
      exact ⟨fun h => numbering_injOn _ ((hroot _).mpr ⟨x, hx, rfl⟩) ((hroot _).mpr ⟨y, hy, rfl⟩) h,
        fun h => by simp only [Function.comp_apply] at h; rw [h]⟩
    constructor
    · rfl
    · intro x
      simp only [hheap x, hheap₅ x]
      split <;> rfl
    · intro x hx y hy
      simp only [hid x hx, hid y hy, swap.injective.eq_iff]
      exact hsame x hx y hy
    · refine ⟨ids.size, fun n => ⟨?_, fun hn => ?_⟩⟩
      · rintro ⟨x, hx, rfl⟩
        rw [hid x hx, hbound]
        exact numbering_lt ((hroot _).mpr ⟨x, hx, rfl⟩)
      · obtain ⟨u, hu, hun⟩ := exists_numbering_eq
          ((hbound (swap.symm n)).mp (by rwa [Equiv.apply_symm_apply]))
        obtain ⟨x, hx, rfl⟩ := (hroot u).mp hu
        exact ⟨x, hx, by rw [hid x hx, show ids[root (manager.node2u64 x)]?.getD 0 = _ from hun,
          Equiv.apply_symm_apply]⟩
    · intro x hx hx0
      cases hsink : sinkNode with
      | none => exact absurd hx0 (hnone hsink x hx)
      | some sink =>
          obtain ⟨hin, hsink0⟩ := hsome sink hsink
          have hxs : Relation.EqvGen manager.Together x sink :=
            .rel _ _ ⟨hx, hin, Or.inr (Or.inr ⟨hx0, hsink0⟩)⟩
          have hzero := hswap sink hsink
          rw [hheap₅, if_pos hin] at hzero
          rw [← hsink, hid x hx, (hsame x hx sink hin).mpr hxs]
          exact hzero

/-! ### The classes -/

/-- The equivalence that `Together` generates on the registered nodes. -/
def together (manager : NodeManager) : Setoid {x // x ∈ manager.nodes} :=
  (Relation.EqvGen.setoid manager.Together).comap Subtype.val

theorem SplitInto.card_together {manager' : NodeManager} (h : manager.SplitInto manager') (n : ℕ) :
    (∃ x ∈ manager.nodes, (manager'.heap x).clusterId = n) ↔
      n < Nat.card (Quotient manager.together) := by
  obtain ⟨count, hcount⟩ := h.counted
  let number : Quotient manager.together → Fin count :=
    Quotient.lift (fun x => ⟨(manager'.heap x.1).clusterId, (hcount _).mp ⟨x.1, x.2, rfl⟩⟩)
      fun x y hxy => Fin.ext ((h.same x.1 x.2 y.1 y.2).mpr hxy)
  have hbijective : Function.Bijective number := by
    constructor
    · rintro ⟨x⟩ ⟨y⟩ hxy
      exact Quotient.sound ((h.same x.1 x.2 y.1 y.2).mp (Fin.ext_iff.mp hxy))
    · intro i
      obtain ⟨x, hx, hid⟩ := (hcount i).mpr i.isLt
      exact ⟨Quotient.mk _ ⟨x, hx⟩, Fin.ext hid⟩
  rw [hcount n, Nat.card_eq_of_bijective number hbijective, Nat.card_fin]

/-- The clusters after the split are the classes of the generated equivalence, numbered from 0. -/
theorem split_classes (manager : NodeManager) (hreg : manager.LinksRegistered) :
    ∃ manager', manager.splitClusterByAssociates = some manager' ∧
      (∀ x ∈ manager.nodes, ∀ y ∈ manager.nodes,
        (manager'.heap x).clusterId = (manager'.heap y).clusterId ↔
          Relation.EqvGen manager.Together x y) ∧
      ∀ n, (∃ x ∈ manager.nodes, (manager'.heap x).clusterId = n) ↔
        n < Nat.card (Quotient manager.together) := by
  obtain ⟨manager', hsplit, hinto⟩ := exists_splitInto hreg
  exact ⟨manager', hsplit, hinto.same, hinto.card_together⟩

/-- Two sinks, a loop across two links of one cluster, and a node of its own. -/
def loopAndSinks : NodeManager :=
  { empty with
    heap := fun x =>
      if x = 0 then { Node.new 0 with childs := [2] }
      else if x = 2 then { Node.new 1 with sameClusters := [3] }
      else if x = 3 then { Node.new 1 with sameClusters := [2] }
      else if x = 4 then Node.new 1
      else Node.new 0
    nodes := [0, 1, 2, 3, 4]
    nodes_nodup := by decide }

theorem split_classes_loopAndSinks :
    loopAndSinks.LinksRegistered ∧
      ∃ manager', loopAndSinks.splitClusterByAssociates = some manager' ∧
        ((manager'.heap 2).clusterId = (manager'.heap 3).clusterId ↔
          Relation.EqvGen loopAndSinks.Together 2 3) := by
  have hreg : loopAndSinks.LinksRegistered := ⟨by decide, by decide⟩
  obtain ⟨manager', hsplit, hsame, -⟩ := split_classes loopAndSinks hreg
  exact ⟨hreg, manager', hsplit, hsame 2 (by decide) 3 (by decide)⟩

/-! ### The id of the sinks -/

/-- After the build exactly the nodes that had it before are in the unmanaged cluster. -/
def OnlySinksUnmanaged (manager manager' : NodeManager) : Prop :=
  ∀ x ∈ manager.nodes,
    (manager'.heap x).clusterId = unmanagedClusterId ↔
      (manager.heap x).clusterId = unmanagedClusterId

/-- Whatever graph has the cluster ids of the build, a transaction of a user thread leaves every
value that is no sink out of its own queue. -/
def TopLevelQueueless (manager manager' : NodeManager) : Prop :=
  ∀ (ι V : Type) [DecidableEq ι] (G : Graph ι V) (node : ι → ℕ),
    (∀ x, node x ∈ manager.nodes ∧ G.clusterId x = (manager'.heap (node x)).clusterId) →
    ∀ (t : InnerTransaction ι V) (x : ι), t.updatingCluster = unmanagedClusterId →
      (manager.heap (node x)).clusterId ≠ unmanagedClusterId →
      (G.registerUpdate t x).executor = t.executor

variable {manager' : NodeManager}

theorem SplitInto.onlySinksUnmanaged (h : manager.SplitInto manager') (hreg : manager.Registered)
    {sink : ℕ} (hsink : sink ∈ manager.nodes) (hzero : (manager.heap sink).clusterId = 0) :
    OnlySinksUnmanaged manager manager' := by
  intro x hx
  constructor
  · intro hid
    have hxs : (manager'.heap x).clusterId = (manager'.heap sink).clusterId :=
      hid.trans (h.sinks sink hsink hzero).symm
    exact (clusterId_eq_of_eqvGen hreg ((h.same x hx sink hsink).mp hxs)).trans hzero
  · exact h.sinks x hx

theorem SplitInto.exists_unmanaged (h : manager.SplitInto manager') (hne : manager.nodes ≠ []) :
    ∃ x ∈ manager.nodes, (manager'.heap x).clusterId = unmanagedClusterId := by
  obtain ⟨count, hcount⟩ := h.counted
  obtain ⟨x, hx⟩ := List.exists_mem_of_ne_nil _ hne
  exact (hcount 0).mpr (Nat.zero_lt_of_lt ((hcount _).mp ⟨x, hx, rfl⟩))

theorem OnlySinksUnmanaged.topLevelQueueless (h : OnlySinksUnmanaged manager manager') :
    TopLevelQueueless manager manager' := by
  intro ι V _ G node hnode t x ht hx
  have hcluster : t.updatingCluster ≠ G.clusterId x := by
    rw [ht, (hnode x).2]
    exact fun heq => hx ((h (node x) (hnode x).1).mp heq.symm)
  simp [Graph.registerUpdate, hcluster, InnerTransaction.insertTarget]

/-- The build keeps the unmanaged cluster to the sinks exactly when there is a sink to keep it. -/
theorem onlySinksUnmanaged_iff (manager : NodeManager) (hreg : manager.Registered) :
    ∃ manager', manager.splitClusterByAssociates = some manager' ∧
      (OnlySinksUnmanaged manager manager' ∧ TopLevelQueueless manager manager' ↔
        manager.nodes = [] ∨
          ∃ x ∈ manager.nodes, (manager.heap x).clusterId = unmanagedClusterId) := by
  obtain ⟨manager', hsplit, hinto⟩ := exists_splitInto hreg.linksRegistered
  refine ⟨manager', hsplit, ?_, ?_⟩
  · rintro ⟨honly, -⟩
    by_cases hne : manager.nodes = []
    · exact Or.inl hne
    · obtain ⟨x, hx, hid⟩ := hinto.exists_unmanaged hne
      exact Or.inr ⟨x, hx, (honly x hx).mp hid⟩
  · rintro (hnil | ⟨sink, hsink, hzero⟩)
    · have honly : OnlySinksUnmanaged manager manager' := fun x hx => by simp [hnil] at hx
      exact ⟨honly, honly.topLevelQueueless⟩
    · have honly := hinto.onlySinksUnmanaged hreg hsink hzero
      exact ⟨honly, honly.topLevelQueueless⟩

/-- A sink and the value made from it by `map`. -/
def sinkAndMap : NodeManager :=
  { empty with
    heap := fun x => if x = 0 then { Node.new 0 with childs := [1] } else Node.new 1
    nodes := [0, 1]
    nodes_nodup := by decide }

theorem onlySinksUnmanaged_sinkAndMap :
    ∃ manager', sinkAndMap.splitClusterByAssociates = some manager' ∧
      (OnlySinksUnmanaged sinkAndMap manager' ∧ TopLevelQueueless sinkAndMap manager' ↔
        sinkAndMap.nodes = [] ∨
          ∃ x ∈ sinkAndMap.nodes, (sinkAndMap.heap x).clusterId = unmanagedClusterId) :=
  onlySinksUnmanaged_iff sinkAndMap ⟨by decide, by decide⟩

/-- `Cell c(3)` and the value made from it by `map`, and no sink. -/
def cellAndMap : NodeManager :=
  { empty with
    heap := fun x => if x = 0 then { Node.new 1 with childs := [1] } else Node.new 1
    nodes := [0, 1]
    nodes_nodup := by decide }

theorem not_onlySinksUnmanaged_cellAndMap :
    cellAndMap.Registered ∧
      ¬ ∃ manager', cellAndMap.splitClusterByAssociates = some manager' ∧
        OnlySinksUnmanaged cellAndMap manager' ∧ TopLevelQueueless cellAndMap manager' := by
  refine ⟨⟨by decide, by decide⟩, ?_⟩
  rintro ⟨manager', hsplit, honly, -⟩
  have hids : cellAndMap.splitClusterByAssociates.map (fun m => (m.heap 0).clusterId) = some 0 := by
    decide +kernel
  rw [hsplit, Option.map_some] at hids
  exact absurd ((honly 0 (by decide)).mp (Option.some.inj hids)) (by decide)

end NodeManager

end Prf
