import Prf.Program
import Prf.Proof.Ranks

/-!
# Programs have no cycles

A link goes from an older value to a newer one, and the id handed to a new value is at or above all
ids handed out before. Links between values of one id are inside a cluster, so a link that leaves a
cluster goes up in the id that its cluster had before the build.
-/

namespace Prf.Program

open Relation

variable {p p' : Program} {x y : ℕ}

/-- What every call keeps: links go up in age, and not down in the cluster id. -/
structure Ordered (p : Program) : Prop where
  clusterId_le : ∀ x ∈ p.manager.nodes, (p.manager.heap x).clusterId ≤ p.globalCurrentId
  childs : ∀ x ∈ p.manager.nodes, ∀ y ∈ (p.manager.heap x).childs,
    y ∈ p.manager.nodes ∧ (p.manager.heap x).clusterId ≤ (p.manager.heap y).clusterId ∧
      p.manager.nodes.idxOf x < p.manager.nodes.idxOf y
  sameClusters : ∀ x ∈ p.manager.nodes, ∀ y ∈ (p.manager.heap x).sameClusters,
    y ∈ p.manager.nodes ∧ (p.manager.heap x).clusterId = (p.manager.heap y).clusterId

theorem ordered_start (globalCurrentId : ID) : (start globalCurrentId).Ordered := by
  constructor <;> simp [start, NodeManager.empty]

theorem Ordered.registered (h : p.Ordered) : p.manager.Registered :=
  ⟨fun x hx y hy => (h.childs x hx y hy).1, h.sameClusters⟩

theorem Ordered.nextId (h : p.Ordered) : p.nextId.Ordered :=
  ⟨fun x hx => (h.clusterId_le x hx).trans (Nat.le_succ _), h.childs, h.sameClusters⟩

theorem Ordered.newValue (h : p.Ordered) {node : ℕ} {clusterId : ID}
    (hle : clusterId ≤ p.globalCurrentId) (hstep : p.newValue node clusterId = some p') :
    p'.Ordered ∧ p'.manager.nodes = p.manager.nodes ++ [node] ∧ node ∉ p.manager.nodes ∧
      p'.manager.heap = Function.update p.manager.heap node (Node.new clusterId) ∧
      p'.globalCurrentId = p.globalCurrentId := by
  rw [Program.newValue] at hstep
  split at hstep
  case isFalse => cases hstep
  case isTrue hfresh =>
    obtain rfl := Option.some.inj hstep
    have hold : ∀ x ∈ p.manager.nodes, x ≠ node := fun x hx heq => hfresh (heq ▸ hx)
    have hcases : ∀ x ∈ p.manager.nodes ++ [node], x ∈ p.manager.nodes ∨ x = node := by simp
    refine ⟨⟨fun x hx => ?_, fun x hx y hy => ?_, fun x hx y hy => ?_⟩, rfl, hfresh, rfl, rfl⟩
    · rcases hcases x hx with hx | rfl
      · simpa [NodeManager.registerNode, Function.update_of_ne (hold x hx)] using h.clusterId_le x hx
      · simpa [NodeManager.registerNode, Node.new] using hle
    · rcases hcases x hx with hx | rfl
      · simp only [NodeManager.registerNode, Function.update_of_ne (hold x hx)] at hy ⊢
        obtain ⟨hin, hid, hlt⟩ := h.childs x hx y hy
        rw [Function.update_of_ne (hold y hin), List.idxOf_append_of_mem hx,
          List.idxOf_append_of_mem hin]
        exact ⟨List.mem_append_left _ hin, hid, hlt⟩
      · simp [NodeManager.registerNode, Node.new] at hy
    · rcases hcases x hx with hx | rfl
      · simp only [NodeManager.registerNode, Function.update_of_ne (hold x hx)] at hy ⊢
        obtain ⟨hin, hid⟩ := h.sameClusters x hx y hy
        rw [Function.update_of_ne (hold y hin)]
        exact ⟨List.mem_append_left _ hin, hid⟩
      · simp [NodeManager.registerNode, Node.new] at hy

theorem Ordered.linkTo (h : p.Ordered) {this tiv : ℕ} (hthis : this ∈ p.manager.nodes)
    (hid : (p.manager.heap tiv).clusterId ≤ (p.manager.heap this).clusterId)
    (hlt : p.manager.nodes.idxOf tiv < p.manager.nodes.idxOf this) (listners : ℕ → List ℕ) :
    Ordered { p with
      manager := { p.manager with heap := p.manager.heap.linkTo tiv this }
      listners := listners } := by
  have hsame : ∀ x, (p.manager.heap.linkTo tiv this x).clusterId = (p.manager.heap x).clusterId ∧
      (p.manager.heap.linkTo tiv this x).sameClusters = (p.manager.heap x).sameClusters ∧
      ∀ y ∈ (p.manager.heap.linkTo tiv this x).childs,
        y ∈ (p.manager.heap x).childs ∨ x = tiv ∧ y = this := by
    intro x
    by_cases hx : x = tiv
    · subst hx
      simp [Heap.linkTo]
    · simp [Heap.linkTo, hx]
  refine ⟨fun x hx => ?_, fun x hx y hy => ?_, fun x hx y hy => ?_⟩
  · exact (hsame x).1 ▸ h.clusterId_le x hx
  · simp only [(hsame x).1, (hsame y).1]
    rcases (hsame x).2.2 y hy with hy | ⟨rfl, rfl⟩
    · exact h.childs x hx y hy
    · exact ⟨hthis, hid, hlt⟩
  · simp only [(hsame x).1, (hsame y).1]
    exact h.sameClusters x hx y ((hsame x).2.1 ▸ hy)

theorem Ordered.foldl_linkTo (f : Program → ℕ → Program) (this : ℕ)
    (hf : ∀ p tiv, ∃ listners, f p tiv = { p with
      manager := { p.manager with heap := p.manager.heap.linkTo tiv this }
      listners := listners })
    (tivs : List ℕ) (h : p.Ordered) (hthis : this ∈ p.manager.nodes)
    (htivs : ∀ tiv ∈ tivs, (p.manager.heap tiv).clusterId ≤ (p.manager.heap this).clusterId ∧
      p.manager.nodes.idxOf tiv < p.manager.nodes.idxOf this) :
    (tivs.foldl f p).Ordered ∧ (tivs.foldl f p).manager.nodes = p.manager.nodes ∧
      ∀ x, ((tivs.foldl f p).manager.heap x).clusterId = (p.manager.heap x).clusterId := by
  induction tivs generalizing p with
  | nil => exact ⟨h, rfl, fun _ => rfl⟩
  | cons tiv tivs ih =>
      obtain ⟨listners, heq⟩ := hf p tiv
      obtain ⟨hid, hlt⟩ := htivs tiv List.mem_cons_self
      have hsame : ∀ x, ((f p tiv).manager.heap x).clusterId = (p.manager.heap x).clusterId := by
        intro x
        rw [heq]
        by_cases hx : x = tiv
        · subst hx
          simp [Heap.linkTo]
        · simp [Heap.linkTo, hx]
      have hnodes : (f p tiv).manager.nodes = p.manager.nodes := by rw [heq]
      have hnext : (f p tiv).Ordered := by
        rw [heq]
        exact h.linkTo hthis hid hlt listners
      obtain ⟨hordered, hnodes', hsame'⟩ := ih hnext (by rwa [hnodes]) (by
        intro tiv' hin
        rw [hsame, hsame, hnodes]
        exact htivs tiv' (List.mem_cons_of_mem _ hin))
      exact ⟨hordered, hnodes'.trans hnodes, fun x => (hsame' x).trans (hsame x)⟩

/-- A loop is entered as a pair of one cluster id, not as a link. -/
theorem Ordered.listenOverLoop (h : p.Ordered) {this tiv : ℕ} (hthis : this ∈ p.manager.nodes)
    (htiv : tiv ∈ p.manager.nodes) (hstep : p.listenOverLoop this tiv = some p') : p'.Ordered := by
  obtain ⟨heap, hheap, rfl⟩ := Option.map_eq_some_iff.mp hstep
  rw [Heap.loopChildTo] at hheap
  split at hheap
  case isTrue => cases hheap
  case isFalse hid =>
    have hid : (p.manager.heap tiv).clusterId = (p.manager.heap this).clusterId := not_not.mp hid
    have hsame : ∀ x, (heap x).clusterId = (p.manager.heap x).clusterId ∧
        (heap x).childs = (p.manager.heap x).childs ∧
        ∀ y ∈ (heap x).sameClusters, y ∈ (p.manager.heap x).sameClusters ∨
          x = tiv ∧ y = this ∨ x = this ∧ y = tiv := by
      obtain rfl := Option.some.inj hheap
      intro x
      by_cases hxt : x = tiv <;> by_cases hxs : x = this <;> by_cases hts : tiv = this <;>
        simp_all [Function.update_apply]
    refine ⟨fun x hx => ?_, fun x hx y hy => ?_, fun x hx y hy => ?_⟩
    · exact (hsame x).1 ▸ h.clusterId_le x hx
    · simp only [(hsame x).1, (hsame y).1]
      exact h.childs x hx y ((hsame x).2.1 ▸ hy)
    · simp only [(hsame x).1, (hsame y).1]
      rcases (hsame x).2.2 y hy with hy | ⟨rfl, rfl⟩ | ⟨rfl, rfl⟩
      · exact h.sameClusters x hx y hy
      · exact ⟨hthis, hid⟩
      · exact ⟨htiv, hid.symm⟩

theorem Ordered.step (h : p.Ordered) (apiStep : ApiStep) (hstep : p.step apiStep = some p') :
    p'.Ordered := by
  cases apiStep with
  | enterCluster name =>
      obtain rfl := Option.some.inj hstep
      exact ⟨h.nextId.clusterId_le, h.childs, h.sameClusters⟩
  | exitCluster =>
      obtain rfl := Option.some.inj hstep
      exact h.nextId
  | newSink node => exact (h.newValue (Nat.zero_le _) hstep).1
  | newNode node listens childs =>
      simp only [Program.step, Option.ite_none_right_eq_some] at hstep
      obtain ⟨⟨hlistens, hchilds⟩, hstep⟩ := hstep
      obtain ⟨p₁, hnew, rfl⟩ := Option.map_eq_some_iff.mp hstep
      obtain ⟨h₁, hnodes, hfresh, hheap, -⟩ := h.newValue le_rfl hnew
      have hnode : node ∈ p₁.manager.nodes := by simp [hnodes]
      have hold : ∀ tiv ∈ p.manager.nodes,
          (p₁.manager.heap tiv).clusterId ≤ (p₁.manager.heap node).clusterId ∧
            p₁.manager.nodes.idxOf tiv < p₁.manager.nodes.idxOf node := by
        intro tiv htiv
        have hne : tiv ≠ node := fun heq => hfresh (heq ▸ htiv)
        rw [hheap, Function.update_self, Function.update_of_ne hne, hnodes,
          List.idxOf_append_of_mem htiv, List.idxOf_append_of_notMem hfresh]
        refine ⟨h.clusterId_le tiv htiv, ?_⟩
        exact (List.idxOf_lt_length_of_mem htiv).trans_le (Nat.le_add_right _ _)
      obtain ⟨h₂, hnodes₂, hsame₂⟩ := h₁.foldl_linkTo (listen node) node
        (fun p tiv => ⟨_, rfl⟩) listens hnode fun tiv htiv => hold tiv (hlistens tiv htiv)
      refine (h₂.foldl_linkTo (childTo node) node (fun p tiv => ⟨_, rfl⟩) childs
        (by rwa [hnodes₂]) fun tiv htiv => ?_).1
      rw [hsame₂, hsame₂, hnodes₂]
      exact hold tiv (hchilds tiv htiv)
  | loop this tiv =>
      simp only [Program.step, Option.ite_none_right_eq_some] at hstep
      exact h.listenOverLoop hstep.1.1 hstep.1.2 hstep.2
  | globalLoop this tiv =>
      simp only [Program.step, Option.ite_none_right_eq_some] at hstep
      obtain rfl := Option.some.inj hstep.2
      exact ⟨h.clusterId_le, h.childs, h.sameClusters⟩

theorem Ordered.run (h : p.Ordered) (steps : List ApiStep) (hrun : steps.foldlM Program.step p = some p') :
    p'.Ordered := by
  induction steps generalizing p with
  | nil => exact Option.some.inj hrun ▸ h
  | cons apiStep steps ih =>
      rw [List.foldlM_cons] at hrun
      obtain ⟨p₁, hstep, hrun⟩ := Option.bind_eq_some_iff.mp hrun
      exact ih (h.step apiStep hstep) hrun

/-- A link between two values of one cluster. -/
def InnerLink (manager : NodeManager) (x y : ℕ) : Prop :=
  x ∈ manager.nodes ∧ y ∈ (manager.heap x).childs ∧
    (manager.heap x).clusterId = (manager.heap y).clusterId

theorem Ordered.lt_of_crossLink (h : p.Ordered) {split : NodeManager}
    (hsplit : p.manager.SplitInto split) {c d : ID} (hlinks : TransGen split.CrossLink c d) :
    ∀ x ∈ p.manager.nodes, ∀ y ∈ p.manager.nodes, (split.heap x).clusterId = c →
      (split.heap y).clusterId = d →
        (p.manager.heap x).clusterId < (p.manager.heap y).clusterId := by
  have hclass : ∀ x ∈ p.manager.nodes, ∀ y ∈ p.manager.nodes,
      (split.heap x).clusterId = (split.heap y).clusterId →
        (p.manager.heap x).clusterId = (p.manager.heap y).clusterId := fun x hx y hy hid =>
    NodeManager.clusterId_eq_of_eqvGen h.registered ((hsplit.same x hx y hy).mp hid)
  have hlink : ∀ c d, split.CrossLink c d → ∃ x ∈ p.manager.nodes, ∃ y ∈ p.manager.nodes,
      (split.heap x).clusterId = c ∧ (split.heap y).clusterId = d ∧
        (p.manager.heap x).clusterId < (p.manager.heap y).clusterId := by
    rintro c d ⟨hlink, hne⟩
    obtain ⟨x, hx, y, hy, rfl, rfl⟩ := NodeManager.mem_clusterLinks.mp hlink
    rw [hsplit.nodes] at hx
    rw [hsplit.heap x] at hy
    obtain ⟨hin, hle, -⟩ := h.childs x hx y hy
    refine ⟨x, hx, y, hin, rfl, rfl, lt_of_le_of_ne hle fun heq => hne ?_⟩
    -- values of one id that are linked are put together
    exact (hsplit.same x hx y hin).mpr (.rel _ _ ⟨hx, hin, .inl ⟨hy, heq⟩⟩)
  induction hlinks with
  | single hcd =>
      intro x hx y hy hidx hidy
      obtain ⟨x', hx', y', hy', rfl, rfl, hlt⟩ := hlink _ _ hcd
      rw [hclass x hx x' hx' hidx, hclass y hy y' hy' hidy]
      exact hlt
  | tail _ hde ih =>
      intro x hx y hy hidx hidy
      obtain ⟨x', hx', y', hy', hid', rfl, hlt⟩ := hlink _ _ hde
      rw [hclass y hy y' hy' hidy]
      exact (ih x hx x' hx' hidx hid').trans hlt

/-- **Every program the library lets one write is acyclic**, between its clusters and inside each of
them. -/
theorem acyclic (globalCurrentId : ID) (steps : List ApiStep) (p : Program)
    (hrun : steps.foldlM step (start globalCurrentId) = some p) :
    ∃ split, p.manager.splitClusterByAssociates = some split ∧
      (∀ c, ¬ TransGen split.CrossLink c c) ∧ ∀ x, ¬ TransGen (InnerLink split) x x := by
  have h : p.Ordered := (ordered_start globalCurrentId).run steps hrun
  obtain ⟨split, hsplit, hinto⟩ := NodeManager.exists_splitInto h.registered.linksRegistered
  refine ⟨split, hsplit, fun c hcycle => ?_, fun x hcycle => ?_⟩
  · obtain ⟨d, hlink, -⟩ := TransGen.head'_iff.mp hcycle
    obtain ⟨x, hx, -, -, hid, -⟩ := NodeManager.mem_clusterLinks.mp hlink.1
    rw [hinto.nodes] at hx
    exact lt_irrefl _ (h.lt_of_crossLink hinto hcycle x hx x hx hid hid)
  · have hlink : ∀ x y, InnerLink split x y →
        p.manager.nodes.idxOf x < p.manager.nodes.idxOf y := by
      rintro x y ⟨hx, hy, -⟩
      rw [hinto.nodes] at hx
      rw [hinto.heap x] at hy
      exact (h.childs x hx y hy).2.2
    exact Layering.acyclic_of_lt (p.manager.nodes.idxOf ·) hlink x hcycle

/-- A sink, a loop in a cluster of its own, a value made from both and looped to, and a value of the
surrounding cluster made from that one. -/
def loopInCluster : List ApiStep :=
  [.newSink 0, .enterCluster "A", .newNode 1 [] [], .newNode 2 [0] [1], .loop 1 2, .exitCluster,
    .newNode 3 [2] [], .globalLoop 0 3]

theorem acyclic_loopInCluster :
    ∃ p split, loopInCluster.foldlM step (start 1) = some p ∧
      p.manager.splitClusterByAssociates = some split ∧
      (∀ c, ¬ TransGen split.CrossLink c c) ∧ ∀ x, ¬ TransGen (InnerLink split) x x := by
  have hsome : (loopInCluster.foldlM step (start 1)).isSome = true := by decide +kernel
  obtain ⟨p, hrun⟩ := Option.isSome_iff_exists.mp hsome
  obtain ⟨split, hsplit, hacyclic⟩ := acyclic 1 loopInCluster p hrun
  exact ⟨p, split, hrun, hsplit, hacyclic⟩

end Prf.Program
