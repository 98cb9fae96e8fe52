import Prf.Source
import Prf.Proof.Programs

/-!
# What a written program leaves behind

Every call keeps the nodes and their links in step with the values: a node has as children exactly
the values made from its own, the `listners` are exactly the values that listen, operands come before
what is made from them, the sinks are exactly the values of cluster 0, and loops stay inside a
cluster. So the graph the build makes of it is layered as soon as the ranks of its clusters increase.
-/

namespace Prf

variable {V : Type}

namespace Program

structure Linked (p p' : Program) (this : ℕ) (links listens : List ℕ) : Prop where
  nodes : p'.manager.nodes = p.manager.nodes
  current : p'.globalCurrentId = p.globalCurrentId
  alreadyBuild : p'.manager.alreadyBuild = p.manager.alreadyBuild
  clusterId : ∀ x, (p'.manager.heap x).clusterId = (p.manager.heap x).clusterId
  inClusterRank : ∀ x, (p'.manager.heap x).inClusterRank = (p.manager.heap x).inClusterRank
  sameClusters : ∀ x, (p.manager.heap x).sameClusters ⊆ (p'.manager.heap x).sameClusters
  childs : ∀ x y, y ∈ (p'.manager.heap x).childs ↔
    y ∈ (p.manager.heap x).childs ∨ y = this ∧ x ∈ links
  listners : ∀ x y, y ∈ p'.listners x ↔ y ∈ p.listners x ∨ y = this ∧ x ∈ listens

namespace Linked

variable {p p' p'' : Program} {this tiv : ℕ} {links links' listens listens' : List ℕ}

theorem refl (p : Program) (this : ℕ) : Linked p p this [] [] := by
  constructor <;> simp

theorem trans (h : Linked p p' this links listens) (h' : Linked p' p'' this links' listens') :
    Linked p p'' this (links ++ links') (listens ++ listens') where
  nodes := h'.nodes.trans h.nodes
  current := h'.current.trans h.current
  alreadyBuild := h'.alreadyBuild.trans h.alreadyBuild
  clusterId x := (h'.clusterId x).trans (h.clusterId x)
  inClusterRank x := (h'.inClusterRank x).trans (h.inClusterRank x)
  sameClusters x := List.Subset.trans (h.sameClusters x) (h'.sameClusters x)
  childs x y := by
    rw [h'.childs, h.childs, List.mem_append]
    tauto
  listners x y := by
    rw [h'.listners, h.listners, List.mem_append]
    tauto

theorem linkTo (p : Program) (this tiv : ℕ) :
    Linked p { p with manager := { p.manager with heap := p.manager.heap.linkTo tiv this } } this
      [tiv] [] := by
  constructor
  all_goals first | rfl | intro x
  all_goals by_cases hx : x = tiv <;> simp [Heap.linkTo, hx]

theorem listen (p : Program) (this tiv : ℕ) : Linked p (p.listen this tiv) this [tiv] [tiv] := by
  have hlink := linkTo p this tiv
  refine ⟨rfl, rfl, rfl, hlink.clusterId, hlink.inClusterRank, hlink.sameClusters, hlink.childs, ?_⟩
  intro x y
  by_cases hx : x = tiv <;> simp [Program.listen, hx]

theorem foldl {f : Program → ℕ → Program} {links listens : ℕ → List ℕ}
    (hf : ∀ p tiv, Linked p (f p tiv) this (links tiv) (listens tiv)) (tivs : List ℕ) (p : Program) :
    Linked p (tivs.foldl f p) this (tivs.flatMap links) (tivs.flatMap listens) := by
  induction tivs generalizing p with
  | nil => exact refl p this
  | cons tiv tivs ih => exact (hf p tiv).trans (ih (f p tiv))

theorem newNode (p : Program) (this : ℕ) (listens childs : List ℕ) :
    Linked p (childs.foldl (Program.childTo this) (listens.foldl (Program.listen this) p)) this
      (listens ++ childs) listens := by
  have hlistens := foldl (fun p tiv => listen p this tiv) listens p
  have hchilds := foldl (f := Program.childTo this) (fun p tiv => linkTo p this tiv) childs
    (listens.foldl (Program.listen this) p)
  have hnone : childs.flatMap (fun _ => ([] : List ℕ)) = [] :=
    List.flatMap_eq_nil_iff.mpr fun _ _ => rfl
  simpa [hnone] using hlistens.trans hchilds

theorem globalListen (p : Program) (this tiv : ℕ) :
    Linked p (p.globalListen this tiv) this [] [tiv] := by
  constructor
  case listners =>
    intro x y
    by_cases hx : x = tiv <;> simp [Program.globalListen, hx]
  all_goals simp [Program.globalListen]

theorem listenOverLoop {p p' : Program} {this tiv : ℕ} (h : p.listenOverLoop this tiv = some p') :
    Linked p p' this [] [tiv] ∧ this ∈ (p'.manager.heap tiv).sameClusters := by
  obtain ⟨heap, hheap, rfl⟩ := Option.map_eq_some_iff.mp h
  rw [Heap.loopChildTo, Option.ite_none_left_eq_some] at hheap
  obtain ⟨-, hheap⟩ := hheap
  obtain rfl := Option.some.inj hheap
  constructor
  · constructor
    case listners =>
      intro x y
      by_cases hx : x = tiv <;> simp [hx]
    all_goals first | rfl | intro x
    all_goals
      by_cases hxt : x = tiv <;> by_cases hxs : x = this <;> by_cases hts : tiv = this <;>
        simp_all [Function.update_apply]
  · by_cases hts : tiv = this
    · simp [hts]
    · simp [hts, Ne.symm hts]

end Linked

end Program

namespace Primitive

variable {ι : Type} (p : Primitive ι V)

theorem listens_subset_reads : p.listens ⊆ p.reads :=
  List.subset_append_left ..

theorem links_subset_reads : p.links ⊆ p.reads := by
  intro x hx
  simp only [links, reads, listens, List.mem_append] at hx ⊢
  tauto

theorem listenOverLoop_subset_reads : p.listenOverLoop ⊆ p.reads := by
  intro x hx
  simp only [reads, listens, List.mem_append]
  tauto

end Primitive

namespace Source

/-! ## What every call keeps -/

/-- The nodes mirror the values. -/
structure Faithful (s : Source V) : Prop where
  ordered : s.program.Ordered
  current : 0 < s.program.globalCurrentId
  unbuilt : s.program.manager.alreadyBuild = false
  fresh : ∀ x ∈ s.nodes, (s.program.manager.heap x).inClusterRank = Rank.zero
  sinks : ∀ x ∈ s.nodes, (s.primitive x).isSink ↔ (s.program.manager.heap x).clusterId = 0
  operands : ∀ y ∈ s.nodes, ∀ x ∈ (s.primitive y).reads, x ∈ s.nodes
  childs : ∀ x ∈ s.nodes, ∀ y, y ∈ (s.program.manager.heap x).childs ↔
    y ∈ s.nodes ∧ x ∈ (s.primitive y).links
  listners : ∀ x ∈ s.nodes, ∀ y, y ∈ s.program.listners x ↔
    y ∈ s.nodes ∧ x ∈ (s.primitive y).listens
  unlistened : ∀ x ∉ s.nodes, s.program.listners x = []
  loops : ∀ y ∈ s.nodes, ∀ x ∈ (s.primitive y).listenOverLoop,
    y ∈ (s.program.manager.heap x).sameClusters
  guarded : ∀ y ∈ s.nodes, s.refuses (s.primitive y) = none

theorem faithful_start : (start : Source V).Faithful where
  ordered := Program.ordered_start 1
  current := Nat.one_pos
  unbuilt := rfl
  unlistened _ _ := rfl
  fresh := by simp [nodes, start, Program.start, NodeManager.empty]
  sinks := by simp [nodes, start, Program.start, NodeManager.empty]
  operands := by simp [nodes, start, Program.start, NodeManager.empty]
  childs := by simp [nodes, start, Program.start, NodeManager.empty]
  listners := by simp [nodes, start, Program.start, NodeManager.empty]
  loops := by simp [nodes, start, Program.start, NodeManager.empty]
  guarded := by simp [nodes, start, Program.start, NodeManager.empty]

namespace Faithful

variable {s s' : Source V}

theorem refuses_congr {p : Primitive ℕ V}
    (h : ∀ x ∈ p.reads, (s'.primitive x).isGlobalCellLoop = (s.primitive x).isGlobalCellLoop) :
    s'.refuses p = s.refuses p := by
  cases p with
  | cellMap f c =>
      have hc := h c (by simp [Primitive.reads, Primitive.listens, Primitive.listenTo])
      simp only [refuses, hc]
  | lift f cs =>
      have hcs : ∀ c ∈ cs, (s'.primitive c).isGlobalCellLoop = (s.primitive c).isGlobalCellLoop :=
        fun c hc => h c (by simp [Primitive.reads, Primitive.listens, Primitive.listenTo, hc])
      have hany : (cs.any fun c => (s'.primitive c).isGlobalCellLoop) =
          cs.any fun c => (s.primitive c).isGlobalCellLoop := by
        rw [Bool.eq_iff_iff, List.any_eq_true, List.any_eq_true]
        exact exists_congr fun c => and_congr_right fun hc => by rw [hcs c hc]
      simp only [refuses, hany]
  | _ => rfl

theorem refuses_of_reads {p : Primitive ℕ V} (h : p.reads = []) : s.refuses p = none := by
  cases p <;> simp_all [refuses, Primitive.reads, Primitive.listens, Primitive.listenTo]

theorem relink (h : s.Faithful) {p' : Program} {this : ℕ} {links listens : List ℕ}
    {q₀ q : Primitive ℕ V} (hthis : this ∈ s.nodes) (hbefore : s.primitive this = q₀)
    (hlinked : s.program.Linked p' this links listens) (hordered : p'.Ordered)
    (hlinks : ∀ x, x ∈ q.links ↔ x ∈ q₀.links ∨ x ∈ links)
    (hlistens : ∀ x, x ∈ q.listens ↔ x ∈ q₀.listens ∨ x ∈ listens)
    (hoperands : ∀ x ∈ q.reads, x ∈ s.nodes) (hsink : q.isSink = q₀.isSink)
    (hglobal : q.isGlobalCellLoop = q₀.isGlobalCellLoop)
    (hloops : ∀ x ∈ q.listenOverLoop, this ∈ (p'.manager.heap x).sameClusters)
    (hguard : s.refuses q = none) :
    Faithful { s with program := p', primitive := Function.update s.primitive this q } := by
  subst hbefore
  have hnodes : p'.manager.nodes = s.nodes := hlinked.nodes
  have hcases : ∀ y, Function.update s.primitive this q y = if y = this then q else s.primitive y :=
    fun y => Function.update_apply ..
  refine ⟨hordered, hlinked.current ▸ h.current, hlinked.alreadyBuild.trans h.unbuilt,
    fun x hx => ?_, fun x hx => ?_, fun y hy x hx => ?_, fun x hx y => ?_, fun x hx y => ?_,
    fun x hx => ?_, fun y hy x hx => ?_, fun y hy => ?_⟩
  all_goals simp only [nodes, hnodes] at *
  · rw [hlinked.inClusterRank]
    exact h.fresh x hx
  · rw [hlinked.clusterId, ← h.sinks x hx, hcases]
    split
    · rename_i heq
      rw [heq, hsink]
    · rfl
  · rw [hcases] at hx
    split at hx
    · exact hoperands x hx
    · exact h.operands y hy x hx
  · rw [hlinked.childs, h.childs x hx, hcases]
    split
    · rename_i heq
      subst heq
      rw [hlinks]
      tauto
    · tauto
  · rw [hlinked.listners, h.listners x hx, hcases]
    split
    · rename_i heq
      subst heq
      rw [hlistens]
      tauto
    · tauto
  · refine List.eq_nil_iff_forall_not_mem.mpr fun y hy => ?_
    rw [hlinked.listners, h.unlistened x hx] at hy
    obtain ⟨-, hlistened⟩ := hy.resolve_left List.not_mem_nil
    exact hx (hoperands x (List.mem_append_left _ ((hlistens x).mpr (.inr hlistened))))
  · rw [hcases] at hx
    split at hx
    · rename_i heq
      exact heq ▸ hloops x hx
    · exact hlinked.sameClusters x (h.loops y hy x hx)
  · have hsame : ∀ x, (Function.update s.primitive this q x).isGlobalCellLoop =
        (s.primitive x).isGlobalCellLoop := by
      intro x
      rw [hcases]
      split
      · rename_i heq
        rw [heq, hglobal]
      · rfl
    rw [refuses_congr fun x _ => hsame x, hcases]
    split
    · exact hguard
    · exact h.guarded y hy

theorem newValue (h : s.Faithful) {node : ℕ} {clusterId : ID} {p' : Program} {q : Primitive ℕ V}
    (hstep : s.program.newValue node clusterId = some p')
    (hle : clusterId ≤ s.program.globalCurrentId) (hreads : q.reads = [])
    (hsink : q.isSink ↔ clusterId = 0) :
    Faithful { s with program := p', primitive := Function.update s.primitive node q } ∧
      p'.manager.nodes = s.nodes ++ [node] := by
  obtain ⟨hordered, hnodes, hfresh, hheap, hcurrent⟩ := h.ordered.newValue hle hstep
  obtain ⟨hlistners, hbuild⟩ : p'.listners = s.program.listners ∧
      p'.manager.alreadyBuild = s.program.manager.alreadyBuild := by
    rw [Program.newValue, Option.dite_none_right_eq_some] at hstep
    obtain ⟨_, hstep⟩ := hstep
    obtain rfl := Option.some.inj hstep
    exact ⟨rfl, rfl⟩
  have hnone : ∀ x, x ∉ q.reads := by simp [hreads]
  have hcases : ∀ x, x ∈ p'.manager.nodes → x ∈ s.nodes ∧ x ≠ node ∨ x = node := by
    intro x hx
    rw [hnodes, List.mem_append, List.mem_singleton] at hx
    exact hx.imp_left fun hx => ⟨hx, fun heq => hfresh (heq ▸ hx)⟩
  have hold : ∀ x ∈ s.nodes, x ∈ p'.manager.nodes := fun x hx => by
    rw [hnodes]
    exact List.mem_append_left _ hx
  -- what the new value is made from is nothing, and no other value is made from it
  have hmade : ∀ (f : Primitive ℕ V → List ℕ), (∀ p, f p ⊆ p.reads) →
      ∀ x y, y ∈ p'.manager.nodes ∧ x ∈ f (Function.update s.primitive node q y) ↔
        (y ∈ s.nodes ∧ x ∈ f (s.primitive y)) := by
    intro f hf x y
    by_cases hy : y = node
    · subst hy
      rw [Function.update_self]
      exact ⟨fun hx => absurd (hf q hx.2) (hnone x), fun hx => absurd hx.1 hfresh⟩
    · rw [Function.update_of_ne hy]
      exact and_congr_left fun _ => ⟨fun hin => ((hcases y hin).resolve_right hy).1, hold y⟩
  have hunread : ∀ (f : Primitive ℕ V → List ℕ), (∀ p, f p ⊆ p.reads) →
      ∀ y, ¬(y ∈ s.nodes ∧ node ∈ f (s.primitive y)) :=
    fun f hf y hy => hfresh (h.operands y hy.1 node (hf _ hy.2))
  refine ⟨⟨hordered, hcurrent ▸ h.current, hbuild.trans h.unbuilt, fun x hx => ?_, fun x hx => ?_,
    fun y hy x hx => ?_, fun x hx y => ?_, fun x hx y => ?_, fun x hx => ?_, fun y hy x hx => ?_,
    fun y hy => ?_⟩, hnodes⟩
  all_goals simp only [nodes] at *
  · obtain ⟨hin, hne⟩ | rfl := hcases x hx
    · rw [hheap, Function.update_of_ne hne]
      exact h.fresh x hin
    · rw [hheap, Function.update_self]
      rfl
  · obtain ⟨hin, hne⟩ | rfl := hcases x hx
    · rw [hheap, Function.update_of_ne hne, Function.update_of_ne hne]
      exact h.sinks x hin
    · rw [hheap, Function.update_self, Function.update_self]
      exact hsink
  · have hread := (hmade Primitive.reads (fun p => List.Subset.refl _) x y).mp ⟨hy, hx⟩
    exact hold x (h.operands y hread.1 x hread.2)
  · rw [hmade Primitive.links Primitive.links_subset_reads x y]
    obtain ⟨hin, hne⟩ | rfl := hcases x hx
    · rw [hheap, Function.update_of_ne hne]
      exact h.childs x hin y
    · rw [hheap, Function.update_self]
      exact iff_of_false List.not_mem_nil (hunread _ Primitive.links_subset_reads y)
  · rw [hlistners, hmade Primitive.listens Primitive.listens_subset_reads x y]
    obtain ⟨hin, hne⟩ | rfl := hcases x hx
    · exact h.listners x hin y
    · rw [h.unlistened x hfresh]
      exact iff_of_false List.not_mem_nil (hunread _ Primitive.listens_subset_reads y)
  · rw [hlistners]
    exact h.unlistened x fun hin => hx (hold x hin)
  · obtain ⟨hin, hx⟩ := (hmade _ Primitive.listenOverLoop_subset_reads x y).mp ⟨hy, hx⟩
    have hne : x ≠ node := fun heq =>
      hfresh (heq ▸ h.operands y hin x (Primitive.listenOverLoop_subset_reads _ hx))
    rw [hheap, Function.update_of_ne hne]
    exact h.loops y hin x hx
  · obtain ⟨hin, hne⟩ | rfl := hcases y hy
    · rw [Function.update_of_ne hne, refuses_congr (s := s) fun x hx => ?_]
      · exact h.guarded y hin
      · have hne : x ≠ node := fun heq => hfresh (heq ▸ h.operands y hin x hx)
        exact congrArg Primitive.isGlobalCellLoop (Function.update_of_ne hne q s.primitive)
    · rw [Function.update_self]
      exact refuses_of_reads hreads

theorem make (h : s.Faithful) {node : ℕ} {p : Primitive ℕ V} {p' : Program}
    (hunlooped : p.isUnlooped) (hoperands : ∀ x ∈ p.reads, x ∈ s.nodes)
    (hguard : s.refuses p = none) (hstep : s.program.step (p.apiStep node) = some p') :
    Faithful { s with program := p', primitive := Function.update s.primitive node p } := by
  have hordered : p'.Ordered := h.ordered.step _ hstep
  obtain ⟨hloop, hglobal⟩ : p.listenOverLoop = [] ∧ p.globalListen = [] := by
    simpa [Primitive.isUnlooped] using hunlooped
  rw [Primitive.apiStep] at hstep
  split at hstep
  case isTrue hsink =>
    have hreads : p.reads = [] := by
      cases p <;> first | rfl | cases hsink
    exact (h.newValue hstep (Nat.zero_le _) hreads (iff_of_true hsink rfl)).1
  case isFalse hsink =>
    simp only [Program.step, Option.ite_none_right_eq_some] at hstep
    obtain ⟨-, hstep⟩ := hstep
    obtain ⟨p₁, hnew, rfl⟩ := Option.map_eq_some_iff.mp hstep
    have hid : ¬ s.program.globalCurrentId = 0 := h.current.ne'
    by_cases hreads : p.reads = []
    · have hnone : p.listenTo = [] ∧ p.childTo = [] := by
        simp_all [Primitive.reads, Primitive.listens]
      rw [hnone.1, hnone.2]
      exact (h.newValue hnew le_rfl hreads (iff_of_false hsink hid)).1
    · -- the node is made first, and its links are entered after it
      obtain ⟨h₁, hnodes⟩ := h.newValue (q := .streamLoop none) hnew le_rfl rfl
        (iff_of_false (by simp [Primitive.isSink]) hid)
      have hfresh : node ∉ s.nodes := (h.ordered.newValue le_rfl hnew).2.2.1
      have hsame : ∀ x ∈ p.reads,
          Function.update s.primitive node (.streamLoop none) x = s.primitive x := by
        intro x hx
        have hne : x ≠ node := fun heq => hfresh (heq ▸ hoperands x hx)
        exact Function.update_of_ne hne ..
      have hlistens : p.listens = p.listenTo := by
        rw [Primitive.listens, hloop, hglobal, List.append_nil, List.append_nil]
      have hnotLoop : p.isGlobalCellLoop = false := by
        cases p with
        | globalCellLoop looped => exact absurd (by rw [Primitive.reads, hlistens]; rfl) hreads
        | _ => rfl
      have hnode : node ∈ p₁.manager.nodes := by simp [hnodes]
      have hidem : Function.update s.primitive node p =
          Function.update (Function.update s.primitive node (.streamLoop none)) node p :=
        (Function.update_idem ..).symm
      rw [hidem]
      refine h₁.relink hnode (Function.update_self ..)
        (Program.Linked.newNode p₁ node p.listenTo p.childTo) hordered
        (fun x => ?_) (fun x => ?_) (fun x hx => ?_) ?_ ?_ ?_ ?_
      · exact (or_iff_right List.not_mem_nil).symm
      · rw [hlistens]
        exact (or_iff_right List.not_mem_nil).symm
      · rw [nodes, hnodes]
        exact List.mem_append_left _ (hoperands x hx)
      · exact Bool.eq_false_of_not_eq_true hsink
      · exact hnotLoop
      · simp [hloop]
      · exact (refuses_congr fun x hx => congrArg _ (hsame x hx)).trans hguard

theorem loopOver (h : s.Faithful) {this tiv : ℕ} (hthis : this ∈ s.nodes) (htiv : tiv ∈ s.nodes)
    {loop : Option ℕ → Primitive ℕ V} (hloop : loop = .streamLoop ∨ loop = .cellLoop)
    (hbefore : s.primitive this = loop none) (hcall : s.loopOver this tiv (loop (some tiv)) = .ok s') :
    s'.Faithful := by
  rw [Source.loopOver] at hcall
  split at hcall
  case h_1 => cases hcall
  case h_2 p' hover =>
    obtain rfl := Except.ok.inj hcall
    obtain ⟨hlinked, hsame⟩ := Program.Linked.listenOverLoop hover
    have hordered := h.ordered.listenOverLoop hthis htiv hover
    obtain rfl | rfl := hloop
    all_goals
      refine h.relink hthis hbefore hlinked hordered (fun x => ?_) (fun x => ?_) (fun x hx => ?_)
        rfl rfl (fun x hx => ?_) rfl
      · exact (or_iff_left List.not_mem_nil).symm
      · exact (or_iff_right List.not_mem_nil).symm
      · exact List.mem_singleton.mp hx ▸ htiv
      · exact List.mem_singleton.mp hx ▸ hsame

theorem loop (h : s.Faithful) {this tiv : ℕ} (hthis : this ∈ s.nodes) (htiv : tiv ∈ s.nodes)
    (hcall : s.loop this tiv = some (.ok s')) : s'.Faithful := by
  rw [Source.loop] at hcall
  split at hcall
  case h_1 looped hbefore =>
    cases looped with
    | none => exact h.loopOver hthis htiv (.inl rfl) hbefore (Option.some.inj hcall)
    | some => cases hcall
  case h_2 looped hbefore =>
    cases looped with
    | none => exact h.loopOver hthis htiv (.inr rfl) hbefore (Option.some.inj hcall)
    | some => cases hcall
  case h_3 looped hbefore =>
    cases looped with
    | none =>
        obtain rfl := Except.ok.inj (Option.some.inj hcall)
        refine h.relink hthis hbefore (Program.Linked.globalListen s.program this tiv) ?_
          (fun x => ?_) (fun x => ?_) (fun x hx => ?_) rfl rfl (fun x hx => ?_) rfl
        · exact ⟨h.ordered.clusterId_le, h.ordered.childs, h.ordered.sameClusters⟩
        · exact (or_iff_left List.not_mem_nil).symm
        · exact (or_iff_right List.not_mem_nil).symm
        · exact List.mem_singleton.mp hx ▸ htiv
        · cases hx
    | some => cases hcall
  case h_4 => cases hcall

theorem nextId (h : s.Faithful) (names : Map String) (clusters : List (Option Bool)) :
    Faithful
      { s with
        program := { s.program.nextId with
          manager := { s.program.manager with clusterNames := names } }
        clusters := clusters } where
  ordered := ⟨h.ordered.nextId.clusterId_le, h.ordered.childs, h.ordered.sameClusters⟩
  current := Nat.succ_pos _
  unbuilt := h.unbuilt
  fresh := h.fresh
  sinks := h.sinks
  operands := h.operands
  childs := h.childs
  listners := h.listners
  unlistened := h.unlistened
  loops := h.loops
  guarded y hy := (refuses_congr fun _ _ => rfl).trans (h.guarded y hy)

theorem call (h : s.Faithful) {c : Call V} (hcall : s.call c = some (.ok s')) : s'.Faithful := by
  cases c with
  | cluster name =>
      obtain rfl := Except.ok.inj (Option.some.inj hcall)
      exact h.nextId _ _
  | close index =>
      simp only [Source.call] at hcall
      split at hcall
      case h_2 =>
        obtain rfl := Except.ok.inj (Option.some.inj hcall)
        exact h.nextId s.program.manager.clusterNames _
      all_goals cases hcall
  | destroy index =>
      simp only [Source.call] at hcall
      split at hcall
      case h_1 =>
        obtain rfl := Except.ok.inj (Option.some.inj hcall)
        exact ⟨h.ordered, h.current, h.unbuilt, h.fresh, h.sinks, h.operands, h.childs, h.listners,
          h.unlistened, h.loops, fun y hy => (refuses_congr fun _ _ => rfl).trans (h.guarded y hy)⟩
      case h_2 =>
        obtain rfl := Except.ok.inj (Option.some.inj hcall)
        exact h.nextId s.program.manager.clusterNames _
      all_goals cases hcall
  | make node p =>
      simp only [Source.call, Option.ite_none_right_eq_some] at hcall
      obtain ⟨⟨hunlooped, hoperands⟩, hcall⟩ := hcall
      split at hcall
      case h_1 => cases hcall
      case h_2 hguard =>
        obtain ⟨p', hstep, hcall⟩ := Option.map_eq_some_iff.mp hcall
        obtain rfl := Except.ok.inj hcall
        exact h.make hunlooped hoperands hguard hstep
  | loop this tiv =>
      simp only [Source.call, Option.ite_none_right_eq_some] at hcall
      exact h.loop hcall.1.1 hcall.1.2 hcall.2
  | listen tiv =>
      simp only [Source.call, Option.ite_none_right_eq_some] at hcall
      obtain rfl := Except.ok.inj (Option.some.inj hcall.2)
      exact ⟨h.ordered, h.current, h.unbuilt, h.fresh, h.sinks, h.operands, h.childs, h.listners,
        h.unlistened, h.loops, fun y hy => (refuses_congr fun _ _ => rfl).trans (h.guarded y hy)⟩

theorem run (h : s.Faithful) {calls : List (Call V)} (hrun : s.run calls = some (.ok s')) :
    s'.Faithful := by
  induction calls generalizing s with
  | nil =>
      obtain rfl := Except.ok.inj (Option.some.inj hrun)
      exact h
  | cons c calls ih =>
      rw [Source.run] at hrun
      split at hrun
      case h_1 s₁ hcall => exact ih (h.call hcall) hrun
      all_goals cases hrun

end Faithful

end Source

end Prf
