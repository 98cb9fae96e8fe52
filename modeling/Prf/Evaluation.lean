import Prf.Meaning
import Prf.System
import Prf.Library.Dataflow

/-!
# What a program means

The values visible at each transaction, worked out from nothing but what is sent from outside the
graph: the transactions one after the other, and in each of them the values one after the other
along the links. Clusters, ranks and threads do not occur in it.
-/

namespace Prf

variable {ι V : Type}

/-- The value a user thread sends to `x` in the transaction. -/
def Action.sent? [DecidableEq ι] (transactionId : ID) (x : ι) : Action ι V → Option V
  | send transactionId' x' value => if transactionId' = transactionId ∧ x' = x then some value else none
  | _ => none

namespace Graph

variable (G : Graph ι V)

/-- The node of `y` is a child of the node of `x`. -/
def LinkedTo (x y : ι) : Prop :=
  x ∈ (G.primitive y).links

instance (x y : ι) [DecidableEq ι] : Decidable (G.LinkedTo x y) :=
  inferInstanceAs (Decidable (_ ∈ _))

/-- What is visible of `x` where `sent` is sent: a stream has no value unless one is sent, and a cell
goes on holding the last one. -/
def visible (last sent : ι → Option V) (x : ι) : Option V :=
  if (G.primitive x).isCell then (sent x).or (last x) else sent x

/-- What `x` sends: the value it has if something it listens to is sent, and otherwise what is sent
to it from outside the graph. -/
def sentBy (last top sent : ι → Option V) (x : ι) : Option V :=
  if ∃ y ∈ (G.primitive x).listens, (sent y).isSome then
    ((G.primitive x).meaning (G.visible last sent)).or (top x)
  else top x

variable [DecidableEq ι]

/-- What is sent from outside the graph in a transaction of a run: the initial values in the build
transaction, and in any other the last value a user thread sends to each value. -/
def sends (buildTransaction : ID) (actions : List (Action ι V)) (transactionId : ID) (x : ι) :
    Option V :=
  if transactionId = buildTransaction then (G.primitive x).initialValue
  else (actions.filterMap (Action.sent? transactionId x)).getLast?

/-- What is sent in a transaction, evaluated in the order of a list. -/
def evaluate (order : List ι) (last top : ι → Option V) : ι → Option V :=
  Dataflow.solve (G.sentBy last top) order top

/-- What is visible at each of a sequence of transactions in which `tops` are sent from outside the
graph. -/
def meanings (order : List ι) : (ι → Option V) → List (ι → Option V) → List (ι → Option V)
  | _, [] => []
  | last, top :: tops =>
      let sent := G.evaluate order last top
      G.visible last sent :: meanings order (fun x => (sent x).or (last x)) tops

/-- Without loops, cluster 0 holds nothing but sinks, and the ranks increase along the links. -/
structure Layered : Prop where
  loopFree : ∀ x, (G.primitive x).isLoop = false
  sink : ∀ x, G.clusterId x = unmanagedClusterId → (G.primitive x).isSink = true
  clusterRank_lt : ∀ x y, G.LinkedTo x y → G.clusterId x ≠ G.clusterId y →
    (G.clusterRanks (G.clusterId x)).value < (G.clusterRanks (G.clusterId y)).value
  inClusterRank_lt : ∀ x y, G.LinkedTo x y → G.clusterId x = G.clusterId y →
    (G.inClusterRank x).value < (G.inClusterRank y).value

/-- The rank of the cluster and the rank in it. -/
def rankOf (x : ι) : ℕ ×ₗ ℕ :=
  toLex ((G.clusterRanks (G.clusterId x)).value, (G.inClusterRank x).value)

variable {G}

omit [DecidableEq ι] in
/-- Without loops, all that an updater samples is linked to its value. -/
theorem linkedTo_of_reads (hloop : ∀ x, (G.primitive x).isLoop = false) {x y : ι}
    (hy : y ∈ (G.primitive x).reads) : G.LinkedTo y x := by
  have hx := hloop x
  cases hprimitive : G.primitive x <;>
    simp_all [LinkedTo, Primitive.reads, Primitive.links, Primitive.listens,
      Primitive.listenOverLoop, Primitive.globalListen, Primitive.isLoop]

omit [DecidableEq ι] in
/-- What a value sends depends on what is linked to it. -/
theorem sentBy_local (hloop : ∀ x, (G.primitive x).isLoop = false) (last top : ι → Option V) :
    Dataflow.Local G.LinkedTo (G.sentBy last top) := by
  intro sent sent' x hsame
  have hreads : ∀ y ∈ (G.primitive x).reads, sent y = sent' y :=
    fun y hy => hsame y (linkedTo_of_reads hloop hy)
  have hmeaning : (G.primitive x).meaning (G.visible last sent) =
      (G.primitive x).meaning (G.visible last sent') :=
    Primitive.meaning_congr fun y hy => by simp only [visible, hreads y hy]
  have hcaused : (∃ y ∈ (G.primitive x).listens, (sent y).isSome) ↔
      ∃ y ∈ (G.primitive x).listens, (sent' y).isSome := by
    refine exists_congr fun y => and_congr_right fun hy => ?_
    rw [hreads y (List.mem_append_left _ hy)]
  simp only [sentBy, hcaused, hmeaning]

namespace Layered

omit [DecidableEq ι] in
theorem linked_of_listens (h : G.Layered) {x y : ι} (hlistens : x ∈ (G.primitive y).listens) :
    G.LinkedTo x y :=
  linkedTo_of_reads h.loopFree (List.mem_append_left _ hlistens)

omit [DecidableEq ι] in
theorem rankOf_lt (h : G.Layered) {x y : ι} (hxy : G.LinkedTo x y) : G.rankOf x < G.rankOf y := by
  rw [rankOf, rankOf, Prod.Lex.toLex_lt_toLex]
  by_cases hcluster : G.clusterId x = G.clusterId y
  · exact .inr ⟨by rw [hcluster], h.inClusterRank_lt x y hxy hcluster⟩
  · exact .inl (h.clusterRank_lt x y hxy hcluster)

omit [DecidableEq ι] in
theorem wellFounded (h : G.Layered) : WellFounded G.LinkedTo :=
  Subrelation.wf h.rankOf_lt (InvImage.wf G.rankOf wellFounded_lt)

/-- The evaluation is the one assignment in which every value sends what it has to. -/
theorem eq_evaluate (h : G.Layered) {order : List ι} (horder : Dataflow.Enumerates G.LinkedTo order)
    {last top sent : ι → Option V} (hsent : ∀ x, sent x = G.sentBy last top sent x) :
    sent = G.evaluate order last top :=
  Dataflow.eq_solve h.wellFounded (sentBy_local h.loopFree last top) horder hsent

end Layered

end Graph

end Prf
