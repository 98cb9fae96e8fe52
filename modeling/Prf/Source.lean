import Prf.Build
import Prf.Program

/-!
# Writing a program

The calls of user code before the build with what they leave behind: the nodes and links of
`Program`, the `updater` of each value, here its `Primitive`, the functions outside the graph that
listen to it, and the `Cluster` objects; and the checks of `stream.hpp`, `cell.hpp` and `cluster.cpp`
that end the process. That streams are not used as cells is left to the types of the library.
-/

namespace Prf

/-- What the library refuses while a program is written. -/
inductive ApiFailure where
  | mapOfLoop
  | liftOfLoop
  | streamLoopTwice
  | cellLoopTwice
  | globalCellLoopTwice
  | loopAcrossClusters
  | clusterClosed
deriving DecidableEq

/-- The text `failure_log` prints. -/
def ApiFailure.message : ApiFailure → String
  | .mapOfLoop => "Loop系のセルはmapできません"
  | .liftOfLoop => "Loop系のセルはliftに使えません"
  | .streamLoopTwice => "StreamLoopに対して複数回loopメソッドを呼び出しています"
  | .cellLoopTwice => "CellLoopに対して複数回loopメソッドを呼び出しています"
  | .globalCellLoopTwice => "GlobalCellLoopに対して複数回loopメソッドを呼び出しています"
  | .loopAcrossClusters => "クラスタを跨いでループを作ることはできません"
  | .clusterClosed => "既にクラスターは終了しています"

/-- What user code has made. A `Cluster` object holds its `closed`, until it is destroyed. -/
structure Source (V : Type) where
  program : Program
  primitive : ℕ → Primitive ℕ V
  listeners : ℕ → ℕ
  clusters : List (Option Bool)

/-- A call of user code. `make` is a constructor, or a method that makes a value from others; `node`
is the address of the new value. -/
inductive Call (V : Type) where
  | cluster (name : String)
  | close (index : ℕ)
  | destroy (index : ℕ)
  | make (node : ℕ) (primitive : Primitive ℕ V)
  | loop (this tiv : ℕ)
  | listen (tiv : ℕ)

namespace Primitive

variable {ι V : Type}

/-- The step of the build-time memory that makes the value: a sink, or a node linked to what the
value is made from. -/
def apiStep (node : ℕ) (p : Primitive ℕ V) : Program.ApiStep :=
  if p.isSink then .newSink node else .newNode node p.listenTo p.childTo

/-- A constructor leaves a loop that has not been looped. -/
def isUnlooped (p : Primitive ι V) : Bool :=
  p.listenOverLoop.isEmpty && p.globalListen.isEmpty

end Primitive

namespace Source

variable {V : Type}

/-- Before the first call: `ClusterManager::global_current_id` is 1. -/
def start : Source V where
  program := Program.start 1
  primitive := fun _ => .streamSink
  listeners := fun _ => 0
  clusters := []

/-- The values made so far, in the order in which they were made. -/
def nodes (s : Source V) : List ℕ :=
  s.program.manager.nodes

/-- The checks of `map` and `lift`: a cell with `is_global_looper` is refused. -/
def refuses (s : Source V) : Primitive ℕ V → Option ApiFailure
  | .cellMap _ c => if (s.primitive c).isGlobalCellLoop then some .mapOfLoop else none
  | .lift _ cs => if cs.any fun c => (s.primitive c).isGlobalCellLoop then some .liftOfLoop else none
  | _ => none

/-- `StreamLoop::loop` and `CellLoop::loop`, once `looped` has been checked. -/
def loopOver (s : Source V) (this tiv : ℕ) (primitive : Primitive ℕ V) :
    Except ApiFailure (Source V) :=
  match s.program.listenOverLoop this tiv with
  | none => .error .loopAcrossClusters
  | some program => .ok
      { s with program := program, primitive := Function.update s.primitive this primitive }

/-- The `loop` of the three loops; other values have none. `looped` belongs to the value here. In
`stream.hpp` and `cell.hpp` each copy of a `StreamLoop`, `CellLoop` or `GlobalCellLoop` has its own, so
a copy made earlier may be looped again. -/
def loop (s : Source V) (this tiv : ℕ) : Option (Except ApiFailure (Source V)) :=
  match s.primitive this with
  | .streamLoop looped =>
      if looped.isSome then some (.error .streamLoopTwice)
      else some (s.loopOver this tiv (.streamLoop (some tiv)))
  | .cellLoop looped =>
      if looped.isSome then some (.error .cellLoopTwice)
      else some (s.loopOver this tiv (.cellLoop (some tiv)))
  | .globalCellLoop looped =>
      if looped.isSome then some (.error .globalCellLoopTwice)
      else some <| .ok
        { s with
          program := s.program.globalListen this tiv
          primitive := Function.update s.primitive this (.globalCellLoop (some tiv)) }
  | _ => none

/-- One call, or `none` for a call that user code cannot make: of a value or a `Cluster` it does not
have, or with an address that is taken. -/
def call (s : Source V) : Call V → Option (Except ApiFailure (Source V))
  | .cluster name => some <| .ok
      { s with program := s.program.enterCluster name, clusters := s.clusters ++ [some false] }
  | .close index =>
      match s.clusters[index]? with
      | some (some true) => some (.error .clusterClosed)
      | some (some false) => some <| .ok
          { s with program := s.program.exitCluster, clusters := s.clusters.set index (some true) }
      | _ => none
  | .destroy index =>
      match s.clusters[index]? with
      | some (some true) => some (.ok { s with clusters := s.clusters.set index none })
      | some (some false) => some <| .ok
          { s with program := s.program.exitCluster, clusters := s.clusters.set index none }
      | _ => none
  | .make node primitive =>
      if primitive.isUnlooped ∧ ∀ tiv ∈ primitive.reads, tiv ∈ s.nodes then
        match s.refuses primitive with
        | some failure => some (.error failure)
        | none => (s.program.step (primitive.apiStep node)).map fun program => .ok
            { s with program := program, primitive := Function.update s.primitive node primitive }
      else none
  | .loop this tiv => if this ∈ s.nodes ∧ tiv ∈ s.nodes then s.loop this tiv else none
  | .listen tiv =>
      if tiv ∈ s.nodes then some <| .ok
        { s with listeners := Function.update s.listeners tiv (s.listeners tiv + 1) }
      else none

/-- A program as it is run up to its `build`, or up to the first call that is refused. -/
def run : Source V → List (Call V) → Option (Except ApiFailure (Source V))
  | s, [] => some (.ok s)
  | s, call :: calls =>
      match s.call call with
      | some (.ok s) => run s calls
      | some (.error failure) => some (.error failure)
      | none => none

end Source

namespace Primitive

variable {ι κ V : Type}

/-- The same primitive of values under other names. -/
def map (f : ι → κ) : Primitive ι V → Primitive κ V
  | streamSink => .streamSink
  | cellSink v => .cellSink v
  | cell v => .cell v
  | streamMap g s => .streamMap g (f s)
  | merge g s1 s2 => .merge g (f s1) (f s2)
  | filter g s => .filter g (f s)
  | snapshot g s cs => .snapshot g (f s) (cs.map f)
  | gate truth s c => .gate truth (f s) (f c)
  | hold v s => .hold v (f s)
  | cellMap g c => .cellMap g (f c)
  | lift g cs => .lift g (cs.map f)
  | streamLoop looped => .streamLoop (looped.map f)
  | cellLoop looped => .cellLoop (looped.map f)
  | globalCellLoop looped => .globalCellLoop (looped.map f)

variable {f : ι → κ} (p : Primitive ι V)

@[simp]
theorem isSink_map : (p.map f).isSink = p.isSink := by
  cases p <;> rfl

@[simp]
theorem isLoop_map : (p.map f).isLoop = p.isLoop := by
  cases p <;> rfl

@[simp]
theorem links_map : (p.map f).links = p.links.map f := by
  cases p <;> simp [map, links, listenTo, childTo]

@[simp]
theorem listens_map : (p.map f).listens = p.listens.map f := by
  cases p <;> simp [map, listens, listenTo, listenOverLoop, globalListen, Option.toList_map]

@[simp]
theorem listenOverLoop_map : (p.map f).listenOverLoop = p.listenOverLoop.map f := by
  cases p <;> simp [map, listenOverLoop, Option.toList_map]

/-- Names that go out and come back leave a primitive as it is. -/
theorem map_map_of_reads {g : κ → ι} (h : ∀ x ∈ p.reads, g (f x) = x) : (p.map f).map g = p := by
  have hlist : ∀ l : List ι, (∀ x ∈ l, g (f x) = x) → l.map (g ∘ f) = l := fun l hl =>
    (List.map_congr_left hl).trans (List.map_id l)
  have hlooped : ∀ looped : Option ι, (∀ x, looped = some x → g (f x) = x) →
      looped.map (g ∘ f) = looped := by
    intro looped hl
    cases looped <;> simp_all
  cases p <;> simp_all [map, reads, listens, listenTo, listenOverLoop, globalListen, childTo]

end Primitive

/-- `G` is the graph of the program once `built` is what the build has made of its nodes. A value is
named by the address of its node; the address of the value itself may be another one. -/
structure Source.Describes {ι V : Type} (s : Source V) (built : NodeManager) (node : ι → ℕ)
    (G : Graph ι V) : Prop where
  nodes : G.nodes.map node = s.nodes
  primitive : ∀ x, (G.primitive x).map node = s.primitive (node x)
  listners : ∀ x, (G.listners x).map node = s.program.listners (node x)
  listeners : ∀ x, G.listeners x = s.listeners (node x)
  clusterId : ∀ x, G.clusterId x = (built.heap (node x)).clusterId
  inClusterRank : ∀ x, G.inClusterRank x = (built.heap (node x)).inClusterRank
  clusterRanks : ∀ c, G.clusterRanks c = built.clusterRanks[c]?.getD Rank.zero

end Prf
