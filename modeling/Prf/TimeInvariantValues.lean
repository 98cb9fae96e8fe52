import Prf.Types
import Prf.Library.OrderedMap

/-!
# Streams and cells

The dependency graph as it stands after the build, and the values stored in it: `stream.hpp`,
`cell.hpp` and `time_invariant_values.cpp`. `ι` is the type of `TimeInvariantValues *`, `V` one type
for the values of every `Stream<T>` and `Cell<T>`.
-/

namespace Prf

/-- What ends the process: the `failure_log` texts of the updaters and of `refresh`, and the two
places where the behaviour of C++ itself is not defined. -/
inductive Failure where
  | noValueForMap
  | noValueAtTime
  | invalidUpdater
  | notSetInTransaction
  | emptyFunction
  | emptyOptional
  | emptyMap
deriving DecidableEq, Repr

/-- The text `failure_log` prints. -/
def Failure.message : Failure → Option String
  | .noValueForMap => some "mapメソッドでトランザクションに対応する値がありませんでした"
  | .noValueAtTime => some "論理時刻に対応する値がStreamに存在しませんでした"
  | .invalidUpdater => some "無効なupdaterが登録されています"
  | .notSetInTransaction => some "このトランザクションで新しく値が設定されていません"
  | .emptyFunction => none
  | .emptyOptional => none
  | .emptyMap => none

/-- How a time-varying value was made. The families `snapshot` and `lift` of one to ten cells are
one constructor each, over the list of their cells. A loop holds what it was looped to, if it was. -/
inductive Primitive (ι V : Type) where
  | streamSink
  | cellSink (initialValue : V)
  | cell (initialValue : V)
  | streamMap (f : V → V) (s : ι)
  | merge (f : V → V → V) (s1 s2 : ι)
  | filter (f : V → Bool) (s : ι)
  | snapshot (f : V → List V → V) (s : ι) (cs : List ι)
  | gate (truth : V → Bool) (s c : ι)
  | hold (initialValue : V) (s : ι)
  | cellMap (f : V → V) (c : ι)
  | lift (f : List V → V) (cs : List ι)
  | streamLoop (looped : Option ι)
  | cellLoop (looped : Option ι)
  | globalCellLoop (looped : Option ι)

/-- The closure `GlobalCellLoop::loop` registers: `values[id] = res` on the looping cell. -/
structure Hook (ι V : Type) where
  cell : ι
  value : V

namespace Primitive

variable {ι V : Type}

/-- `CellInternal` rather than `StreamInternal`. -/
def isCell : Primitive ι V → Bool
  | cellSink _ | cell _ | hold _ _ | cellMap _ _ | lift _ _ | cellLoop _ | globalCellLoop _ => true
  | _ => false

/-- `StreamSink` and `CellSink`: the values user code may send to. -/
def isSink : Primitive ι V → Bool
  | streamSink | cellSink _ => true
  | _ => false

def isLoop : Primitive ι V → Bool
  | streamLoop _ | cellLoop _ | globalCellLoop _ => true
  | _ => false

def isGlobalCellLoop : Primitive ι V → Bool
  | globalCellLoop _ => true
  | _ => false

/-- The value the constructor hands to `Executor::after_build_hooks`. -/
def initialValue : Primitive ι V → Option V
  | cellSink v | cell v | hold v _ => some v
  | _ => none

/-- The arguments of `TimeInvariantValues::listen`. -/
def listenTo : Primitive ι V → List ι
  | streamMap _ s | filter _ s | snapshot _ s _ | gate _ s _ | hold _ s => [s]
  | merge _ s1 s2 => [s1, s2]
  | cellMap _ c => [c]
  | lift _ cs => cs
  | _ => []

/-- The arguments of `TimeInvariantValues::child_to`. -/
def childTo : Primitive ι V → List ι
  | snapshot _ _ cs => cs
  | gate _ _ c => [c]
  | _ => []

/-- The argument of `TimeInvariantValues::listen_over_loop`. -/
def listenOverLoop : Primitive ι V → List ι
  | streamLoop looped | cellLoop looped => looped.toList
  | _ => []

/-- The argument of `TimeInvariantValues::global_listen`. -/
def globalListen : Primitive ι V → List ι
  | globalCellLoop looped => looped.toList
  | _ => []

/-- The values whose `listners` hold this one. -/
def listens (p : Primitive ι V) : List ι :=
  p.listenTo ++ p.listenOverLoop ++ p.globalListen

/-- The values whose node has this one's node as a child (`Node::link_to`). -/
def links (p : Primitive ι V) : List ι :=
  p.listenTo ++ p.childTo

/-- Everything the updater samples. -/
def reads (p : Primitive ι V) : List ι :=
  p.listens ++ p.childTo

/-- `unsafeSample`. -/
def unsafeSample (sample : ι → Option V) (x : ι) : Except Failure V :=
  match sample x with
  | none => .error .noValueAtTime
  | some v => .ok v

/-- The `updater` closure of a value, run with the samples of the current transaction. The list is
what it passes to `register_before_update_hook`. -/
def updater (self : ι) (sample : ι → Option V) :
    Primitive ι V → Except Failure (Option V × List (Hook ι V))
  | streamSink => .error .invalidUpdater
  | cellSink _ | cell _ => .ok (none, [])
  | streamMap f s =>
      match sample s with
      | none => .error .noValueForMap
      | some v => .ok (some (f v), [])
  | merge f s1 s2 =>
      match sample s1, sample s2 with
      | some v1, some v2 => .ok (some (f v1 v2), [])
      | some v1, none => .ok (some v1, [])
      | none, some v2 => .ok (some v2, [])
      -- `**v1` of an absent `v1`
      | none, none => .error .emptyOptional
  | filter f s => do
      let res ← unsafeSample sample s
      return (if f res then some res else none, [])
  | snapshot f s cs => do
      let v ← unsafeSample sample s
      return ((cs.mapM sample).map (f v), [])
  | gate truth s c =>
      match sample c with
      | none => .ok (none, [])
      | some value =>
          if truth value then do
            let v ← unsafeSample sample s
            return (some v, [])
          else .ok (none, [])
  | hold _ s => do
      let res ← unsafeSample sample s
      return (some res, [])
  | cellMap f c => do
      let value ← unsafeSample sample c
      return (some (f value), [])
  | lift f cs => .ok ((cs.mapM sample).map f, [])
  | streamLoop none => .error .invalidUpdater
  | streamLoop (some s) => do
      let res ← unsafeSample sample s
      return (some res, [])
  | cellLoop none => .error .emptyFunction
  | cellLoop (some c) => do
      let res ← unsafeSample sample c
      return (some res, [])
  | globalCellLoop none => .error .emptyFunction
  | globalCellLoop (some c) => do
      let res ← unsafeSample sample c
      return (none, [⟨self, res⟩])

end Primitive

/-- The built graph. The proof fields say what `listen`, `listen_over_loop`, `global_listen` and
`Node::loop_child_to` establish: `listners` are exactly the listening values, and a loop does not
leave its cluster. -/
structure Graph (ι V : Type) where
  /-- every value, in the order in which the constructors registered it -/
  nodes : List ι
  primitive : ι → Primitive ι V
  /-- the address in the pointer -/
  addr : ι → ℕ
  clusterId : ι → ID
  inClusterRank : ι → Rank
  clusterRanks : ID → Rank
  listners : ι → List ι
  /-- how many functions outside the graph listen to the value -/
  listeners : ι → ℕ
  nodes_nodup : nodes.Nodup
  mem_nodes : ∀ x, x ∈ nodes
  addr_injective : ∀ x y, addr x = addr y → x = y
  mem_listners : ∀ x y, y ∈ listners x ↔ x ∈ (primitive y).listens
  loop_cluster : ∀ x y, x ∈ (primitive y).listenOverLoop → clusterId x = clusterId y

/-- `StreamInternal::values` and `CellInternal::values` of every value. -/
abbrev Store (ι V : Type) := ι → Map V

/-- One call of a function outside the graph, made by `finalize`. -/
structure Delivery (ι V : Type) where
  source : ι
  listener : ℕ
  value : V

/-- `StreamInternal::sample`. -/
def StreamInternal.sample {V : Type} (values : Map V) (transactionId : ID) : Option V :=
  values[transactionId]?

/-- `CellInternal::sample`: the entry before `upper_bound(transaction_id)`. -/
def CellInternal.sample {V : Type} (values : Map V) (transactionId : ID) : Option V :=
  OrderedMap.floor? values transactionId

/-- `StreamInternal::refresh`. -/
def StreamInternal.refresh {V : Type} (values : Map V) (transactionId : ID) : Map V :=
  values.erase transactionId

/-- The loop of `CellInternal::refresh`. Its list holds what is still in the map, so its head is
`values.begin()`. -/
def CellInternal.refreshLoop {V : Type} (transactionId : ID) :
    List (ID × V) → Map V → Except Failure (Map V)
  | [], _ => .error .emptyMap
  | (id, _) :: rest, values =>
      if id < transactionId then refreshLoop transactionId rest (values.erase id)
      else .ok values

/-- `CellInternal::refresh`. -/
def CellInternal.refresh {V : Type} (values : Map V) (transactionId : ID) :
    Except Failure (Map V) :=
  if transactionId ∈ values then refreshLoop transactionId values.toList values
  else .error .notSetInTransaction

namespace Graph

variable {ι V : Type} (G : Graph ι V)

/-- The order in which a loop over a `std::set<TimeInvariantValues *>` visits its elements. -/
def byAddress : List ι :=
  G.nodes.insertionSort fun x y => G.addr x ≤ G.addr y

/-- The elements of a `std::set<TimeInvariantValues *>` in ascending address order. -/
def sorted [DecidableEq ι] (s : Finset ι) : List ι :=
  G.byAddress.filter (· ∈ s)

/-- The hooks the constructors left in `Executor::after_build_hooks`. -/
def afterBuildHooks : List (ι × V) :=
  G.nodes.filterMap fun x => (G.primitive x).initialValue.map (x, ·)

/-- `sample` of the internal of a value. -/
def sample (store : Store ι V) (transactionId : ID) (x : ι) : Option V :=
  if (G.primitive x).isCell then CellInternal.sample (store x) transactionId
  else StreamInternal.sample (store x) transactionId

/-- `refresh` of the internal of a value. -/
def refresh (store : Store ι V) (transactionId : ID) (x : ι) : Except Failure (Map V) :=
  if (G.primitive x).isCell then CellInternal.refresh (store x) transactionId
  else .ok (StreamInternal.refresh (store x) transactionId)

/-- `finalize` of the internal of a value: one call for each outside listener. -/
def finalize (store : Store ι V) (transactionId : ID) (x : ι) :
    Except Failure (List (Delivery ι V)) := do
  let value ← Primitive.unsafeSample (G.sample store transactionId) x
  return (List.range (G.listeners x)).map fun i => ⟨x, i, value⟩

theorem mem_byAddress (x : ι) : x ∈ G.byAddress :=
  (List.mem_insertionSort _).mpr (G.mem_nodes x)

theorem byAddress_nodup : G.byAddress.Nodup :=
  (List.perm_insertionSort _ _).nodup_iff.mpr G.nodes_nodup

@[simp]
theorem mem_sorted [DecidableEq ι] {s : Finset ι} {x : ι} : x ∈ G.sorted s ↔ x ∈ s := by
  simp [sorted, G.mem_byAddress]

end Graph

end Prf
