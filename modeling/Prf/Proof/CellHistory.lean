import Prf.Proof.Store

/-!
# A cell keeps what can still be asked for

One `CellInternal` under the sends of any number of transactions at a time and the finalisations in
the order of their ids. `refresh` erases everything below the finalised transaction, but only if
that transaction has sent the cell, so the newest of the erased versions always has a successor that
every later sample finds first.
-/

namespace Prf

variable {V : Type}

/-- What happens to one `CellInternal`. -/
inductive CellOperation (V : Type) where
  | send (transactionId : ID) (value : V)
  | finalize (transactionId : ID)

/-- A `CellInternal`, and the transactions that have it among their `cleanups`. -/
structure CellHistory (V : Type) where
  values : Map V
  senders : Finset ID

namespace CellHistory

/-- Before the first operation. -/
def empty : CellHistory V := ⟨∅, ∅⟩

/-- `CellInternal::send`, and what `InnerTransaction::finalize` does to the cell. -/
def apply (refresh : Map V → ID → Except Failure (Map V)) (cell : CellHistory V) :
    CellOperation V → Except Failure (CellHistory V)
  | .send T value => .ok ⟨cell.values.insert T value, insert T cell.senders⟩
  | .finalize T =>
      if T ∈ cell.senders then (refresh cell.values T).map fun values => { cell with values := values }
      else .ok cell

/-- `refresh` if it never erased anything. -/
def keepAll (values : Map V) (_ : ID) : Except Failure (Map V) := .ok values

section Graph

variable {ι : Type} [DecidableEq ι] {G : Graph ι V} {store store' : Store ι V}
  {t : InnerTransaction ι V} {x : ι} {cell : CellHistory V}

/-- The operations are what `send` and `InnerTransaction::finalize` do to one cell of a graph. -/
theorem apply_send (hvalues : cell.values = store x) (value : V) :
    cell.apply CellInternal.refresh (.send t.id value) =
      .ok ⟨(G.send x value store t).1 x, insert t.id cell.senders⟩ := by
  simp [apply, Graph.send, hvalues]

theorem apply_finalize {deliveries : List (Delivery ι V)} (hcell : (G.primitive x).isCell = true)
    (hvalues : cell.values = store x) (hsenders : t.id ∈ cell.senders ↔ x ∈ t.cleanups)
    (hfinalize : G.finalizeTransaction store t = .ok (store', deliveries)) :
    cell.apply CellInternal.refresh (.finalize t.id) = .ok { cell with values := store' x } := by
  obtain ⟨hrefresh, hkeep, -, -⟩ := Graph.finalizeTransaction_spec hfinalize
  by_cases hx : x ∈ t.cleanups
  · have hx' := hrefresh x hx
    rw [Graph.refresh, if_pos hcell] at hx'
    simp [apply, hsenders, hx, hvalues, hx', Except.map]
  · simp [apply, hsenders, hx, hkeep x hx, ← hvalues]

end Graph

end CellHistory

namespace CellOperation

/-- The last transaction finalised. -/
def finalized (last : Option ID) : CellOperation V → Option ID
  | .send _ _ => last
  | .finalize T => some T

/-- The last value each transaction has sent. -/
def sent (values : ID → Option V) : CellOperation V → ID → Option V
  | .send T value => Function.update values T (some value)
  | .finalize _ => values

/-- Sends are by transactions above the last finalised one, and finalisations go up. -/
def InOrder (last : Option ID) : CellOperation V → Prop
  | .send T _ => ∀ L ∈ last, L < T
  | .finalize T => ∀ L ∈ last, L < T

/-- Every operation is in order after the ones before it. -/
def AllInOrder (last : Option ID) : List (CellOperation V) → Prop
  | [] => True
  | operation :: operations =>
      operation.InOrder last ∧ AllInOrder (operation.finalized last) operations

end CellOperation

open CellOperation

/-- The pruned cell is the full one above some version that a finalised transaction has sent. -/
structure Pruned (last : Option ID) (sent : ID → Option V) (cell full : CellHistory V) : Prop where
  values : ∀ T : ID, full.values[T]? = sent T
  senders : ∀ T, T ∈ full.senders ↔ T ∈ full.values
  same : cell.senders = full.senders
  bound : (∀ T : ID, cell.values[T]? = full.values[T]?) ∨
    ∃ k ∈ full.values, (∃ L ∈ last, k ≤ L) ∧
      ∀ T : ID, cell.values[T]? = if T < k then none else full.values[T]?

namespace Pruned

variable {last : Option ID} {values : ID → Option V} {cell full : CellHistory V}

theorem empty : Pruned none (fun _ => none) (.empty : CellHistory V) .empty := by
  constructor <;> simp [CellHistory.empty]

theorem send (h : Pruned last values cell full) (T : ID) (value : V)
    (horder : ∀ L ∈ last, L < T) :
    Pruned last (Function.update values T (some value))
      ⟨cell.values.insert T value, insert T cell.senders⟩
      ⟨full.values.insert T value, insert T full.senders⟩ := by
  have hinsert : ∀ (m : Map V) (k : ID),
      (m.insert T value)[k]? = if k = T then some value else m[k]? := by
    intro m k
    rw [Std.ExtTreeMap.getElem?_insert]
    simp only [Std.compare_eq_iff_eq, @eq_comm _ T k]
  constructor
  · intro k
    rw [hinsert, h.values, Function.update_apply]
  · intro k
    simp only [Finset.mem_insert, h.senders, Std.ExtTreeMap.mem_insert, Std.compare_eq_iff_eq,
      @eq_comm _ T k]
  · rw [h.same]
  · refine h.bound.imp (fun heq k => by rw [hinsert, hinsert, heq]) ?_
    rintro ⟨k, hk, ⟨L, hL, hle⟩, hdrop⟩
    refine ⟨k, Std.ExtTreeMap.mem_insert.mpr (.inr hk), ⟨L, hL, hle⟩, fun j => ?_⟩
    rw [hinsert, hinsert, hdrop]
    by_cases hj : j = T
    · have hlt := horder L hL
      rw [if_pos hj, if_neg (by lia), if_pos hj]
    · rw [if_neg hj, if_neg hj]

theorem refresh (h : Pruned last values cell full) {T : ID} (hsent : T ∈ full.senders)
    (horder : ∀ L ∈ last, L < T) :
    ∃ kept, CellInternal.refresh cell.values T = .ok kept ∧
      Pruned (some T) values { cell with values := kept } full := by
  have hmem := (h.senders T).mp hsent
  have hT : cell.values[T]? = full.values[T]? := by
    rcases h.bound with heq | ⟨k, -, ⟨L, hL, hle⟩, hdrop⟩
    · exact heq T
    · have hlt := horder L hL
      rw [hdrop, if_neg (by lia)]
  have hcell : T ∈ cell.values := by
    rw [Std.ExtTreeMap.mem_iff_isSome_getElem?] at hmem ⊢
    rw [hT]
    exact hmem
  obtain ⟨kept, hkept⟩ := CellInternal.exists_refresh hcell
  refine ⟨kept, hkept, h.values, h.senders, h.same, .inr ⟨T, hmem, ⟨T, rfl, le_rfl⟩, fun j => ?_⟩⟩
  rw [CellInternal.refresh_getElem? hkept]
  by_cases hj : j < T
  · simp [hj]
  · rw [if_neg hj, if_neg hj]
    rcases h.bound with heq | ⟨k, -, ⟨L, hL, hle⟩, hdrop⟩
    · exact heq j
    · have hlt := horder L hL
      rw [hdrop, if_neg (by lia)]

theorem finalize (h : Pruned last values cell full) {T : ID} (horder : ∀ L ∈ last, L < T) :
    Pruned (some T) values cell full := by
  refine ⟨h.values, h.senders, h.same, h.bound.imp id ?_⟩
  rintro ⟨k, hk, ⟨L, hL, hle⟩, hdrop⟩
  exact ⟨k, hk, ⟨T, rfl, hle.trans (horder L hL).le⟩, hdrop⟩

theorem step (h : Pruned last values cell full) (operation : CellOperation V)
    (horder : operation.InOrder last) :
    ∃ cell' full', cell.apply CellInternal.refresh operation = .ok cell' ∧
      full.apply CellHistory.keepAll operation = .ok full' ∧
      Pruned (operation.finalized last) (operation.sent values) cell' full' := by
  cases operation with
  | send T value => exact ⟨_, _, rfl, rfl, h.send T value horder⟩
  | finalize T =>
      simp only [CellHistory.apply, h.same]
      by_cases hsent : T ∈ full.senders
      · obtain ⟨kept, hkept, hpruned⟩ := h.refresh hsent horder
        exact ⟨{ cell with values := kept }, full, by simp [hsent, hkept, Except.map, h.same],
          by simp [hsent, CellHistory.keepAll, Except.map], hpruned⟩
      · exact ⟨cell, full, by simp [hsent], by simp [hsent], h.finalize horder⟩

theorem run (h : Pruned last values cell full) (operations : List (CellOperation V))
    (horder : AllInOrder last operations) :
    ∃ cell' full', operations.foldlM (CellHistory.apply CellInternal.refresh) cell = .ok cell' ∧
      operations.foldlM (CellHistory.apply CellHistory.keepAll) full = .ok full' ∧
      Pruned (operations.foldl finalized last) (operations.foldl sent values) cell' full' := by
  induction operations generalizing last values cell full with
  | nil => exact ⟨cell, full, rfl, rfl, h⟩
  | cons operation operations ih =>
      obtain ⟨cell₁, full₁, hcell, hfull, hstep⟩ := h.step operation horder.1
      obtain ⟨cell₂, full₂, hcell', hfull', hrun⟩ := ih hstep horder.2
      refine ⟨cell₂, full₂, ?_, ?_, hrun⟩
      · rw [List.foldlM_cons, hcell]
        exact hcell'
      · rw [List.foldlM_cons, hfull]
        exact hfull'

theorem sample_eq (h : Pruned last values cell full) {T : ID} (hT : ∀ L ∈ last, L ≤ T) :
    CellInternal.sample cell.values T = CellInternal.sample full.values T := by
  rcases h.bound with heq | ⟨k, hk, ⟨L, hL, hle⟩, hdrop⟩
  · exact OrderedMap.floor?_congr fun k _ => heq k
  · exact OrderedMap.floor?_drop hdrop hk (hle.trans (hT L hL))

end Pruned

/-- **Cell history with pruning equals full history.** -/
theorem CellInternal.sample_pruned (operations : List (CellOperation V))
    (horder : AllInOrder none operations) :
    ∃ cell full,
      operations.foldlM (CellHistory.apply CellInternal.refresh) .empty = .ok cell ∧
      operations.foldlM (CellHistory.apply CellHistory.keepAll) .empty = .ok full ∧
      ∀ T, (∀ L ∈ operations.foldl finalized none, L ≤ T) →
        CellInternal.sample cell.values T = CellInternal.sample full.values T ∧
        (∀ value, CellInternal.sample cell.values T = some value ↔
          ∃ T' ≤ T, operations.foldl sent (fun _ => none) T' = some value ∧
            ∀ T'', T' < T'' → T'' ≤ T → operations.foldl sent (fun _ => none) T'' = none) ∧
        (CellInternal.sample cell.values T = none ↔
          ∀ T' ≤ T, operations.foldl sent (fun _ => none) T' = none) := by
  obtain ⟨cell, full, hcell, hfull, hpruned⟩ := Pruned.empty.run operations horder
  refine ⟨cell, full, hcell, hfull, fun T hT => ?_⟩
  rw [hpruned.sample_eq hT]
  refine ⟨rfl, fun value => ?_, ?_⟩
  · simp only [CellInternal.sample, OrderedMap.floor?_eq_some_iff, hpruned.values]
  · simp only [CellInternal.sample, OrderedMap.floor?_eq_none_iff, hpruned.values]

/-- Transaction 3 writes ahead of 2, and 2 is finalised without having sent the cell. -/
def overtaking : List (CellOperation ℕ) :=
  [.send 1 10, .send 3 30, .finalize 1, .finalize 2, .send 3 31]

theorem CellInternal.sample_pruned_overtaking :
    AllInOrder none overtaking ∧ ∃ cell,
      overtaking.foldlM (CellHistory.apply CellInternal.refresh) .empty = .ok cell ∧
      CellInternal.sample cell.values 2 = some 10 ∧ CellInternal.sample cell.values 3 = some 31 := by
  have horder : AllInOrder none overtaking := by
    simp [overtaking, AllInOrder, InOrder, CellOperation.finalized]
  obtain ⟨cell, full, hcell, -, h⟩ := CellInternal.sample_pruned overtaking horder
  refine ⟨horder, cell, hcell, ?_, ?_⟩
  · refine ((h 2 (by simp [overtaking, CellOperation.finalized])).2.1 10).mpr ⟨1, by decide, ?_, ?_⟩
    · simp [overtaking, CellOperation.sent]
    · intro T hlt hle
      obtain rfl : T = 2 := le_antisymm hle hlt
      simp [overtaking, CellOperation.sent]
  · refine ((h 3 (by simp [overtaking, CellOperation.finalized])).2.1 31).mpr ⟨3, le_rfl, ?_, ?_⟩
    · simp [overtaking, CellOperation.sent]
    · exact fun T hlt hle => absurd hlt (not_lt.mpr hle)

end Prf
