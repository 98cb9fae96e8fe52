import Prf.Proof.Sends
import Prf.Proof.Scheduling

/-!
# Deliveries

The functions outside the graph are called when a transaction is finalised, once for each value the
transaction has sent and each function that listens to it, with the last value sent. Transactions are
finalised in the order of their ids.
-/

namespace Prf

open Relation

variable {ι V : Type}

def Event.delivered? : Event ι V → Option (ID × Delivery ι V)
  | deliver T delivery => some (T, delivery)
  | _ => none

namespace State

/-- The calls of functions outside the graph, in order. -/
def delivered (s : State ι V) : List (ID × Delivery ι V) :=
  s.trace.filterMap Event.delivered?

variable [DecidableEq ι]

/-- One call for each value sent in `T` and each of its listeners, carrying the last value sent. -/
def deliveriesIn (G : Graph ι V) (s : State ι V) (T : ID) : List (ID × Delivery ι V) :=
  (G.byAddress.flatMap fun x => (lastSent s.trace T x).elim [] (G.deliveriesOf x)).map (T, ·)

variable {G : Graph ι V} {planner : Planner} {first : ID} {s s' : State ι V} {registered : ID}
  {actions : List (Action ι V)}

omit [DecidableEq ι] in
theorem delivered_append {events : List (Event ι V)} (htrace : s'.trace = s.trace ++ events)
    (hevents : ∀ event ∈ events, event.delivered? = none) : s'.delivered = s.delivered := by
  rw [delivered, htrace, Log.filterMap_append_silent hevents, delivered]

omit [DecidableEq ι] in
theorem delivered?_updateEvents (store : Store ι V) (T : ID) (x : ι) :
    ∀ event ∈ updateEvents G store T x, event.delivered? = none := by
  intro event hevent
  obtain rfl | ⟨value, rfl⟩ := mem_updateEvents hevent <;> rfl

theorem Simulated.lastSent_step (hsim : Simulated planner G first s registered s.oldest)
    (hstep : Step G planner s s') {T : ID} (hT : T < s.oldest) (x : ι) :
    lastSent s'.trace T x = lastSent s.trace T x := by
  cases hstep.writes with
  | nothing hsame => rw [hsame]
  | send hisOpen htrace =>
      rw [htrace, lastSent_topSend, if_neg]
      rintro ⟨rfl, -⟩
      exact absurd (hsim.open_waits hisOpen).2 (not_le.mpr hT)
  | update hupdates =>
      obtain ⟨c, sub, r, rest, hphase, -⟩ := hupdates.executing hsim.wellFormed.tasks_nodup
      rw [hupdates.trace_eq, lastSent_updateEvents, if_neg]
      rintro ⟨rfl, -⟩
      exact absurd (hsim.task_bounds hphase (by simp)).2.1 (not_le.mpr hT)
  | finalize _ _ _ htrace => rw [htrace, lastSent_finalize]

omit [DecidableEq ι] in
/-- When a transaction is finalised, all its targets have been updated. -/
theorem Simulated.target_finished (hsim : Simulated planner G first s registered s.oldest)
    {rest : List ExecutorMessage}
    (hfront : s.executorMessages = .finalizeTransaction s.oldest :: rest) {c : ID}
    (hkey : c ∈ (s.inner s.oldest).targetClusters) : s.phaseOf s.oldest c = some .finished := by
  obtain ⟨-, hlt | ⟨-, -, hdone⟩⟩ :=
    hsim.inv.core.offers.finalize s.oldest (by simp [abstract, hfront])
  · exact absurd hlt (lt_irrefl _)
  · have habstract := hdone c hkey
    simp only [abstract] at habstract
    cases hphase : s.phaseOf s.oldest c with
    | none => simp [hphase] at habstract
    | some phase => cases phase <;> simp_all [TaskPhase.abstract]

omit [DecidableEq ι] in
theorem Simulated.key_finished (hsim : Simulated planner G first s registered s.oldest)
    {rest : List ExecutorMessage}
    (hfront : s.executorMessages = .finalizeTransaction s.oldest :: rest) {c : ID} {y : ι}
    (hy : y ∈ (s.inner s.oldest).targetsOf c) : s.phaseOf s.oldest c = some .finished :=
  hsim.target_finished hfront
    (((s.inner s.oldest).mem_targetClusters c).mpr (InnerTransaction.mem_keys_of_mem_targetsOf hy))

omit [DecidableEq ι] in
theorem Simulated.finished (hsim : Simulated planner G first s registered s.oldest)
    {rest : List ExecutorMessage}
    (hfront : s.executorMessages = .finalizeTransaction s.oldest :: rest) {c : ID}
    {phase : TaskPhase ι V} (hphase : s.phaseOf s.oldest c = some phase) : phase = .finished := by
  have habstract : (s.abstract registered s.oldest).phase s.oldest c = some phase.abstract := by
    simp [abstract, hphase]
  have hkey := (hsim.inv.core.tasks.phase_key s.oldest c _ habstract).1
  exact Option.some.inj (hphase.symm.trans (hsim.target_finished hfront hkey))

theorem Simulated.mem_cleanups (hsim : Simulated planner G first s registered s.oldest)
    (hrecorded : Recorded G s) {rest : List ExecutorMessage}
    (hfront : s.executorMessages = .finalizeTransaction s.oldest :: rest) (x : ι) :
    x ∈ (s.inner s.oldest).cleanups ↔ lastSent s.trace s.oldest x ≠ none := by
  rw [hrecorded.cleanups s.oldest x, iff_self_or]
  rintro ⟨c, sub, hphase, -⟩
  cases hsim.finished hfront hphase

theorem Stored.getElem?_of_sent (h : Stored G s) {T : ID} {x : ι} {value : V} (hle : s.oldest ≤ T)
    (hsent : lastSent s.trace T x = some value) : (s.store x)[T]? = some value :=
  (h.kept x T value hsent).resolve_right fun hold => absurd hold.1 (not_lt.mpr hle)

theorem Stored.sample_of_sent (h : Stored G s) {T : ID} {x : ι} {value : V} (hle : s.oldest ≤ T)
    (hsent : lastSent s.trace T x = some value) : G.sample s.store T x = some value :=
  Graph.sample_of_getElem? (h.getElem?_of_sent hle hsent)

theorem Simulated.deliveries_eq (hsim : Simulated planner G first s registered s.oldest)
    (hrecorded : Recorded G s) {rest : List ExecutorMessage} {store : Store ι V}
    {deliveries : List (Delivery ι V)}
    (hfront : s.executorMessages = .finalizeTransaction s.oldest :: rest)
    (hfinalized : G.finalizeTransaction s.store (s.inner s.oldest) = .ok (store, deliveries)) :
    deliveries.map (s.oldest, ·) = deliveriesIn G s s.oldest := by
  obtain ⟨-, -, -, rfl⟩ := Graph.finalizeTransaction_spec hfinalized
  rw [deliveriesIn, Graph.sorted]
  congr 1
  have hcleanups := hsim.mem_cleanups hrecorded hfront
  induction G.byAddress with
  | nil => rfl
  | cons x xs ih =>
      rw [List.filter_cons, List.flatMap_cons, ← ih]
      cases hsent : lastSent s.trace s.oldest x with
      | none =>
          have hx : x ∉ (s.inner s.oldest).cleanups := by simp [hcleanups, hsent]
          simp [hx]
      | some value =>
          have hx : x ∈ (s.inner s.oldest).cleanups := by simp [hcleanups, hsent]
          have hsample := hrecorded.values.sample_of_sent le_rfl hsent
          rw [hsim.wellFormed.inner_id, if_pos (by simpa using hx), List.flatMap_cons, hsample]

theorem delivered_finalize (h : s.delivered = s.finalized.flatMap (deliveriesIn G s)) {T : ID}
    {deliveries : List (Delivery ι V)} {view : ι → Option V}
    (hdeliveries : deliveries.map (T, ·) = deliveriesIn G s T)
    (htrace : s'.trace = s.trace ++ deliveries.map (.deliver T) ++ [.finalize T view]) :
    s'.delivered = s'.finalized.flatMap (deliveriesIn G s') := by
  have hsame : deliveriesIn G s' = deliveriesIn G s := by
    funext T'
    simp only [deliveriesIn, htrace, lastSent_finalize]
  have hdelivered : s'.delivered = s.delivered ++ deliveries.map (T, ·) := by
    rw [delivered, htrace, List.filterMap_append, List.filterMap_append, List.filterMap_map,
      ← List.filterMap_eq_map]
    exact List.append_nil _
  calc s'.delivered = s.delivered ++ deliveries.map (T, ·) := hdelivered
    _ = s.finalized.flatMap (deliveriesIn G s) ++ deliveriesIn G s T := by rw [h, hdeliveries]
    _ = s'.finalized.flatMap (deliveriesIn G s') := by
      rw [finalized_finalize htrace, hsame, List.flatMap_append, List.flatMap_singleton]

theorem delivered_step (hreach : Reached planner G first s) (hstep : Step G planner s s')
    (h : s.delivered = s.finalized.flatMap (deliveriesIn G s)) :
    s'.delivered = s'.finalized.flatMap (deliveriesIn G s') := by
  obtain ⟨registered, hsim⟩ := hreach.simulated
  have hsame : ∀ T ∈ s.finalized, deliveriesIn G s' T = deliveriesIn G s T := by
    intro T hT
    have hlt := (hsim.mem_finalized.mp hT).2
    simp only [deliveriesIn, hsim.lastSent_step hstep hlt]
  have hunfinalized : s'.delivered = s.delivered → s'.finalized = s.finalized →
      s'.delivered = s'.finalized.flatMap (deliveriesIn G s') := by
    intro hdelivered hfinalized
    rw [hdelivered, hfinalized, h]
    exact List.flatMap_congr fun T hT => (hsame T hT).symm
  cases hstep.writes with
  | nothing hsame =>
      apply hunfinalized
      · rw [delivered, hsame, delivered]
      · rw [finalized, hsame, finalized]
  | send _ htrace =>
      apply hunfinalized
      · exact delivered_append htrace (by simp [Event.delivered?])
      · exact finalized_append htrace (by simp [Event.finalized?])
  | update hupdates =>
      apply hunfinalized
      · exact delivered_append hupdates.trace_eq (delivered?_updateEvents _ _ _)
      · exact finalized_append hupdates.trace_eq (finalized?_updateEvents _ _ _)
  | finalize hfront hrunning hfinalize htrace =>
      obtain rfl := hsim.finalize_oldest hfront hrunning
      exact delivered_finalize h (hsim.deliveries_eq hreach.recorded hfront hfinalize) htrace

theorem Reached.delivered_eq (h : Reached planner G first s) :
    s.delivered = s.finalized.flatMap (deliveriesIn G s) := by
  induction h with
  | refl => rfl
  | tail hreach hstep ih => exact delivered_step hreach hstep ih

/-- Transactions are committed before they are finalised, and finalised once each, in the order of
their ids, without a gap; and the calls of the functions outside the graph are, transaction after
transaction, one for each value sent in it and each of its listeners, carrying the last value sent. -/
theorem deliveries_in_order (hrun : run G planner (State.init G first) actions = some s) :
    s.finalized = List.range' first s.finalized.length ∧ (∀ T ∈ s.finalized, T ∈ s.committed) ∧
      s.delivered = s.finalized.flatMap (deliveriesIn G s) := by
  have hreach : Reached planner G first s := steps_of_run hrun
  obtain ⟨registered, hsim⟩ := hreach.simulated
  refine ⟨?_, fun T hT => ?_, hreach.delivered_eq⟩
  · conv_lhs => rw [hsim.finalized]
    rw [hsim.finalized, List.length_range']
  · obtain ⟨hfirst, hlt⟩ := hsim.mem_finalized.mp hT
    exact hsim.inv.core.queues.finalized T hfirst hlt

theorem deliveries_in_order_sinkMapHold :
    (sinkMapHoldAt 200).finalized = List.range' 0 (sinkMapHoldAt 200).finalized.length ∧
      (∀ T ∈ (sinkMapHoldAt 200).finalized, T ∈ (sinkMapHoldAt 200).committed) ∧
      (sinkMapHoldAt 200).delivered =
        (sinkMapHoldAt 200).finalized.flatMap (deliveriesIn sinkMapHold (sinkMapHoldAt 200)) :=
  deliveries_in_order (run_sinkMapHoldAt 200 (by decide +kernel))

end State

end Prf
