import Prf.Proof.Termination

/-!
# What is kept about a transaction

The `Executor` keeps three books by transaction id, and the planner a state for each transaction.
Proposals that come late find the id erased and must not enter it again. They do not: every entry is
about a transaction that is on its way, so a program at rest keeps nothing about those that are over.
-/

namespace Prf

variable {ι V : Type} [DecidableEq ι] {G : Graph ι V} {planner : Planner} {first : ID}

namespace State

variable {s : State ι V} {registered : ID} {T : ID}

/-- Hooks are buffered by tasks, and a task that has not ended keeps its transaction from being
finalised. -/
theorem Reached.mem_transactions_of_buffered (h : Reached planner G first s) :
    ∀ T, s.executor.beforeUpdateHooksBuffers T ≠ [] → T ∈ s.executor.transactions := by
  induction h with
  | refl => exact fun T hbuffered => absurd rfl hbuffered
  | @tail s s' hreach hstep ih =>
      intro T' hbuffered
      cases hstep
      case handleExecute => exact Finset.mem_insert_of_mem (ih T' hbuffered)
      case finalize T _ _ _ _ _ _ =>
        have hne : T' ≠ T := by
          rintro rfl
          exact hbuffered (Function.update_self ..)
        refine Finset.mem_erase.mpr ⟨hne, ih T' fun hnil => hbuffered ?_⟩
        exact (Function.update_of_ne hne ..).trans hnil
      case buffer i T c futures hooks hi =>
        by_cases heq : T' = T
        · subst heq
          obtain ⟨registered, hsim⟩ := Reached.simulated hreach
          have hphase := phaseOf_of_getElem? hsim.wellFormed.tasks_nodup hi
          exact (hsim.task_bounds hphase nofun).1
        · apply ih T'
          simpa only [Function.update_of_ne heq] using hbuffered
      all_goals exact ih T' hbuffered

omit [DecidableEq ι] in
theorem Simulated.notMem_finalized (h : Simulated planner G first s registered s.oldest)
    (hT : T ∈ s.executor.transactions) : T ∈ s.committed ∧ T ∉ s.finalized := by
  obtain ⟨hle, -, hcommitted⟩ := h.inv.core.queues.transactions T hT
  refine ⟨hcommitted, fun hfinalized => ?_⟩
  exact absurd (h.mem_finalized.mp hfinalized).2 (not_lt.mpr hle)

theorem Reached.mem_transactions_of_atRest (h : Reached planner G first s)
    (hrest : AtRest G planner s) :
    T ∈ s.executor.transactions ↔ T ∈ s.committed ∧ T ∉ s.finalized := by
  obtain ⟨registered, hsim⟩ := h.simulated
  refine ⟨hsim.notMem_finalized, fun ⟨hcommitted, hfinalized⟩ => ?_⟩
  obtain ⟨hfirst, -, hcases⟩ := hsim.inv.core.queues.committed T hcommitted
  rcases hcases with hlt | hrunning | hwaiting
  · exact absurd (hsim.mem_finalized.mpr ⟨hfirst, hlt⟩) hfinalized
  · exact hrunning
  · have hquiet := (h.quiescent hrest registered).executorMessages
    rw [hquiet] at hwaiting
    cases hwaiting

theorem Reached.transactionStates_of_atRest (h : Reached planner G first s)
    (hrest : AtRest G planner s) :
    s.planner.transactionStates.map TransactionState.transactionId =
      List.range' s.oldest (s.nextTransactionId - s.oldest) := by
  obtain ⟨registered, hsim⟩ := h.simulated
  have hinv := hsim.inv
  have hquiet := h.quiescent hrest registered
  have hexact : Protocol.Exact G.clusterRanks (s.abstract registered s.oldest)
      (s.abstract registered s.oldest).planner.transactionStates := by
    have hview := hinv.view
    simpa [Protocol.State.unhandled, hquiet.received, hquiet.plannerMessages, Replica.Lags]
      using hview
  have hregistered : registered = s.nextTransactionId := by
    have hregistrations := hinv.core.queues.registrations
    have hle := hinv.core.queues.registered_le
    rw [hquiet.executorMessages] at hregistrations
    have hlength := congrArg List.length hregistrations
    simp only [List.filterMap_nil, List.length_nil, List.length_range'] at hlength
    exact le_antisymm hle (Nat.sub_eq_zero_iff_le.mp hlength.symm)
  refine List.ext_getElem ?_ fun i hi hi' => ?_
  · rw [List.length_map, List.length_range', ← hregistered]
    exact hexact.1
  · rw [List.getElem_map, List.getElem_range', one_mul]
    rw [List.length_map] at hi
    exact (hexact.2 i _ (List.getElem?_eq_getElem hi)).transactionId

/-- Nothing is kept about a transaction that is over: in every run all entries of the books are about
transactions that are committed and not finalised, and a task that has not ended finds its transaction
in them. A program at rest keeps exactly those that wait for an older one, and nothing at all when
every transaction is committed. -/
theorem books {actions : List (Action ι V)}
    (hrun : run G planner (State.init G first) actions = some s) :
    (∀ T, T ∈ s.executor.transactions ∨ s.executor.transactionUpdatings T ≠ ∅ ∨
        s.executor.beforeUpdateHooksBuffers T ≠ [] → T ∈ s.committed ∧ T ∉ s.finalized) ∧
      (∀ task ∈ s.tasks, task.phase ≠ .finished → task.transactionId ∈ s.executor.transactions) ∧
      (AtRest G planner s →
        (∀ T, T ∈ s.executor.transactions ↔ T ∈ s.committed ∧ T ∉ s.finalized) ∧
        s.planner.transactionStates.map TransactionState.transactionId =
          List.range' s.oldest (s.nextTransactionId - s.oldest) ∧
        ((∀ T, first ≤ T → T < s.nextTransactionId → T ∈ s.committed) →
          s.executor.transactions = ∅ ∧ (∀ T, s.executor.transactionUpdatings T = ∅) ∧
            (∀ T, s.executor.beforeUpdateHooksBuffers T = []) ∧
            s.planner.transactionStates = [])) := by
  have hreach : Reached planner G first s := steps_of_run hrun
  obtain ⟨registered, hsim⟩ := hreach.simulated
  have hentry : ∀ T, T ∈ s.executor.transactions ∨ s.executor.transactionUpdatings T ≠ ∅ ∨
      s.executor.beforeUpdateHooksBuffers T ≠ [] → T ∈ s.executor.transactions := by
    rintro T (hrunning | hupdating | hbuffered)
    · exact hrunning
    · obtain ⟨c, hc⟩ := Finset.nonempty_iff_ne_empty.mpr hupdating
      exact ((hsim.inv.core.tasks.updatings T c).mp hc).1
    · exact hreach.mem_transactions_of_buffered T hbuffered
  refine ⟨fun T hT => hsim.notMem_finalized (hentry T hT), fun task htask hphase => ?_,
    fun hrest => ?_⟩
  · obtain ⟨i, hi⟩ := List.mem_iff_getElem?.mp htask
    exact (hsim.task_bounds (phaseOf_of_getElem? hsim.wellFormed.tasks_nodup hi) hphase).1
  refine ⟨fun T => hreach.mem_transactions_of_atRest hrest, hreach.transactionStates_of_atRest hrest,
    fun hcommitted => ?_⟩
  have hnone : ∀ T, T ∉ s.executor.transactions := by
    intro T hT
    obtain ⟨hcommit, hfinalized⟩ := hsim.notMem_finalized hT
    have hbounds := hsim.inv.core.queues.committed T hcommit
    refine hfinalized ((hreach.mem_finalized_of_atRest hrest hbounds.1).mpr fun T' hfirst hle => ?_)
    exact hcommitted T' hfirst (hle.trans_lt hbounds.2.1)
  have hdone : s.nextTransactionId ≤ s.oldest := by
    by_contra hlt
    have hfirst := hsim.inv.core.queues.first_le
    exact hsim.reachable.oldest_open (hreach.quiescent hrest registered)
      (hcommitted s.oldest hfirst (not_le.mp hlt))
  refine ⟨Finset.eq_empty_iff_forall_notMem.mpr hnone, fun T => ?_, fun T => ?_, ?_⟩
  · exact by_contra fun hne => hnone T (hentry T (.inr (.inl hne)))
  · exact by_contra fun hne => hnone T (hentry T (.inr (.inr hne)))
  · have hstates := hreach.transactionStates_of_atRest hrest
    rw [Nat.sub_eq_zero_of_le hdone] at hstates
    exact List.map_eq_nil_iff.mp hstates

def atBehindOpen : State (Fin 3) ℕ :=
  (run sinkMapHold .rankBased (State.init sinkMapHold 0)
    (played sinkMapHold .rankBased behindOpen 100)).getD (State.init sinkMapHold 0)

theorem run_behindOpen :
    run sinkMapHold .rankBased (State.init sinkMapHold 0)
      (played sinkMapHold .rankBased behindOpen 100) = some atBehindOpen := by
  have hsome : (run sinkMapHold .rankBased (State.init sinkMapHold 0)
      (played sinkMapHold .rankBased behindOpen 100)).isSome := by
    decide +kernel
  obtain ⟨s, hs⟩ := Option.isSome_iff_exists.mp hsome
  rw [atBehindOpen, hs, Option.getD_some]

theorem books_sinkMapHold :
    AtRest sinkMapHold .rankBased atBehindOpen ∧ 2 ∈ atBehindOpen.executor.transactions ∧
      (∀ T, T ∈ atBehindOpen.executor.transactions ↔
        T ∈ atBehindOpen.committed ∧ T ∉ atBehindOpen.finalized) ∧
      atBehindOpen.planner.transactionStates.map TransactionState.transactionId = [1, 2] ∧
      (sinkMapHoldAt 37).executor.transactionUpdatings 1 ≠ ∅ ∧
      (∀ T, T ∈ (sinkMapHoldAt 37).executor.transactions ∨
          (sinkMapHoldAt 37).executor.transactionUpdatings T ≠ ∅ ∨
          (sinkMapHoldAt 37).executor.beforeUpdateHooksBuffers T ≠ [] →
        T ∈ (sinkMapHoldAt 37).committed ∧ T ∉ (sinkMapHoldAt 37).finalized) := by
  have hrest : AtRest sinkMapHold .rankBased atBehindOpen :=
    atRest_of_internalActions (by decide +kernel)
  obtain ⟨hentry, -, -⟩ := books (run_sinkMapHoldAt 37 (by decide +kernel))
  obtain ⟨-, -, hkept⟩ := books run_behindOpen
  refine ⟨hrest, by decide +kernel, (hkept hrest).1, ?_, by decide +kernel, hentry⟩
  rw [(hkept hrest).2.1]
  decide +kernel

end State

end Prf
