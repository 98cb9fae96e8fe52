import Prf.Proof.Retention
import Prf.Proof.Shutdown

/-!
# `stop_execution` comes to an end

Whatever the program is doing when `stop_execution` is called, each thread gets to its end after a
bounded number of moves: no message in hand and no task fails, and no thread waits for one that
waits for it.
-/

namespace Prf

variable {ι V : Type} [DecidableEq ι] {G : Graph ι V} {planner : Planner} {first : ID}

namespace State

variable {s s' : State ι V}

/-! ## What is in the hands of the loops -/

theorem planner_handleExecutorMessage {message : ExecutorMessage}
    (h : s.handleExecutorMessage G message = some s') :
    s'.planner = s.planner ∧ s.plannerMessages.length ≤ s'.plannerMessages.length := by
  cases message with
  | transactionExecute T | registerTransaction T =>
      obtain rfl := Option.some.inj h
      exact ⟨rfl, by simp⟩
  | startUpdateCluster T c =>
      simp only [handleExecutorMessage] at h
      split at h
      · obtain rfl := Option.some.inj h
        exact ⟨rfl, le_rfl⟩
      · split at h
        all_goals
          obtain rfl := Option.some.inj h
          exact ⟨rfl, le_rfl⟩
  | finalizeTransaction T =>
      simp only [handleExecutorMessage] at h
      split at h
      · obtain rfl := Option.some.inj h
        exact ⟨rfl, le_rfl⟩
      · split at h
        · cases h
        · obtain rfl := Option.some.inj h
          exact ⟨rfl, by simp⟩

theorem planner_runTask {i : ℕ} {task : Task ι V} (h : s.runTask G i task = some s') :
    s'.planner = s.planner ∧ s.plannerMessages.length ≤ s'.plannerMessages.length := by
  obtain ⟨T, c, phase⟩ := task
  cases phase with
  | executing sub =>
      simp only [runTask] at h
      split at h
      · obtain rfl := Option.some.inj h
        exact ⟨rfl, le_rfl⟩
      · split at h
        · cases h
        · obtain rfl := Option.some.inj h
          exact ⟨rfl, le_rfl⟩
  | finished => simp [runTask] at h
  | announced | registered =>
      obtain rfl := Option.some.inj h
      exact ⟨rfl, le_rfl⟩
  | queued | buffered =>
      obtain rfl := Option.some.inj h
      exact ⟨rfl, by simp [pushPlanner, setPhase]⟩

theorem received_of_step {action : Action ι V} (hreceive : action ≠ .plannerReceive)
    (hhandle : action ≠ .plannerHandle) (h : step G planner s action = some s') :
    s'.planner.received = s.planner.received ∧
      s.plannerMessages.length ≤ s'.plannerMessages.length := by
  cases action with
  | register =>
      obtain rfl := Option.some.inj h
      exact ⟨rfl, le_rfl⟩
  | afterBuildHook =>
      simp only [step] at h
      split at h
      · cases h
      · rw [Option.ite_none_right_eq_some] at h
        obtain rfl := Option.some.inj h.2
        exact ⟨rfl, le_rfl⟩
  | send T x value | commit T =>
      rw [step, Option.ite_none_right_eq_some] at h
      obtain rfl := Option.some.inj h.2
      exact ⟨rfl, le_rfl⟩
  | executor =>
      simp only [step] at h
      split at h
      · cases h
      · exact (planner_handleExecutorMessage h).imp_left fun hplanner => by rw [hplanner]
  | task i =>
      simp only [step] at h
      split at h
      · cases h
      · exact (planner_runTask h).imp_left fun hplanner => by rw [hplanner]
  | plannerReceive => exact absurd rfl hreceive
  | plannerHandle => exact absurd rfl hhandle
  | plannerPass =>
      simp only [step] at h
      split at h
      · cases h
      · obtain rfl := Option.some.inj h
        simp only [runPlanner]
        split <;> exact ⟨rfl, le_rfl⟩

end State

namespace Shutdown

variable {n : ℕ} {r r' : Shutdown n ι V} {m : Move n ι V}

structure Hands (r : Shutdown n ι V) : Prop where
  executor : r.executorLoop = .handles → 0 < r.pool.system.executorMessages.length
  plannerManager : r.plannerLoop = .handles →
    r.pool.system.planner.received = none ∧ 0 < r.pool.system.plannerMessages.length

theorem queues_of_pool_step {p p' : Pool n (State ι V)} {m : Pool.Move n (Action ι V)}
    (hstep : p.step (updateTasks G planner) m = some p') :
    (m.action? ≠ some .executor →
        p.system.executorMessages.length ≤ p'.system.executorMessages.length) ∧
      (m.action? ≠ some .plannerReceive → m.action? ≠ some .plannerHandle →
        p'.system.planner.received = p.system.planner.received ∧
          p.system.plannerMessages.length ≤ p'.system.plannerMessages.length) := by
  rcases Pool.system_of_step hstep with hsame | ⟨action, haction, hs⟩
  · simp [hsame]
  · have hs : State.step G planner p.system action = some p'.system := hs
    refine ⟨fun hother => ?_, fun hreceive hhandle => ?_⟩
    · refine State.length_executorMessages_le ?_ hs
      rintro rfl
      rcases haction with haction | ⟨i, hi⟩
      · exact hother haction
      · cases hi
    · refine State.received_of_step ?_ ?_ hs
      all_goals
        rintro rfl
        rcases haction with haction | ⟨i, hi⟩
      · exact hreceive haction
      · cases hi
      · exact hhandle haction
      · cases hi

theorem Hands.of_pool (h : r.Hands) {p : Pool n (State ι V)} {m : Pool.Move n (Action ι V)}
    (hexecutor : m.action? ≠ some .executor)
    (hmanager : r.plannerLoop = .handles →
      m.action? ≠ some .plannerReceive ∧ m.action? ≠ some .plannerHandle)
    (hpool : r.pool.step (updateTasks G planner) m = some p) : Hands { r with pool := p } := by
  obtain ⟨hqueue, hqueues⟩ := queues_of_pool_step hpool
  refine ⟨fun hloop => (h.executor hloop).trans_le (hqueue hexecutor), fun hloop => ?_⟩
  obtain ⟨hreceive, hhandle⟩ := hmanager hloop
  obtain ⟨hreceived, hle⟩ := hqueues hreceive hhandle
  obtain ⟨hnone, hlt⟩ := h.plannerManager hloop
  exact ⟨hreceived.trans hnone, hlt.trans_le hle⟩

theorem Hands.step (h : r.Hands) (hstep : Step G planner r m r') : r'.Hands := by
  cases hstep with
  | @user action p huser hpool =>
      have hother : ∀ internal : Action ι V, internal.isInternal = true →
          (Pool.Move.system action : Pool.Move n (Action ι V)).action? ≠ some internal := by
        rintro internal hinternal ⟨⟩
        simp [hinternal] at huser
      exact h.of_pool (hother _ rfl) (fun _ => ⟨hother _ rfl, hother _ rfl⟩) hpool
  | work hgoing hpool => exact h.of_pool (by simp [Pool.Move.action?]) (by simp [Pool.Move.action?]) hpool
  | pass hpool => exact h.of_pool (by simp [Pool.Move.action?]) (by simp [Pool.Move.action?]) hpool
  | managerHandles hloop hpool =>
      exact h.of_pool (by simp [Pool.Move.action?]) (by simp [hloop]) hpool
  | executorPops hloop hqueue => exact ⟨fun _ => List.length_pos_iff.mpr hqueue, h.plannerManager⟩
  | executorHandles hloop hpool =>
      obtain ⟨hreceived, hle⟩ := (queues_of_pool_step hpool).2 (by simp [Pool.Move.action?])
        (by simp [Pool.Move.action?])
      refine ⟨by simp, fun hhandles => ?_⟩
      obtain ⟨hnone, hlt⟩ := h.plannerManager hhandles
      exact ⟨hreceived.trans hnone, hlt.trans_le hle⟩
  | managerPops hloop hreceived hqueue =>
      exact ⟨h.executor, fun _ => ⟨hreceived, List.length_pos_iff.mpr hqueue⟩⟩
  | managerReceives hloop hpool =>
      have hle := (queues_of_pool_step hpool).1 (by simp [Pool.Move.action?])
      exact ⟨fun hhandles => (h.executor hhandles).trans_le hle, by simp⟩
  | executorStops | executorJoins | executorEnds => exact ⟨by simp, h.plannerManager⟩
  | managerStops | managerJoins | managerEnds => exact ⟨h.executor, by simp⟩
  | workerEnds | callStop | storesStop | waits | resets => exact ⟨h.executor, h.plannerManager⟩

/-! ## Nobody is stuck -/

theorem Inv.exists_workerMoves (h : r.Inv G planner first) (hflag : r.stopTheThreads = true)
    {w : Fin n} (hgoing : r.workerEnded w = false) : r.workerMoves G planner w ≠ none := by
  obtain ⟨moves, a, running, stop, hrun, hpool, -⟩ := h.exists_pool
  rw [workerMoves, if_neg (by simp [hgoing])]
  cases hbusy : r.pool.worker w with
  | none => simp [hflag]
  | some i =>
      have hmove : a.step (updateTasks G planner) (.worker w) ≠ none := by
        obtain ⟨taken, hinv⟩ := inv_of_pooled_run hrun
        have hbusy' : a.worker w = some i := by
          rw [hpool] at hbusy
          exact hbusy
        cases hended : (updateTasks G planner).ended a.system i with
        | true => simp [Pool.step, Pool.work, hbusy', hended]
        | false =>
            have hlt : i < a.system.tasks.length := (hinv.lt hbusy').trans_le hinv.le
            obtain ⟨task, htask⟩ : ∃ task, a.system.tasks[i]? = some task :=
              ⟨_, List.getElem?_eq_getElem hlt⟩
            have hphase : task.phase ≠ .finished := by
              intro hphase
              simp [updateTasks, htask, hphase, TaskPhase.isFinished] at hended
            obtain ⟨s', hs'⟩ := (reached_of_pooled_run hrun).exists_runTask htask hphase
            have hstep : (updateTasks G planner).step a.system ((updateTasks G planner).advance i) =
                some s' := by
              simp [updateTasks, State.step, htask, hs']
            simp [Pool.step, Pool.work, hbusy', hended, hstep]
      rw [poolMoves, hpool, pool_step_setPlanning _ _ (by simp [Pool.Move.action?])]
      simpa using hmove

theorem Inv.exists_executorMoves (h : r.Inv G planner first) (hands : r.Hands)
    (hflag : r.stopTheThreads = true) (hworkers : ∀ w, r.workerEnded w = true)
    (hloop : r.executorLoop ≠ .ended) : r.executorMoves G planner ≠ none := by
  unfold executorMoves
  cases hline : r.executorLoop with
  | pops => simp [hflag]
  | stopsPool => simp [hworkers]
  | returned => simp
  | ended => exact absurd hline hloop
  | handles =>
      obtain ⟨moves, a, running, stop, hrun, hpool, -⟩ := h.exists_pool
      have hqueue : 0 < a.system.executorMessages.length := by
        have hlength := hands.executor hline
        rw [hpool] at hlength
        exact hlength
      obtain ⟨message, rest, hfront⟩ := List.exists_cons_of_length_pos hqueue
      obtain ⟨s', hs'⟩ := (reached_of_pooled_run hrun).exists_handleExecutorMessage hfront
      have hmove : a.step (updateTasks G planner) (.system .executor) ≠ none := by
        simp [Pool.step, updateTasks, Action.isTask, State.step, hfront, hs']
      have hother : ∀ action, (Pool.Move.system .executor : Pool.Move n (Action ι V)).action? =
          some action → action.isPlanner = false := by
        rintro _ ⟨⟩
        rfl
      simp only [poolMoves, hpool, pool_step_setPlanning _ _ hother]
      simpa using hmove

theorem Inv.exists_plannerManagerMoves (h : r.Inv G planner first) (hands : r.Hands)
    (hflag : r.stopTheThreads = true) (hjoined : r.pool.system.planner.runningPlanner = none)
    (hloop : r.plannerLoop ≠ .ended) : r.plannerManagerMoves G planner ≠ none := by
  obtain ⟨moves, a, hrun, hfollows⟩ := h.follows
  unfold plannerManagerMoves
  cases hline : r.plannerLoop with
  | stopsPlanning => simp [hjoined]
  | returned => simp
  | ended => exact absurd hline hloop
  | pops =>
      obtain rfl := hfollows.eq_of_planning (.inl hline)
      cases hreceived : r.pool.system.planner.received with
      | none => simp [hflag]
      | some message =>
          obtain ⟨s', hs'⟩ := (reached_of_pooled_run hrun).exists_handlePlannerMessage hreceived
          simp [poolMoves, Pool.step, updateTasks, Action.isTask, State.step, hreceived, hjoined, hs']
  | handles =>
      obtain ⟨hreceived, hqueue⟩ := hands.plannerManager hline
      obtain ⟨message, rest, hfront⟩ := List.exists_cons_of_length_pos hqueue
      obtain ⟨s', hs'⟩ := r.pool.system.exists_receivePlannerMessage (G := G) message rest
      simp [poolMoves, Pool.step, updateTasks, Action.isTask, State.step, hreceived, hfront, hs']

/-- When all threads rest, `stop_execution` is not waiting for its first time. -/
theorem Inv.returned_of_rest (h : r.Inv G planner first) (hcounts : r.Counts) (hands : r.Hands)
    (hrest : ∀ m : Move n ι V, m.isOwn = true → r.step G planner m = none)
    (hcalled : r.returns = 1 ∨ r.callers ≠ []) : r.returns = 1 := by
  by_contra hreturns
  have hcalled := hcalled.resolve_left hreturns
  have hfirst : r.returns = 0 := by
    have honce := hcounts.once.1
    omega
  obtain ⟨line, hline⟩ := hcounts.single.resolve_left hcalled
  have hnone := hrest (.stopExecution 0) rfl
  simp only [Shutdown.step, stopExecutionMoves, hline, List.getElem?_cons_zero] at hnone
  cases line with
  | storesStop => simp at hnone
  | resets => simp at hnone
  | waits =>
      have hflag : r.stopTheThreads = true := hcounts.flag.mpr (.inl hline)
      have hworkers : ∀ w, r.workerEnded w = true := fun w => by
        by_contra hgoing
        exact h.exists_workerMoves hflag (by simpa using hgoing) (hrest (.worker w) rfl)
      have hjoined : r.pool.system.planner.runningPlanner = none := by
        by_contra hrunning
        obtain ⟨pass, hpass⟩ := Option.ne_none_iff_exists'.mp hrunning
        have hpassing := hrest .runningPlanner rfl
        simp [Shutdown.step, poolMoves, pool_step_pass hpass] at hpassing
      have hexecutor : r.executorLoop = .ended := by
        by_contra hloop
        exact h.exists_executorMoves hands hflag hworkers hloop (hrest .executor rfl)
      have hplanner : r.plannerLoop = .ended := by
        by_contra hloop
        exact h.exists_plannerManagerMoves hands hflag hjoined hloop (hrest .plannerManager rfl)
      have hcount := hcounts.waits hline
      have hzero : r.waitThreads = 0 := by simpa [going, hexecutor, hplanner, hfirst] using hcount
      simp [hzero] at hnone

/-! ## The end -/

theorem Inv.acc_own (h : r.Inv G planner first) (hacyclic : ∀ c, G.ListensAcyclic c) :
    Acc (Termination.Moves (Shutdown.step G planner) fun m => m.isOwn = true) r := by
  obtain ⟨moves, a, hrun, hfollows⟩ := h.follows
  refine Termination.acc_of_simulates
    (fun (r : Shutdown n ι V) a => Follows r.plannerLoop r.pool a) (measure weight).wf ?_
    (acc_of_pooled_run hacyclic hrun) hfollows
  rintro r a r' hfollows ⟨m, hown, hstep⟩
  cases matched_step hfollows (step_of_step hstep) with
  | control hfollows' hweight => exact .inr ⟨hweight hown, hfollows'⟩
  | system m' a' ha' hfollows' hinternal => exact .inl ⟨a', ⟨m', hinternal hown, ha'⟩, hfollows'⟩

def ownMoves (r : Shutdown n ι V) : List (Move n ι V) :=
  [.executor, .plannerManager, .runningPlanner] ++ (List.finRange n).map .worker ++
    (List.range r.callers.length).map .stopExecution

theorem mem_ownMoves (hown : m.isOwn = true) (hstep : r.step G planner m = some r') :
    m ∈ ownMoves r := by
  cases m with
  | user | callStop => cases hown
  | stopExecution i =>
      have hi : i < r.callers.length := by
        by_contra hge
        simp [Shutdown.step, stopExecutionMoves, List.getElem?_eq_none (not_lt.mp hge)] at hstep
      simp [ownMoves, hi]
  | _ => simp [ownMoves]

theorem called_step (hcounts : r.Counts) (hcalled : r.returns = 1 ∨ r.callers ≠ [])
    (hstep : Step G planner r m r') : r'.returns = 1 ∨ r'.callers ≠ [] := by
  cases hstep with
  | resets hline => exact .inl (by simp [hcounts.once.2 (hcounts.caller hline).2])
  | callStop => exact .inr (by simp)
  | storesStop hline | waits hline =>
      obtain ⟨rfl, hone⟩ := hcounts.caller hline
      exact .inr (by simp [hone])
  | _ => exact hcalled

/-- In whatever state of the program `stop_execution` is called, the threads make a bounded number of
moves; and if no other call overlaps it, the first one has returned when they rest. -/
theorem stop_execution_returns (hacyclic : ∀ c, G.ListensAcyclic c) {moves : List (Move n ι V)}
    (hrun : moves.foldlM (Shutdown.step G planner) (init n G first) = some r) :
    (∃ bound, ∀ (moves' : List (Move n ι V)) (r' : Shutdown n ι V), (∀ m ∈ moves', m.isOwn = true) →
        moves'.foldlM (Shutdown.step G planner) r = some r' → moves'.length ≤ bound) ∧
      (moves.foldlM (oneAtATime G planner) (init n G first) = some r → r.callers ≠ [] →
        ∀ (moves' : List (Move n ι V)) (r' : Shutdown n ι V),
          moves'.foldlM (oneAtATime G planner) r = some r' →
          (∀ m : Move n ι V, m.isOwn = true → r'.step G planner m = none) → r'.returns = 1) := by
  have hkeeps : ∀ {moves : List (Move n ι V)} {r r' : Shutdown n ι V},
      r.Inv G planner first ∧ r.Hands → moves.foldlM (Shutdown.step G planner) r = some r' →
        r'.Inv G planner first ∧ r'.Hands := fun h hrun =>
    Termination.keeps (P := fun r => Inv G planner first r ∧ r.Hands)
      (fun r m r' h hstep => ⟨h.1.step (step_of_step hstep), h.2.step (step_of_step hstep)⟩) h hrun
  have h := hkeeps ⟨inv_init, by simp [init], by simp [init]⟩ hrun
  constructor
  · obtain ⟨bound, hbound⟩ := Termination.exists_bound (h.1.acc_own hacyclic) ownMoves
      fun _ _ _ => mem_ownMoves
    exact ⟨bound, fun moves' r' hown hrun' => hbound moves' hown r' hrun'⟩
  · intro halone hcalled moves' r' hrun' hrest
    have h' := hkeeps h (foldlM_step_of_oneAtATime hrun')
    have hcounts : r'.Counts ∧ (r'.returns = 1 ∨ r'.callers ≠ []) := by
      refine Termination.keeps (P := fun r : Shutdown n ι V => r.Counts ∧
        (r.returns = 1 ∨ r.callers ≠ [])) ?_ ⟨counts_init.run halone, .inr hcalled⟩ hrun'
      intro r m r' h hstep
      obtain ⟨hstep, halone⟩ := step_of_oneAtATime hstep
      exact ⟨h.1.step (step_of_step hstep) halone, called_step h.1 h.2 (step_of_step hstep)⟩
    exact h'.1.returned_of_rest hcounts.1 h'.2 hrest hcounts.2

theorem stop_execution_returns_stopRun :
    (∃ bound, ∀ (moves : List (Move 2 (Fin 3) ℕ)) (r : Shutdown 2 (Fin 3) ℕ),
        (∀ m ∈ moves, m.isOwn = true) →
        moves.foldlM (step sinkMapHold .rankBased) (stoppedAt 0) = some r →
        moves.length ≤ bound) ∧
      ∀ (moves : List (Move 2 (Fin 3) ℕ)) (r : Shutdown 2 (Fin 3) ℕ),
        moves.foldlM (oneAtATime sinkMapHold .rankBased) (stoppedAt 0) = some r →
        (∀ m : Move 2 (Fin 3) ℕ, m.isOwn = true → r.step sinkMapHold .rankBased m = none) →
        r.returns = 1 :=
  (stop_execution_returns State.listensAcyclic_sinkMapHold
    (run_stopRun 0 (by decide +kernel))).imp_right fun h =>
      h (run_stopRun_oneAtATime 0 (by decide +kernel)) (by decide +kernel)

end Shutdown

end Prf
