import Prf.Proof.ThreadPool
import Prf.Shutdown

/-!
# What stopping leaves behind

A program that is being stopped does what it does when nobody stops it, only that the last pass of
the planner may be cut short; so whatever is known of its states stays true. And each join waits for
the one before it to be over: that of the pool for the tasks under way, the count of `wait_threads`
for the joins.
-/

namespace Prf

variable {ι V : Type}

def Action.isPlanner : Action ι V → Bool
  | plannerReceive => true
  | plannerHandle => true
  | plannerPass => true
  | _ => false

/-- `stop` ends the pass or makes no difference to it. -/
theorem Pass.next_stop (planner : Planner) (clusterRanks : ID → Rank)
    (states : List TransactionState) (stop : Bool) (pass : Pass) :
    pass.next planner clusterRanks states true = none ∨
      pass.next planner clusterRanks states true = pass.next planner clusterRanks states stop := by
  cases planner with
  | simple => exact .inr rfl
  | rankBased =>
      simp only [Pass.next]
      cases states[pass.index]? with
      | none => exact .inl rfl
      | some state => exact .inl rfl

variable [DecidableEq ι] {G : Graph ι V} {planner : Planner} {first : ID}

namespace State

variable {s s' : State ι V} {running : Option Pass} {stop : Bool}

theorem handleExecutorMessage_setPlanning (message : ExecutorMessage) :
    (s.setPlanning running stop).handleExecutorMessage G message =
      (s.handleExecutorMessage G message).map (·.setPlanning running stop) := by
  have hexecutor : (s.setPlanning running stop).executor = s.executor := rfl
  cases message with
  | transactionExecute T => rfl
  | registerTransaction T => rfl
  | startUpdateCluster T c =>
      simp only [handleExecutorMessage, hexecutor]
      by_cases hT : T ∈ s.executor.transactions
      · by_cases hc : c ∈ s.executor.transactionUpdatings T <;> simp [hT, hc, setPlanning]
      · simp [hT]
  | finalizeTransaction T =>
      have hfinalize : G.finalizeTransaction (s.setPlanning running stop).store
          ((s.setPlanning running stop).inner T) = G.finalizeTransaction s.store (s.inner T) := rfl
      simp only [handleExecutorMessage, hexecutor, hfinalize]
      by_cases hT : T ∈ s.executor.transactions
      · cases G.finalizeTransaction s.store (s.inner T) <;> simp [hT, setPlanning]
      · simp [hT]

theorem runTask_setPlanning (i : ℕ) (task : Task ι V) :
    (s.setPlanning running stop).runTask G i task =
      (s.runTask G i task).map (·.setPlanning running stop) := by
  cases hphase : task.phase with
  | executing sub =>
      simp only [runTask, hphase, setPlanning, setPhase]
      split
      · rfl
      · rename_i x rest _
        cases G.update x s.store (sub.pop x rest) <;> rfl
  | _ => simp only [runTask, hphase]; rfl

/-- The other threads do not look at the running planner. -/
theorem step_setPlanning {action : Action ι V} (hother : action.isPlanner = false) :
    step G planner (s.setPlanning running stop) action =
      (step G planner s action).map (·.setPlanning running stop) := by
  cases action with
  | register => rfl
  | afterBuildHook =>
      have hhooks : (s.setPlanning running stop).afterBuildHooks = s.afterBuildHooks := rfl
      simp only [step, hhooks]
      cases s.afterBuildHooks with
      | nil => rfl
      | cons hook rest =>
          simp only [apply_ite (Option.map _)]
          rfl
  | send T x value =>
      simp only [step, apply_ite (Option.map _)]
      rfl
  | commit T =>
      simp only [step, apply_ite (Option.map _)]
      rfl
  | executor =>
      simp only [step]
      have hqueue : (s.setPlanning running stop).executorMessages = s.executorMessages := rfl
      rw [hqueue]
      cases s.executorMessages with
      | nil => rfl
      | cons message rest =>
          exact handleExecutorMessage_setPlanning (s := { s with executorMessages := rest }) message
  | task i =>
      simp only [step]
      have htasks : (s.setPlanning running stop).tasks = s.tasks := rfl
      rw [htasks]
      cases s.tasks[i]? with
      | none => rfl
      | some task => exact runTask_setPlanning i task
  | plannerReceive => cases hother
  | plannerHandle => cases hother
  | plannerPass => cases hother

theorem trace_of_user {action : Action ι V} (huser : action.isInternal = false)
    (h : step G planner s action = some s') :
    s'.tasks = s.tasks ∧ ∃ sends, s'.trace = s.trace ++ sends ∧
      ∀ event ∈ sends, ∃ T x value, event = .topSend T x value := by
  have hsend : ∀ T x value, ∃ sends, (s.topSend G T x value).trace = s.trace ++ sends ∧
      ∀ event ∈ sends, ∃ T x value, event = .topSend T x value := fun T x value =>
    ⟨[.topSend T x value], rfl, by simp⟩
  cases action with
  | register =>
      obtain rfl := Option.some.inj h
      exact ⟨rfl, [], (List.append_nil _).symm, by simp⟩
  | afterBuildHook =>
      simp only [step] at h
      split at h
      · cases h
      · rw [Option.ite_none_right_eq_some] at h
        obtain rfl := Option.some.inj h.2
        exact ⟨rfl, hsend ..⟩
  | send T x value =>
      rw [step, Option.ite_none_right_eq_some] at h
      obtain rfl := Option.some.inj h.2
      exact ⟨rfl, hsend ..⟩
  | commit T =>
      rw [step, Option.ite_none_right_eq_some] at h
      obtain rfl := Option.some.inj h.2
      exact ⟨rfl, [], (List.append_nil _).symm, by simp⟩
  | executor => cases huser
  | task i => cases huser
  | plannerReceive => cases huser
  | plannerHandle => cases huser
  | plannerPass => cases huser

omit [DecidableEq ι] in
theorem tasks_runPlanner (pass : Pass) : (s.runPlanner G planner pass).tasks = s.tasks := by
  simp only [runPlanner]
  split <;> rfl

omit [DecidableEq ι] in
/-- With `stop_planning_needed` set the running planner does what it would do anyway, or it ends. -/
theorem runPlanner_setPlanning (pass : Pass) :
    (s.setPlanning (some pass) true).runPlanner G planner pass =
        (s.runPlanner G planner pass).setPlanning
          (s.runPlanner G planner pass).planner.runningPlanner true ∨
      (s.setPlanning (some pass) true).runPlanner G planner pass = s.setPlanning none true := by
  simp only [runPlanner]
  cases hpushes : pass.pushes with
  | cons message rest => exact .inl rfl
  | nil =>
      rcases pass.next_stop planner G.clusterRanks s.planner.transactionStates
        s.planner.stopPlanningNeeded with hends | hsame
      · refine .inr ?_
        simp [setPlanning, hends]
      · refine .inl ?_
        simp [setPlanning, hsame]

end State

section Shutdown

variable {n : ℕ}

/-- How the program stands to a run in which nobody stops it: the last pass of the planner may be cut
short. -/
inductive Follows : PlannerLoop → Pool n (State ι V) → Pool n (State ι V) → Prop where
  | planning {loop : PlannerLoop} {p : Pool n (State ι V)} (hloop : loop = .pops ∨ loop = .handles) :
      Follows loop p p
  | stopping {running : Option Pass} {p : Pool n (State ι V)}
      (hrunning : running = none ∨ running = p.system.planner.runningPlanner) :
      Follows .stopsPlanning { p with system := p.system.setPlanning running true } p
  | stopped {loop : PlannerLoop} {p : Pool n (State ι V)} (hloop : loop = .returned ∨ loop = .ended) :
      Follows loop { p with system := p.system.setPlanning none false } p

theorem pool_step_setPlanning {p : Pool n (State ι V)} {m : Pool.Move n (Action ι V)}
    (running : Option Pass) (stop : Bool)
    (hother : ∀ action, m.action? = some action → action.isPlanner = false) :
    Pool.step (updateTasks G planner) { p with system := p.system.setPlanning running stop } m =
      (p.step (updateTasks G planner) m).map fun p =>
        { p with system := p.system.setPlanning running stop } := by
  apply Pool.step_update (J := updateTasks G planner) (fun s => s.setPlanning running stop)
  · exact fun _ => rfl
  · exact fun _ _ => rfl
  · rintro action (hjob | haction)
    · cases action <;> simp only [updateTasks, Action.isTask, Bool.false_eq_true] at hjob
      rename_i i
      have hstep : State.step G planner (p.system.setPlanning running stop) (.task i) =
          (State.step G planner p.system (.task i)).map fun s => s.setPlanning running stop :=
        State.step_setPlanning rfl
      exact hstep
    · exact State.step_setPlanning (hother action haction)
  · exact fun _ => rfl

theorem runningPlanner_of_pool_step {p p' : Pool n (State ι V)} {m : Pool.Move n (Action ι V)}
    (hother : ∀ action, m.action? = some action → action.isPlanner = false)
    (hstep : p.step (updateTasks G planner) m = some p') :
    p'.system.planner.runningPlanner = p.system.planner.runningPlanner := by
  have hsame : Pool.step (updateTasks G planner) p m = (p.step (updateTasks G planner) m).map fun p' =>
      { p' with system := (p'.system.setPlanning p.system.planner.runningPlanner
          p.system.planner.stopPlanningNeeded) } :=
    pool_step_setPlanning p.system.planner.runningPlanner _ hother
  rw [hstep] at hsame
  exact congrArg (fun p => p.system.planner.runningPlanner) (Option.some.inj hsame)

theorem pool_step_pass {p : Pool n (State ι V)} {pass : Pass}
    (hrunning : p.system.planner.runningPlanner = some pass) :
    p.step (updateTasks G planner) (.system .plannerPass) =
      some { p with system := p.system.runPlanner G planner pass } := by
  simp [Pool.step, Pool.request, updateTasks, Action.isTask, State.step, hrunning,
    State.tasks_runPlanner]

omit [DecidableEq ι] in
theorem Follows.eq_of_planning {loop : PlannerLoop} {p a : Pool n (State ι V)}
    (h : Follows loop p a) (hloop : loop = .pops ∨ loop = .handles) : p = a := by
  cases h with
  | planning _ => rfl
  | stopping _ => simp at hloop
  | stopped hloop' => rcases hloop with rfl | rfl <;> simp at hloop'

omit [DecidableEq ι] in
theorem Follows.join {p a : Pool n (State ι V)} (h : Follows .stopsPlanning p a) :
    Follows .returned { p with system := p.system.setPlanning none false } a := by
  cases h with
  | planning hloop => simp at hloop
  | stopped hloop => simp at hloop
  | stopping hrunning => exact Follows.stopped (p := a) (.inl rfl)

omit [DecidableEq ι] in
theorem Follows.end {p a : Pool n (State ι V)} (h : Follows .returned p a) : Follows .ended p a := by
  cases h with
  | planning hloop => simp at hloop
  | stopped hloop => exact .stopped (.inr rfl)

theorem Follows.move {loop : PlannerLoop} {p a p' : Pool n (State ι V)} (h : Follows loop p a)
    {m : Pool.Move n (Action ι V)}
    (hother : ∀ action, m.action? = some action → action.isPlanner = false)
    (hstep : p.step (updateTasks G planner) m = some p') :
    ∃ a', a.step (updateTasks G planner) m = some a' ∧ Follows loop p' a' := by
  cases h with
  | planning hloop => exact ⟨p', hstep, .planning hloop⟩
  | stopping hrunning =>
      rw [pool_step_setPlanning _ _ hother] at hstep
      obtain ⟨a', ha', rfl⟩ := Option.map_eq_some_iff.mp hstep
      refine ⟨a', ha', .stopping ?_⟩
      rwa [runningPlanner_of_pool_step hother ha']
  | stopped hloop =>
      rw [pool_step_setPlanning _ _ hother] at hstep
      obtain ⟨a', ha', rfl⟩ := Option.map_eq_some_iff.mp hstep
      exact ⟨a', ha', .stopped hloop⟩

theorem Follows.pass {loop : PlannerLoop} {p a p' : Pool n (State ι V)} (h : Follows loop p a)
    (hstep : p.step (updateTasks G planner) (.system .plannerPass) = some p') :
    (∃ a', a.step (updateTasks G planner) (.system .plannerPass) = some a' ∧ Follows loop p' a') ∨
      Follows loop p' a ∧ p.system.planner.runningPlanner ≠ none ∧
        p'.system.planner.runningPlanner = none := by
  cases h with
  | planning hloop => exact .inl ⟨p', hstep, .planning hloop⟩
  | stopped hloop => simp [Pool.step, updateTasks, Action.isTask, State.step, State.setPlanning] at hstep
  | stopping hrunning =>
      rename_i running
      cases running with
      | none => simp [Pool.step, updateTasks, Action.isTask, State.step, State.setPlanning] at hstep
      | some pass =>
          have hpass : a.system.planner.runningPlanner = some pass := by
            simpa [eq_comm] using hrunning
          rw [pool_step_pass rfl] at hstep
          obtain rfl := Option.some.inj hstep
          rcases State.runPlanner_setPlanning (G := G) (s := a.system) pass with hsame | hends
          · refine .inl ⟨_, pool_step_pass hpass, ?_⟩
            rw [hsame]
            exact Follows.stopping (p := { a with system := a.system.runPlanner G planner pass })
              (.inr rfl)
          · refine .inr ⟨?_, by simp [State.setPlanning], ?_⟩
            · rw [hends]
              exact .stopping (.inl rfl)
            · rw [hends]
              rfl

end Shutdown

def ExecutorLoop.weight : ExecutorLoop → ℕ
  | pops => 4
  | handles => 3
  | stopsPool => 2
  | returned => 1
  | ended => 0

def PlannerLoop.weight : PlannerLoop → ℕ
  | pops => 4
  | handles => 3
  | stopsPlanning => 2
  | returned => 1
  | ended => 0

def StopLine.weight : StopLine → ℕ
  | storesStop => 3
  | waits => 2
  | resets => 1

namespace Shutdown

variable {n : ℕ} {r r' : Shutdown n ι V} {a : Pool n (State ι V)} {m : Move n ι V}

/-- What a move can do. -/
inductive Step (G : Graph ι V) (planner : Planner) (r : Shutdown n ι V) :
    Move n ι V → Shutdown n ι V → Prop where
  | user {action : Action ι V} {p : Pool n (State ι V)} (huser : action.isInternal = false)
      (hpool : r.pool.step (updateTasks G planner) (.system action) = some p) :
      Step G planner r (.user action) { r with pool := p }
  | executorStops (hloop : r.executorLoop = .pops) (hflag : r.stopTheThreads = true) :
      Step G planner r .executor { r with executorLoop := .stopsPool }
  | executorPops (hloop : r.executorLoop = .pops) (hqueue : r.pool.system.executorMessages ≠ []) :
      Step G planner r .executor { r with executorLoop := .handles }
  | executorHandles {p : Pool n (State ι V)} (hloop : r.executorLoop = .handles)
      (hpool : r.pool.step (updateTasks G planner) (.system .executor) = some p) :
      Step G planner r .executor { r with pool := p, executorLoop := .pops }
  | executorJoins (hloop : r.executorLoop = .stopsPool) (hended : ∀ w, r.workerEnded w = true) :
      Step G planner r .executor { r with executorLoop := .returned }
  | executorEnds (hloop : r.executorLoop = .returned) :
      Step G planner r .executor
        { r with waitThreads := r.waitThreads - 1, executorLoop := .ended }
  | work {w : Fin n} {p : Pool n (State ι V)} (hgoing : r.workerEnded w = false)
      (hpool : r.pool.step (updateTasks G planner) (.worker w) = some p) :
      Step G planner r (.worker w) { r with pool := p }
  | workerEnds {w : Fin n} (hgoing : r.workerEnded w = false) (hidle : r.pool.worker w = none) :
      Step G planner r (.worker w)
        { r with workerEnded := Function.update r.workerEnded w true }
  | managerHandles {p : Pool n (State ι V)} (hloop : r.plannerLoop = .pops)
      (hpool : r.pool.step (updateTasks G planner) (.system .plannerHandle) = some p) :
      Step G planner r .plannerManager { r with pool := p }
  | managerStops (hloop : r.plannerLoop = .pops) (hflag : r.stopTheThreads = true) :
      Step G planner r .plannerManager
        { r with
          plannerLoop := .stopsPlanning
          pool := { r.pool with system :=
            r.pool.system.setPlanning r.pool.system.planner.runningPlanner true } }
  | managerPops (hloop : r.plannerLoop = .pops) (hreceived : r.pool.system.planner.received = none)
      (hqueue : r.pool.system.plannerMessages ≠ []) :
      Step G planner r .plannerManager { r with plannerLoop := .handles }
  | managerReceives {p : Pool n (State ι V)} (hloop : r.plannerLoop = .handles)
      (hpool : r.pool.step (updateTasks G planner) (.system .plannerReceive) = some p) :
      Step G planner r .plannerManager { r with pool := p, plannerLoop := .pops }
  | managerJoins (hloop : r.plannerLoop = .stopsPlanning)
      (hjoined : r.pool.system.planner.runningPlanner = none) :
      Step G planner r .plannerManager
        { r with
          plannerLoop := .returned
          pool := { r.pool with system := r.pool.system.setPlanning none false } }
  | managerEnds (hloop : r.plannerLoop = .returned) :
      Step G planner r .plannerManager
        { r with waitThreads := r.waitThreads - 1, plannerLoop := .ended }
  | pass {p : Pool n (State ι V)}
      (hpool : r.pool.step (updateTasks G planner) (.system .plannerPass) = some p) :
      Step G planner r .runningPlanner { r with pool := p }
  | callStop :
      Step G planner r .callStop
        { r with waitThreads := 2, callers := r.callers ++ [.storesStop] }
  | storesStop {i : ℕ} (hline : r.callers[i]? = some .storesStop) :
      Step G planner r (.stopExecution i)
        { r with stopTheThreads := true, callers := r.callers.set i .waits }
  | waits {i : ℕ} (hline : r.callers[i]? = some .waits) (hzero : r.waitThreads = 0) :
      Step G planner r (.stopExecution i) { r with callers := r.callers.set i .resets }
  | resets {i : ℕ} (hline : r.callers[i]? = some .resets) :
      Step G planner r (.stopExecution i)
        { r with
          stopTheThreads := false
          callers := r.callers.eraseIdx i
          returns := r.returns + 1 }

theorem step_of_executorMoves (h : r.executorMoves G planner = some r') :
    Step G planner r .executor r' := by
  unfold executorMoves at h
  cases hloop : r.executorLoop with
  | pops =>
      simp only [hloop] at h
      split at h
      · exact Option.some.inj h ▸ .executorStops hloop ‹_›
      · rw [Option.ite_none_left_eq_some, Option.some.injEq] at h
        exact h.2 ▸ .executorPops hloop h.1
  | handles =>
      simp only [hloop, poolMoves, Option.map_map, Option.map_eq_some_iff] at h
      obtain ⟨p, hp, rfl⟩ := h
      exact .executorHandles hloop hp
  | stopsPool =>
      simp only [hloop, Option.ite_none_right_eq_some, Option.some.injEq] at h
      exact h.2 ▸ .executorJoins hloop h.1
  | returned =>
      simp only [hloop, Option.some.injEq] at h
      exact h ▸ .executorEnds hloop
  | ended => simp [hloop] at h

theorem step_of_plannerManagerMoves (h : r.plannerManagerMoves G planner = some r') :
    Step G planner r .plannerManager r' := by
  unfold plannerManagerMoves at h
  cases hloop : r.plannerLoop with
  | pops =>
      simp only [hloop] at h
      split at h
      · obtain ⟨p, hp, rfl⟩ := Option.map_eq_some_iff.mp h
        exact .managerHandles hloop hp
      · split at h
        · exact Option.some.inj h ▸ .managerStops hloop ‹_›
        · rename_i hreceived _
          rw [Option.ite_none_left_eq_some, Option.some.injEq] at h
          exact h.2 ▸ .managerPops hloop (not_not.mp hreceived) h.1
  | handles =>
      simp only [hloop, poolMoves, Option.map_map, Option.map_eq_some_iff] at h
      obtain ⟨p, hp, rfl⟩ := h
      exact .managerReceives hloop hp
  | stopsPlanning =>
      simp only [hloop, Option.ite_none_right_eq_some, Option.some.injEq] at h
      exact h.2 ▸ .managerJoins hloop h.1
  | returned =>
      simp only [hloop, Option.some.injEq] at h
      exact h ▸ .managerEnds hloop
  | ended => simp [hloop] at h

theorem step_of_workerMoves {w : Fin n} (h : r.workerMoves G planner w = some r') :
    Step G planner r (.worker w) r' := by
  rw [workerMoves, Option.ite_none_left_eq_some] at h
  obtain ⟨hgoing, h⟩ := h
  split at h
  · rename_i hidle
    exact Option.some.inj h ▸ .workerEnds (by simpa using hgoing) hidle.1
  · obtain ⟨p, hp, rfl⟩ := Option.map_eq_some_iff.mp h
    exact .work (by simpa using hgoing) hp

theorem step_of_step (h : r.step G planner m = some r') : Step G planner r m r' := by
  cases m with
  | user action =>
      rw [step, Option.ite_none_left_eq_some] at h
      obtain ⟨p, hp, rfl⟩ := Option.map_eq_some_iff.mp h.2
      exact .user (by simpa using h.1) hp
  | executor => exact step_of_executorMoves h
  | worker w => exact step_of_workerMoves h
  | plannerManager => exact step_of_plannerManagerMoves h
  | runningPlanner =>
      obtain ⟨p, hp, rfl⟩ := Option.map_eq_some_iff.mp h
      exact .pass hp
  | callStop => exact Option.some.inj h ▸ .callStop
  | stopExecution i =>
      simp only [step, stopExecutionMoves] at h
      split at h
      · cases h
      · exact Option.some.inj h ▸ .storesStop ‹_›
      · rw [Option.ite_none_right_eq_some, Option.some.injEq] at h
        exact h.2 ▸ .waits ‹_› h.1
      · exact Option.some.inj h ▸ .resets ‹_›

theorem step_of_oneAtATime (h : r.oneAtATime G planner m = some r') :
    r.step G planner m = some r' ∧ (m = .callStop → r.callers = []) := by
  cases m with
  | callStop =>
      rw [oneAtATime, Option.ite_none_right_eq_some] at h
      exact ⟨h.2, fun _ => h.1⟩
  | _ => exact ⟨h, by simp⟩

theorem foldlM_step_of_oneAtATime {moves : List (Move n ι V)}
    (h : moves.foldlM (oneAtATime G planner) r = some r') :
    moves.foldlM (Shutdown.step G planner) r = some r' := by
  induction moves generalizing r with
  | nil => exact h
  | cons m moves ih =>
      rw [List.foldlM_cons] at h ⊢
      obtain ⟨q, hq, hrest⟩ := Option.bind_eq_some_iff.mp h
      exact Option.bind_eq_some_iff.mpr ⟨q, (step_of_oneAtATime hq).1, ih hrest⟩

/-! ## The program that nobody stops -/

/-- How many moves of the threads remain in which the system does not move. -/
def weight (r : Shutdown n ι V) : ℕ :=
  r.executorLoop.weight + r.plannerLoop.weight + (r.callers.map StopLine.weight).sum +
    (if r.pool.system.planner.runningPlanner = none then 0 else 1) +
    (Finset.univ.filter fun w => r.workerEnded w = false).card

/-- A move of the threads is one of the program that nobody stops, or is not noticed there. -/
inductive Matched (G : Graph ι V) (planner : Planner) (r r' : Shutdown n ι V)
    (a : Pool n (State ι V)) (own : Prop) : Prop where
  | system (m : Pool.Move n (Action ι V)) (a' : Pool n (State ι V))
      (hstep : a.step (updateTasks G planner) m = some a')
      (hfollows : Follows r'.plannerLoop r'.pool a') (hinternal : own → IsInternal m)
  | control (hfollows : Follows r'.plannerLoop r'.pool a) (hweight : own → r'.weight < r.weight)

theorem matched_pool {p : Pool n (State ι V)} {m : Pool.Move n (Action ι V)}
    (h : Follows r.plannerLoop r.pool a)
    (hpool : r.pool.step (updateTasks G planner) m = some p)
    (hother : ∀ action, m.action? = some action → action.isPlanner = false) {own : Prop}
    (hinternal : own → IsInternal m) (hloop : r'.plannerLoop = r.plannerLoop)
    (hsame : r'.pool = p) : Matched G planner r r' a own := by
  obtain ⟨a', ha', hfollows⟩ := h.move hother hpool
  refine .system m a' ha' ?_ hinternal
  rwa [hloop, hsame]

omit [DecidableEq ι] in
theorem card_workerEnds {w : Fin n} (hgoing : r.workerEnded w = false) :
    (Finset.univ.filter fun v => Function.update r.workerEnded w true v = false).card <
      (Finset.univ.filter fun v => r.workerEnded v = false).card := by
  apply Finset.card_lt_card
  refine Finset.ssubset_iff_subset_ne.mpr ⟨fun v hv => ?_, fun heq => ?_⟩
  · by_cases hw : v = w <;> simp_all
  · have hmem : w ∈ Finset.univ.filter fun v => r.workerEnded v = false := by simpa using hgoing
    simp [← heq] at hmem

theorem matched_step (h : Follows r.plannerLoop r.pool a) (hstep : Step G planner r m r') :
    Matched G planner r r' a (m.isOwn = true) := by
  cases hstep with
  | @user action p huser hpool =>
      have hother : action.isPlanner = false := by
        cases action <;> simp_all [Action.isInternal, Action.isPlanner]
      exact matched_pool h hpool (by rintro _ ⟨⟩; exact hother) (fun hown => by cases hown) rfl rfl
  | executorHandles hloop hpool =>
      exact matched_pool h hpool (by rintro _ ⟨⟩; rfl) (fun _ => rfl) rfl rfl
  | @work w p hgoing hpool =>
      have hinternal : IsInternal (.worker w : Pool.Move n (Action ι V)) := trivial
      exact matched_pool h hpool (by rintro _ ⟨⟩) (fun _ => hinternal) rfl rfl
  | workerEnds hgoing hidle =>
      refine .control h fun _ => ?_
      have hlt := card_workerEnds hgoing
      simpa [weight] using hlt
  | managerHandles hloop hpool =>
      have heq := h.eq_of_planning (.inl hloop)
      exact .system (.system .plannerHandle) _ (heq ▸ hpool) (.planning (.inl hloop)) fun _ => rfl
  | managerReceives hloop hpool =>
      have heq := h.eq_of_planning (.inr hloop)
      exact .system (.system .plannerReceive) _ (heq ▸ hpool) (.planning (.inl rfl)) fun _ => rfl
  | managerPops hloop hreceived hqueue =>
      refine .control ?_ fun _ => by simp [weight, hloop, PlannerLoop.weight]
      rw [h.eq_of_planning (.inl hloop)]
      exact .planning (.inr rfl)
  | managerStops hloop hflag =>
      refine .control ?_ fun _ => ?_
      · rw [h.eq_of_planning (.inl hloop)]
        exact .stopping (.inr rfl)
      · cases hrunning : r.pool.system.planner.runningPlanner <;>
          simp [weight, hloop, PlannerLoop.weight, State.setPlanning, hrunning]
  | managerJoins hloop hjoined =>
      rw [hloop] at h
      refine .control h.join fun _ => ?_
      simp [weight, hloop, PlannerLoop.weight, State.setPlanning, hjoined]
  | managerEnds hloop =>
      rw [hloop] at h
      exact .control h.end fun _ => by simp [weight, hloop, PlannerLoop.weight]
  | pass hpool =>
      rcases h.pass hpool with ⟨a', ha', hfollows⟩ | ⟨hfollows, hbefore, hafter⟩
      · exact .system _ a' ha' hfollows fun _ => rfl
      · exact .control hfollows fun _ => by simp [weight, hbefore, hafter]
  | callStop => exact .control h fun hown => by cases hown
  | executorStops hloop | executorPops hloop | executorJoins hloop | executorEnds hloop =>
      exact .control h fun _ => by simp [weight, hloop, ExecutorLoop.weight]
  | storesStop hline | waits hline =>
      refine .control h fun _ => ?_
      have hbefore := sum_map_eraseIdx StopLine.weight hline
      have hafter := sum_map_set StopLine.weight hline
      simp only [weight, hbefore, hafter, StopLine.weight]
      omega
  | resets hline =>
      refine .control h fun _ => ?_
      simp only [weight, sum_map_eraseIdx StopLine.weight hline, StopLine.weight]
      omega

/-! ## Counting the threads down -/

def going (r : Shutdown n ι V) : ℤ :=
  (if r.executorLoop = .ended then 0 else 1) + if r.plannerLoop = .ended then 0 else 1

omit [DecidableEq ι] in
theorem ended_of_going (h : r.going ≤ 0) : r.executorLoop = .ended ∧ r.plannerLoop = .ended := by
  simp only [going] at h
  split at h <;> split at h
  case isTrue.isTrue hexecutor hplanner => exact ⟨hexecutor, hplanner⟩
  all_goals omega

/-- Once `stop_execution` has been called, `wait_threads` is no less than the threads to wait for, so
that no call gets past its loop before both have ended. -/
structure Called (r : Shutdown n ι V) : Prop where
  waits : r.callers ≠ [] ∨ 0 < r.returns → r.going ≤ r.waitThreads
  after : .resets ∈ r.callers ∨ 0 < r.returns → r.executorLoop = .ended ∧ r.plannerLoop = .ended

omit [DecidableEq ι] in
theorem called_init : (init n G first).Called := by
  constructor <;> simp [init]

omit [DecidableEq ι] in
theorem Called.of_pool {p : Pool n (State ι V)} (h : r.Called) : Called { r with pool := p } :=
  ⟨h.waits, h.after⟩

omit [DecidableEq ι] in
theorem Called.setExecutor (h : r.Called) {loop : ExecutorLoop} (hbefore : r.executorLoop ≠ .ended)
    (hafter : loop ≠ .ended) : Called { r with executorLoop := loop } where
  waits hcalled := by
    have hwaits := h.waits hcalled
    simpa [going, hbefore, hafter] using hwaits
  after hover := absurd (h.after hover).1 hbefore

omit [DecidableEq ι] in
theorem Called.setPlanner (h : r.Called) {loop : PlannerLoop} (hbefore : r.plannerLoop ≠ .ended)
    (hafter : loop ≠ .ended) : Called { r with plannerLoop := loop } where
  waits hcalled := by
    have hwaits := h.waits hcalled
    simpa [going, hbefore, hafter] using hwaits
  after hover := absurd (h.after hover).2 hbefore

theorem Called.step (h : r.Called) (hstep : Step G planner r m r') : r'.Called := by
  cases hstep with
  | user | work | managerHandles | pass => exact h.of_pool
  | workerEnds => exact ⟨h.waits, h.after⟩
  | executorStops hloop | executorPops hloop | executorJoins hloop =>
      exact h.setExecutor (by simp [hloop]) (by simp)
  | executorHandles hloop => exact h.of_pool.setExecutor (by simp [hloop]) (by simp)
  | managerStops hloop | managerReceives hloop | managerJoins hloop =>
      exact h.of_pool.setPlanner (by simp [hloop]) (by simp)
  | managerPops hloop => exact h.setPlanner (by simp [hloop]) (by simp)
  | executorEnds hloop =>
      refine ⟨fun hcalled => ?_, fun hover => ?_⟩
      · have hwaits := h.waits hcalled
        simp only [going, hloop, reduceCtorEq, if_false, if_true] at hwaits ⊢
        omega
      · have hended := (h.after hover).1
        simp [hloop] at hended
  | managerEnds hloop =>
      refine ⟨fun hcalled => ?_, fun hover => ?_⟩
      · have hwaits := h.waits hcalled
        simp only [going, hloop, reduceCtorEq, if_false, if_true] at hwaits ⊢
        omega
      · have hended := (h.after hover).2
        simp [hloop] at hended
  | callStop =>
      refine ⟨fun _ => ?_, fun hover => h.after (hover.imp_left fun hin => by simpa using hin)⟩
      simp only [going]
      split <;> split <;> omega
  | @storesStop i hline =>
      have hcalled : r.callers ≠ [] := List.ne_nil_of_mem (List.mem_of_getElem? hline)
      refine ⟨fun _ => h.waits (.inl hcalled), fun hover => h.after (hover.imp_left fun hin => ?_)⟩
      exact (List.mem_or_eq_of_mem_set hin).resolve_right (by simp)
  | @waits i hline hzero =>
      have hcalled : r.callers ≠ [] := List.ne_nil_of_mem (List.mem_of_getElem? hline)
      have hgoing := h.waits (.inl hcalled)
      exact ⟨fun _ => hgoing, fun _ => ended_of_going (r := r) (hgoing.trans hzero.le)⟩
  | @resets i hline =>
      have hin := List.mem_of_getElem? hline
      exact ⟨fun _ => h.waits (.inl (List.ne_nil_of_mem hin)), fun _ => h.after (.inl hin)⟩

/-- One call at a time: `wait_threads` and the flag. A second `stop_execution` waits for threads that
have ended. -/
structure Counts (r : Shutdown n ι V) : Prop where
  single : r.callers = [] ∨ ∃ line, r.callers = [line]
  flag : r.stopTheThreads = true ↔ r.callers = [.waits] ∨ r.callers = [.resets]
  before : r.returns = 0 → r.callers = [] ∨ r.callers = [.storesStop] →
    (r.executorLoop = .pops ∨ r.executorLoop = .handles) ∧
      (r.plannerLoop = .pops ∨ r.plannerLoop = .handles)
  stores : r.callers = [.storesStop] → r.waitThreads = 2
  waits : r.callers = [.waits] → r.waitThreads = r.going + 2 * r.returns
  after : r.returns = 1 ∨ r.callers = [.resets] → r.executorLoop = .ended ∧ r.plannerLoop = .ended
  once : r.returns ≤ 1 ∧ (r.callers = [.resets] → r.returns = 0)

omit [DecidableEq ι] in
theorem counts_init : (init n G first).Counts := by
  constructor <;> simp [init]

omit [DecidableEq ι] in
theorem Counts.of_pool {p : Pool n (State ι V)} (h : r.Counts) : Counts { r with pool := p } :=
  ⟨h.single, h.flag, h.before, h.stores, h.waits, h.after, h.once⟩

omit [DecidableEq ι] in
theorem Counts.caller (h : r.Counts) {i : ℕ} {line : StopLine} (hline : r.callers[i]? = some line) :
    i = 0 ∧ r.callers = [line] := by
  rcases h.single with hnone | ⟨line', hone⟩
  · simp [hnone] at hline
  · rw [hone, List.getElem?_singleton] at hline
    split at hline
    · exact ⟨‹_›, by rw [hone, Option.some.inj hline]⟩
    · cases hline

omit [DecidableEq ι] in
theorem Counts.setExecutor (h : r.Counts) {loop : ExecutorLoop} (hbefore : r.executorLoop ≠ .ended)
    (hafter : loop ≠ .ended)
    (hleft : (r.executorLoop = .pops ∨ r.executorLoop = .handles) →
      (loop = .pops ∨ loop = .handles) ∨ r.stopTheThreads = true) :
    Counts { r with executorLoop := loop } where
  single := h.single
  flag := h.flag
  before := by
    intro hreturns hline
    obtain ⟨hexecutor, hplanner⟩ := h.before hreturns hline
    refine ⟨(hleft hexecutor).resolve_right fun hflag => ?_, hplanner⟩
    have hstop := h.flag.mp hflag
    rcases hline with hline | hline <;> simp only [] at hline <;> simp [hline] at hstop
  stores := h.stores
  waits := by
    intro hline
    have hcount := h.waits hline
    simpa [going, hbefore, hafter] using hcount
  after := fun hover => absurd (h.after hover).1 hbefore
  once := h.once

omit [DecidableEq ι] in
theorem Counts.setPlanner (h : r.Counts) {loop : PlannerLoop} (hbefore : r.plannerLoop ≠ .ended)
    (hafter : loop ≠ .ended)
    (hleft : (r.plannerLoop = .pops ∨ r.plannerLoop = .handles) →
      (loop = .pops ∨ loop = .handles) ∨ r.stopTheThreads = true) :
    Counts { r with plannerLoop := loop } where
  single := h.single
  flag := h.flag
  before := by
    intro hreturns hline
    obtain ⟨hexecutor, hplanner⟩ := h.before hreturns hline
    refine ⟨hexecutor, (hleft hplanner).resolve_right fun hflag => ?_⟩
    have hstop := h.flag.mp hflag
    rcases hline with hline | hline <;> simp only [] at hline <;> simp [hline] at hstop
  stores := h.stores
  waits := by
    intro hline
    have hcount := h.waits hline
    simpa [going, hbefore, hafter] using hcount
  after := fun hover => absurd (h.after hover).2 hbefore
  once := h.once

omit [DecidableEq ι] in
theorem Counts.waits_of_left (h : r.Counts)
    (hleft : r.executorLoop = .returned ∨ r.plannerLoop = .returned) :
    r.callers = [.waits] ∧ r.returns = 0 := by
  have hover : ¬ (r.returns = 1 ∨ r.callers = [.resets]) := fun hover => by
    have hended := h.after hover
    rcases hleft with hleft | hleft <;> simp [hleft] at hended
  have hreturns : r.returns = 0 := by
    have honce := h.once.1
    have hne : r.returns ≠ 1 := fun heq => hover (.inl heq)
    omega
  have hgone : ¬ (r.callers = [] ∨ r.callers = [.storesStop]) := fun hline => by
    have hgoing := h.before hreturns hline
    rcases hleft with hleft | hleft <;> simp [hleft] at hgoing
  refine ⟨?_, hreturns⟩
  rcases h.single with hnone | ⟨line, hone⟩
  · exact absurd (.inl hnone) hgone
  · cases line with
    | storesStop => exact absurd (.inr hone) hgone
    | waits => exact hone
    | resets => exact absurd (.inr hone) hover

omit [DecidableEq ι] in
theorem Counts.endExecutor (h : r.Counts) (hloop : r.executorLoop = .returned) :
    Counts { r with waitThreads := r.waitThreads - 1, executorLoop := .ended } := by
  obtain ⟨hline, hreturns⟩ := h.waits_of_left (.inl hloop)
  have hcount := h.waits hline
  refine ⟨h.single, h.flag, ?_, ?_, fun _ => ?_, ?_, h.once⟩
  · simp [hline]
  · simp [hline]
  · simp only [going, hloop, reduceCtorEq, if_false, if_true] at hcount ⊢
    omega
  · simp [hline, hreturns]

omit [DecidableEq ι] in
theorem Counts.endPlanner (h : r.Counts) (hloop : r.plannerLoop = .returned) :
    Counts { r with waitThreads := r.waitThreads - 1, plannerLoop := .ended } := by
  obtain ⟨hline, hreturns⟩ := h.waits_of_left (.inr hloop)
  have hcount := h.waits hline
  refine ⟨h.single, h.flag, ?_, ?_, fun _ => ?_, ?_, h.once⟩
  · simp [hline]
  · simp [hline]
  · simp only [going, hloop, reduceCtorEq, if_false, if_true] at hcount ⊢
    omega
  · simp [hline, hreturns]

omit [DecidableEq ι] in
theorem Counts.going_eq (h : r.Counts) (hline : r.callers = [] ∨ r.callers = [.storesStop]) :
    r.going + 2 * r.returns = 2 := by
  have honce := h.once.1
  rcases Nat.le_one_iff_eq_zero_or_eq_one.mp honce with hreturns | hreturns
  · obtain ⟨hexecutor, hplanner⟩ := h.before hreturns hline
    have hexecutor : r.executorLoop ≠ .ended := by rcases hexecutor with h | h <;> simp [h]
    have hplanner : r.plannerLoop ≠ .ended := by rcases hplanner with h | h <;> simp [h]
    simp [going, hexecutor, hplanner, hreturns]
  · obtain ⟨hexecutor, hplanner⟩ := h.after (.inl hreturns)
    simp [going, hexecutor, hplanner, hreturns]

theorem Counts.step (h : r.Counts) (hstep : Step G planner r m r')
    (halone : m = .callStop → r.callers = []) : r'.Counts := by
  cases hstep with
  | user | work | managerHandles | pass => exact h.of_pool
  | workerEnds => exact ⟨h.single, h.flag, h.before, h.stores, h.waits, h.after, h.once⟩
  | executorStops hloop hflag =>
      exact h.setExecutor (by simp [hloop]) (by simp) fun _ => .inr hflag
  | executorPops hloop hqueue =>
      exact h.setExecutor (by simp [hloop]) (by simp) fun _ => .inl (.inr rfl)
  | executorHandles hloop hpool =>
      exact h.of_pool.setExecutor (by simp [hloop]) (by simp) fun _ => .inl (.inl rfl)
  | executorJoins hloop hended =>
      exact h.setExecutor (by simp [hloop]) (by simp) (by simp [hloop])
  | executorEnds hloop => exact h.endExecutor hloop
  | managerStops hloop hflag =>
      exact h.of_pool.setPlanner (by simp [hloop]) (by simp) fun _ => .inr hflag
  | managerPops hloop hreceived hqueue =>
      exact h.setPlanner (by simp [hloop]) (by simp) fun _ => .inl (.inr rfl)
  | managerReceives hloop hpool =>
      exact h.of_pool.setPlanner (by simp [hloop]) (by simp) fun _ => .inl (.inl rfl)
  | managerJoins hloop hjoined =>
      exact h.of_pool.setPlanner (by simp [hloop]) (by simp) (by simp [hloop])
  | managerEnds hloop => exact h.endPlanner hloop
  | callStop =>
      have hline := halone rfl
      refine ⟨by simp [hline], ?_, fun hreturns _ => h.before hreturns (.inl hline), fun _ => rfl,
        by simp [hline], ?_, ?_⟩
      · simp [h.flag, hline]
      · simpa [hline] using h.after
      · simpa [hline] using h.once.1
  | storesStop hline =>
      obtain ⟨rfl, hone⟩ := h.caller hline
      refine ⟨by simp [hone], by simp [hone], by simp [hone], by simp [hone], fun _ => ?_,
        by simpa [hone] using h.after, ?_⟩
      · have hgoing := h.going_eq (.inr hone)
        exact (h.stores hone).trans hgoing.symm
      · simpa [hone] using h.once.1
  | waits hline hzero =>
      obtain ⟨rfl, hone⟩ := h.caller hline
      have hcount := (h.waits hone).symm.trans hzero
      have hended := ended_of_going (r := r) (by omega)
      have hreturns : r.returns = 0 := by
        simp only [going, hended.1, hended.2, if_true] at hcount
        omega
      refine ⟨by simp [hone], by simp [h.flag, hone], by simp [hone], by simp [hone],
        by simp [hone], fun _ => hended, ?_⟩
      simp [hreturns]
  | resets hline =>
      obtain ⟨rfl, hone⟩ := h.caller hline
      have hreturns := h.once.2 hone
      refine ⟨by simp [hone], by simp [hone], by simp, by simp [hone], by simp [hone],
        fun _ => h.after (.inr hone), ?_⟩
      simp [hreturns, hone]

/-! ## Joining -/

structure Joined (r : Shutdown n ι V) : Prop where
  pool : r.executorLoop = .returned ∨ r.executorLoop = .ended → ∀ w, r.workerEnded w = true
  worker : ∀ w, r.workerEnded w = true → r.pool.worker w = none

theorem Joined.of_pool (h : r.Joined) {p : Pool n (State ι V)} {m : Pool.Move n (Action ι V)}
    (hworker : ∀ w, m = .worker w → r.workerEnded w = false)
    (hpool : r.pool.step (updateTasks G planner) m = some p) : Joined { r with pool := p } := by
  refine ⟨h.pool, fun w (hended : r.workerEnded w = true) => ?_⟩
  have hother : m ≠ .worker w := fun heq => by simp [hworker w heq] at hended
  exact (Pool.worker_of_step hpool hother).trans (h.worker w hended)

theorem Joined.step (h : r.Joined) (hstep : Step G planner r m r') : r'.Joined := by
  cases hstep with
  | user _ hpool | managerHandles _ hpool | pass hpool => exact h.of_pool (by simp) hpool
  | executorHandles hloop hpool => exact ⟨by simp, (h.of_pool (by simp) hpool).worker⟩
  | managerReceives hloop hpool =>
      have hjoined := h.of_pool (by simp) hpool
      exact ⟨hjoined.pool, hjoined.worker⟩
  | work hgoing hpool =>
      refine h.of_pool ?_ hpool
      rintro v ⟨⟩
      exact hgoing
  | @workerEnds w hgoing hidle =>
      refine ⟨fun hloop v => ?_, fun v hended => ?_⟩
      · by_cases hv : v = w <;> simp [hv, h.pool hloop]
      · by_cases hv : v = w
        · exact hv ▸ hidle
        · exact h.worker v (by simpa [hv] using hended)
  | executorStops | executorPops => exact ⟨by simp, h.worker⟩
  | executorJoins hloop hended => exact ⟨fun _ => hended, h.worker⟩
  | executorEnds hloop => exact ⟨fun _ => h.pool (.inl hloop), h.worker⟩
  | _ => exact ⟨h.pool, h.worker⟩

/-! ## Runs -/

structure Inv (G : Graph ι V) (planner : Planner) (first : ID) (r : Shutdown n ι V) : Prop where
  follows : ∃ moves a, Pool.run (updateTasks G planner) (pooled n G first) moves = some a ∧
    Follows r.plannerLoop r.pool a
  called : r.Called
  joined : r.Joined

theorem inv_init : (init n G first).Inv G planner first where
  follows := ⟨[], pooled n G first, rfl, .planning (.inl rfl)⟩
  called := called_init
  joined := ⟨by simp [init], by simp [init]⟩

theorem Inv.step (h : r.Inv G planner first) (hstep : Step G planner r m r') :
    r'.Inv G planner first := by
  obtain ⟨moves, a, hrun, hfollows⟩ := h.follows
  refine ⟨?_, h.called.step hstep, h.joined.step hstep⟩
  cases matched_step hfollows hstep with
  | control hfollows' _ => exact ⟨moves, a, hrun, hfollows'⟩
  | system m' a' ha' hfollows' _ =>
      refine ⟨moves ++ [m'], a', ?_, hfollows'⟩
      rw [Pool.run, List.foldlM_append, Option.bind_eq_bind, Option.bind_eq_some_iff]
      exact ⟨a, hrun, by simpa using ha'⟩

theorem Inv.run {moves : List (Move n ι V)} (h : r.Inv G planner first)
    (hrun : moves.foldlM (Shutdown.step G planner) r = some r') : r'.Inv G planner first :=
  Termination.keeps (fun _ _ _ h hstep => h.step (step_of_step hstep)) h hrun

theorem Counts.run {moves : List (Move n ι V)} (h : r.Counts)
    (hrun : moves.foldlM (oneAtATime G planner) r = some r') : r'.Counts := by
  refine Termination.keeps (fun r m r' h hstep => ?_) h hrun
  obtain ⟨hstep, halone⟩ := step_of_oneAtATime hstep
  exact h.step (step_of_step hstep) halone

/-- The program and its pool are as in a run in which nobody stops them, but for the running planner
once the loop of the `PlannerManager` has been left: it may have been cut short. -/
theorem Inv.exists_pool (h : r.Inv G planner first) :
    ∃ moves a running stop, Pool.run (updateTasks G planner) (pooled n G first) moves = some a ∧
      r.pool = { a with system := a.system.setPlanning running stop } ∧
      (running = none ∨ running = a.system.planner.runningPlanner) ∧
      (r.plannerLoop = .pops ∨ r.plannerLoop = .handles → r.pool = a) := by
  obtain ⟨moves, a, hrun, hfollows⟩ := h.follows
  generalize r.plannerLoop = loop, r.pool = p at hfollows
  cases hfollows with
  | planning _ =>
      exact ⟨moves, a, a.system.planner.runningPlanner, _, hrun, rfl, .inr rfl, fun _ => rfl⟩
  | stopping hrunning => exact ⟨moves, a, _, _, hrun, rfl, hrunning, by simp⟩
  | stopped hloop =>
      refine ⟨moves, a, _, _, hrun, rfl, .inl rfl, fun hgoing => ?_⟩
      rcases hloop with rfl | rfl <;> simp at hgoing

theorem Inv.exists_run (h : r.Inv G planner first) :
    ∃ actions s running stop, State.run G planner (State.init G first) actions = some s ∧
      r.pool.system = s.setPlanning running stop ∧
      (running = none ∨ running = s.planner.runningPlanner) ∧
      (r.plannerLoop = .pops ∨ r.plannerLoop = .handles → r.pool.system = s) := by
  obtain ⟨moves, a, running, stop, hrun, hpool, hrunning, hsame⟩ := h.exists_pool
  obtain ⟨actions, hactions, -⟩ := Pool.system_run lawful_updateTasks hrun
  have hactions : State.run G planner (State.init G first) actions = some a.system :=
    (State.run_eq_foldlM _ actions).trans hactions
  exact ⟨actions, a.system, running, stop, hactions, by rw [hpool], hrunning,
    fun hgoing => by rw [hsame hgoing]⟩

/-- Nothing of the program is left. -/
structure Over (r : Shutdown n ι V) : Prop where
  executor : r.executorLoop = .ended
  plannerManager : r.plannerLoop = .ended
  runningPlanner : r.pool.system.planner.runningPlanner = none
  worker : ∀ w, r.workerEnded w = true ∧ r.pool.worker w = none
  task : ∀ task ∈ r.pool.system.tasks, task.phase.isBegun = true → task.phase.isFinished = true

theorem Inv.over (h : r.Inv G planner first) (hreturns : 0 < r.returns) : r.Over := by
  obtain ⟨hexecutor, hplanner⟩ := h.called.after (.inr hreturns)
  obtain ⟨moves, a, hrun, hfollows⟩ := h.follows
  obtain ⟨taken, hinv⟩ := inv_of_pooled_run hrun
  have hworker : ∀ w, r.workerEnded w = true ∧ r.pool.worker w = none := fun w =>
    have hended := h.joined.pool (.inr hexecutor) w
    ⟨hended, h.joined.worker w hended⟩
  have hpool : r.pool = { a with system := a.system.setPlanning none false } := by
    rw [hplanner] at hfollows
    generalize r.pool = p at hfollows ⊢
    cases hfollows with
    | planning hloop => simp at hloop
    | stopped _ => rfl
  refine ⟨hexecutor, hplanner, by rw [hpool]; rfl, hworker, fun task htask hbegun => ?_⟩
  obtain ⟨i, hi⟩ := List.mem_iff_getElem?.mp htask
  have hi' : a.system.tasks[i]? = some task := by
    rw [hpool] at hi
    exact hi
  by_contra hrunning
  obtain ⟨w, hw⟩ := hinv.exists_worker (i := i) (by simp [updateTasks, hi', hbegun])
    (by simpa [updateTasks, hi'] using hrunning)
  have hidle := (hworker w).2
  rw [hpool] at hidle
  simp [hw] at hidle

/-- After `stop_execution` only user threads move, and their values go nowhere. -/
theorem Over.step (h : r.Over) (hreturns : 0 < r.returns) (hstep : Step G planner r m r') :
    0 < r'.returns ∧ r'.pool.system.tasks = r.pool.system.tasks ∧
      ∃ sends, r'.pool.system.trace = r.pool.system.trace ++ sends ∧
        ∀ event ∈ sends, ∃ T x value, event = .topSend T x value := by
  have hexecutor := h.executor
  have hmanager := h.plannerManager
  cases hstep with
  | user huser hpool =>
      rw [Pool.step, Option.ite_none_left_eq_some] at hpool
      obtain ⟨s, hs, rfl⟩ := Option.map_eq_some_iff.mp hpool.2
      exact ⟨hreturns, State.trace_of_user huser hs⟩
  | @work w p hgoing | @workerEnds w hgoing => simp [h.worker w] at hgoing
  | pass hpool =>
      simp [Pool.step, updateTasks, Action.isTask, State.step, h.runningPlanner] at hpool
  | callStop | storesStop | waits => exact ⟨hreturns, rfl, [], by simp, by simp⟩
  | resets => exact ⟨Nat.succ_pos _, rfl, [], by simp, by simp⟩
  | _ => simp_all

theorem Inv.over_run {moves : List (Move n ι V)} (h : r.Inv G planner first)
    (hreturns : 0 < r.returns) (hrun : moves.foldlM (Shutdown.step G planner) r = some r') :
    r'.pool.system.tasks = r.pool.system.tasks ∧
      ∃ sends, r'.pool.system.trace = r.pool.system.trace ++ sends ∧
        ∀ event ∈ sends, ∃ T x value, event = .topSend T x value := by
  induction moves generalizing r with
  | nil =>
      obtain rfl := Option.some.inj hrun
      exact ⟨rfl, [], (List.append_nil _).symm, by simp⟩
  | cons m moves ih =>
      rw [List.foldlM_cons] at hrun
      obtain ⟨q, hq, hrun⟩ := Option.bind_eq_some_iff.mp hrun
      obtain ⟨hreturns', htasks, sends, htrace, hsends⟩ :=
        (h.over hreturns).step hreturns (step_of_step hq)
      obtain ⟨htasks', sends', htrace', hsends'⟩ := ih (h.step (step_of_step hq)) hreturns' hrun
      refine ⟨htasks'.trans htasks, sends ++ sends', ?_, fun event hevent => ?_⟩
      · rw [htrace', htrace, List.append_assoc]
      · exact (List.mem_append.mp hevent).elim (hsends event) (hsends' event)

/-- However the program is stopped, its state is one that it reaches when nobody stops it, but for a
running planner that may have been cut short. When a `stop_execution` has returned, all its threads
are over, every task that had begun has been run to its end, and from then on no value is updated,
delivered or finalised. Of calls that do not overlap only the first one returns. -/
theorem stopped {moves : List (Move n ι V)}
    (hrun : moves.foldlM (Shutdown.step G planner) (init n G first) = some r) :
    (∃ actions s running stop, State.run G planner (State.init G first) actions = some s ∧
        r.pool.system = s.setPlanning running stop ∧
        (running = none ∨ running = s.planner.runningPlanner) ∧
        (r.plannerLoop = .pops ∨ r.plannerLoop = .handles → r.pool.system = s)) ∧
      (0 < r.returns → r.Over ∧ ∀ (moves' : List (Move n ι V)) (r' : Shutdown n ι V),
        moves'.foldlM (Shutdown.step G planner) r = some r' →
        r'.pool.system.tasks = r.pool.system.tasks ∧
          ∃ sends, r'.pool.system.trace = r.pool.system.trace ++ sends ∧
            ∀ event ∈ sends, ∃ T x value, event = .topSend T x value) ∧
      (moves.foldlM (oneAtATime G planner) (init n G first) = some r → r.returns ≤ 1) := by
  have h : r.Inv G planner first := inv_init.run hrun
  refine ⟨h.exists_run, fun hreturns => ⟨h.over hreturns, ?_⟩, fun halone => ?_⟩
  · exact fun moves' r' hrun' => h.over_run hreturns hrun'
  · exact (counts_init.run halone).once.1

def turns (G : Graph ι V) (planner : Planner) : ℕ → Shutdown n ι V → List (Move n ι V)
  | 0, _ => []
  | fuel + 1, r =>
      let moves := [.executor, .plannerManager, .runningPlanner, .stopExecution 0] ++
        (List.finRange n).map .worker
      match moves.findSome? fun m => (r.step G planner m).map (m, ·) with
      | none => []
      | some (m, r) => m :: turns G planner fuel r

def goOn (moves : List (Move 2 (Fin 3) ℕ)) (fuel : ℕ) : List (Move 2 (Fin 3) ℕ) :=
  moves ++ (moves.foldlM (step sinkMapHold .rankBased) (init 2 sinkMapHold 0)).elim []
    (turns sinkMapHold .rankBased fuel)

/-- `stop_execution` is called before the second of three transactions has been executed. -/
def stopRun (fuel : ℕ) : List (Move 2 (Fin 3) ℕ) :=
  goOn (goOn (twoSends.map .user) 40 ++ [.callStop]) fuel

def stoppedAt (fuel : ℕ) : Shutdown 2 (Fin 3) ℕ :=
  ((stopRun fuel).foldlM (step sinkMapHold .rankBased) (init 2 sinkMapHold 0)).getD
    (init 2 sinkMapHold 0)

theorem run_stopRun (fuel : ℕ)
    (h : ((stopRun fuel).foldlM (step sinkMapHold .rankBased) (init 2 sinkMapHold 0)).isSome) :
    (stopRun fuel).foldlM (step sinkMapHold .rankBased) (init 2 sinkMapHold 0) =
      some (stoppedAt fuel) := by
  obtain ⟨r, hr⟩ := Option.isSome_iff_exists.mp h
  rw [stoppedAt, hr, Option.getD_some]

theorem run_stopRun_oneAtATime (fuel : ℕ)
    (h : ((stopRun fuel).foldlM (oneAtATime sinkMapHold .rankBased)
      (init 2 sinkMapHold 0)).isSome) :
    (stopRun fuel).foldlM (oneAtATime sinkMapHold .rankBased) (init 2 sinkMapHold 0) =
      some (stoppedAt fuel) := by
  obtain ⟨r, hr⟩ := Option.isSome_iff_exists.mp h
  rw [hr, stoppedAt, foldlM_step_of_oneAtATime hr, Option.getD_some]

theorem stopped_stopRun :
    (stoppedAt 100).Over ∧ (stoppedAt 100).returns = 1 ∧
      ∀ (moves : List (Move 2 (Fin 3) ℕ)) (r : Shutdown 2 (Fin 3) ℕ),
        moves.foldlM (step sinkMapHold .rankBased) (stoppedAt 100) = some r →
        r.pool.system.tasks = (stoppedAt 100).pool.system.tasks ∧
          ∃ sends, r.pool.system.trace = (stoppedAt 100).pool.system.trace ++ sends ∧
            ∀ event ∈ sends, ∃ T x value, event = .topSend T x value := by
  obtain ⟨-, hover, -⟩ := stopped (run_stopRun 100 (by decide +kernel))
  exact ⟨(hover (by decide +kernel)).1, by decide +kernel, (hover (by decide +kernel)).2⟩

end Shutdown

end Prf
