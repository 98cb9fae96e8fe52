import Prf.Proof.Scheduling
import Prf.Proof.Termination
import Prf.ThreadPool

/-!
# The pool is large enough

With any number of threads in the pool the program does nothing that it does not do in the composed
system, and with one thread it already comes to rest in the same states: no task waits forever in the
queue of the pool.
-/

namespace Prf

variable {ι V : Type} [DecidableEq ι] {G : Graph ι V} {planner : Planner} {first : ID}

/-! ## The tasks of a state -/

namespace State

variable {s s' : State ι V}

inductive TaskMove (action : Action ι V) (s s' : State ι V) : Prop where
  | nothing (htasks : s'.tasks = s.tasks) (haction : action.isTask = false)
  | start (T c : ID) (htasks : s'.tasks = s.tasks ++ [⟨T, c, .queued⟩])
      (haction : action.isTask = false)
  | advance (i : ℕ) (task : Task ι V) (phase : TaskPhase ι V) (hi : s.tasks[i]? = some task)
      (hrunning : task.phase ≠ .finished) (hbegun : phase.isBegun = true)
      (htasks : s'.tasks = s.tasks.set i { task with phase := phase }) (haction : action = .task i)

theorem taskMove_of_step {action : Action ι V} (h : step G planner s action = some s') :
    TaskMove action s s' := by
  cases action with
  | register =>
      obtain rfl := Option.some.inj h
      exact .nothing rfl rfl
  | afterBuildHook =>
      simp only [step] at h
      split at h
      · cases h
      · rw [Option.ite_none_right_eq_some] at h
        obtain rfl := Option.some.inj h.2
        exact .nothing rfl rfl
  | send T x value =>
      rw [step, Option.ite_none_right_eq_some] at h
      obtain rfl := Option.some.inj h.2
      exact .nothing rfl rfl
  | commit T =>
      rw [step, Option.ite_none_right_eq_some] at h
      obtain rfl := Option.some.inj h.2
      exact .nothing rfl rfl
  | executor =>
      simp only [step] at h
      split at h
      · cases h
      · rename_i message rest hfront
        cases message with
        | transactionExecute T | registerTransaction T =>
            obtain rfl := Option.some.inj h
            exact .nothing rfl rfl
        | startUpdateCluster T c =>
            simp only [handleExecutorMessage] at h
            split at h
            · obtain rfl := Option.some.inj h
              exact .nothing rfl rfl
            · split at h
              · obtain rfl := Option.some.inj h
                exact .nothing rfl rfl
              · obtain rfl := Option.some.inj h
                exact .start T c rfl rfl
        | finalizeTransaction T =>
            simp only [handleExecutorMessage] at h
            split at h
            · obtain rfl := Option.some.inj h
              exact .nothing rfl rfl
            · split at h
              · cases h
              · obtain rfl := Option.some.inj h
                exact .nothing rfl rfl
  | task i =>
      simp only [step] at h
      split at h
      · cases h
      · rename_i task hi
        obtain ⟨T, c, phase⟩ := task
        cases phase with
        | executing sub =>
            simp only [runTask] at h
            split at h
            · obtain rfl := Option.some.inj h
              exact .advance i _ _ hi (by simp) rfl rfl rfl
            · split at h
              · cases h
              · obtain rfl := Option.some.inj h
                exact .advance i _ _ hi (by simp) rfl rfl rfl
        | finished => simp [runTask] at h
        | queued | announced | registered | buffered =>
            obtain rfl := Option.some.inj h
            exact .advance i _ _ hi (by simp) rfl rfl rfl
  | plannerReceive =>
      simp only [step] at h
      split at h
      · rw [receivePlannerMessage] at h
        split at h
        · obtain rfl := Option.some.inj h
          exact .nothing rfl rfl
        · obtain ⟨states, -, rfl⟩ := Option.map_eq_some_iff.mp h
          exact .nothing rfl rfl
      · cases h
  | plannerHandle =>
      simp only [step] at h
      split at h
      · obtain ⟨states, -, rfl⟩ := Option.map_eq_some_iff.mp h
        exact .nothing rfl rfl
      · cases h
  | plannerPass =>
      simp only [step] at h
      split at h
      · cases h
      · obtain rfl := Option.some.inj h
        refine .nothing ?_ rfl
        rw [runPlanner]
        split <;> rfl

end State

omit [DecidableEq ι] in
theorem any_append (l : List (Task ι V)) (task : Task ι V) (f : Task ι V → Bool) (i : ℕ)
    (htask : f task = false) : (l ++ [task])[i]?.any f = l[i]?.any f := by
  rcases lt_trichotomy i l.length with hlt | rfl | hgt
  · rw [List.getElem?_append_left hlt]
  · simp [htask]
  · rw [List.getElem?_eq_none hgt.le, List.getElem?_eq_none (by simp; omega)]

theorem lawful_updateTasks : (updateTasks G planner).Lawful where
  started_le := by
    intro s a s' h
    cases State.taskMove_of_step h with
    | nothing htasks => exact (congrArg List.length htasks).ge
    | start T c htasks => simp [updateTasks, htasks]
    | advance i task phase hi hrunning hbegun htasks => simp [updateTasks, htasks]
  started_advance := by
    intro s i s' h
    have hstep : State.step G planner s (.task i) = some s' := h
    cases State.taskMove_of_step hstep with
    | nothing htasks => exact congrArg List.length htasks
    | start T c htasks haction => cases haction
    | advance i task phase hi hrunning hbegun htasks => simp [updateTasks, htasks]
  lt_of_begun := by
    intro s i h
    by_contra hge
    simp only [updateTasks] at h hge
    rw [List.getElem?_eq_none (not_lt.mp hge)] at h
    cases h
  begun_of_ended := by
    intro s i h
    simp only [updateTasks, Option.any_eq_true] at h ⊢
    obtain ⟨task, hi, hended⟩ := h
    refine ⟨task, hi, ?_⟩
    cases hphase : task.phase <;> simp_all [TaskPhase.isBegun, TaskPhase.isFinished]
  begun_step := by
    intro s a s' i h hbegun
    cases State.taskMove_of_step h with
    | nothing htasks => exact .inl (by simpa [updateTasks, htasks] using hbegun)
    | start T c htasks =>
        left
        simp only [updateTasks, htasks] at hbegun ⊢
        rwa [any_append _ _ _ _ (by rfl)] at hbegun
    | advance j task phase hj hrunning _ htasks haction =>
        by_cases heq : i = j
        · exact .inr (heq ▸ haction)
        · left
          simpa [updateTasks, htasks, List.getElem?_set_ne (Ne.symm heq)] using hbegun
  ended_step := by
    intro s a s' i h hended
    cases State.taskMove_of_step h with
    | nothing htasks => simpa [updateTasks, htasks] using hended
    | start T c htasks =>
        simp only [updateTasks, htasks] at hended ⊢
        rwa [any_append _ _ _ _ (by rfl)]
    | advance j task phase hj hrunning _ htasks haction =>
        have hne : i ≠ j := by
          rintro rfl
          simp only [updateTasks, hj, Option.any_some] at hended
          cases hphase : task.phase <;> simp_all [TaskPhase.isFinished]
        simpa [updateTasks, htasks, List.getElem?_set_ne (Ne.symm hne)] using hended
  isJob_advance := fun _ => rfl
  advance_injective := fun _ _ h => Action.task.inj h

omit [DecidableEq ι] in
theorem length_filter_eq_card (l : List (Task ι V)) (f : Task ι V → Bool) :
    (l.filter f).length = {i ∈ Finset.range l.length | l[i]?.any f}.card := by
  induction l using List.reverseRecOn with
  | nil => rfl
  | append_singleton l task ih =>
      have hsame : {i ∈ Finset.range l.length | (l ++ [task])[i]?.any f} =
          {i ∈ Finset.range l.length | l[i]?.any f} := by
        refine Finset.filter_congr fun i hi => ?_
        rw [List.getElem?_append_left (Finset.mem_range.mp hi)]
      have hlast : (l ++ [task])[l.length]?.any f = f task := by simp
      rw [List.filter_append, List.length_append, ih, List.length_append, List.length_singleton,
        Finset.range_add_one, Finset.filter_insert, hsame, hlast]
      cases hf : f task <;> simp [hf]

/-! ## The program with a pool -/

/-- The threads of the program take turns, those of the pool last, until none of them can move or
`fuel` moves are made. -/
def pooledTurns {n : ℕ} (G : Graph ι V) (planner : Planner) :
    ℕ → Pool n (State ι V) → List (Pool.Move n (Action ι V))
  | 0, _ => []
  | fuel + 1, p =>
      let moves := [.executor, .plannerHandle, .plannerReceive, .plannerPass].map Pool.Move.system ++
        (List.finRange n).map .worker
      match moves.findSome? fun m => (p.step (updateTasks G planner) m).map (m, ·) with
      | none => []
      | some (m, p) => m :: pooledTurns G planner fuel p

/-- The run of `twoSends` with two threads in the pool, stopped after `fuel` moves. -/
def twoWorkers (fuel : ℕ) : List (Pool.Move 2 (Action (Fin 3) ℕ)) :=
  let users := twoSends.map .system
  users ++ (Pool.run (updateTasks sinkMapHold .rankBased) (pooled 2 sinkMapHold 0) users).elim []
    (pooledTurns sinkMapHold .rankBased fuel)

/-- The state after that run. -/
def pooledAt (fuel : ℕ) : Pool 2 (State (Fin 3) ℕ) :=
  (Pool.run (updateTasks sinkMapHold .rankBased) (pooled 2 sinkMapHold 0)
    (twoWorkers fuel)).getD (pooled 2 sinkMapHold 0)

theorem run_twoWorkers (fuel : ℕ)
    (h : (Pool.run (updateTasks sinkMapHold .rankBased) (pooled 2 sinkMapHold 0)
      (twoWorkers fuel)).isSome) :
    Pool.run (updateTasks sinkMapHold .rankBased) (pooled 2 sinkMapHold 0) (twoWorkers fuel) =
      some (pooledAt fuel) := by
  obtain ⟨p, hp⟩ := Option.isSome_iff_exists.mp h
  rw [pooledAt, hp, Option.getD_some]

section Pooled

variable {n : ℕ} {p p' : Pool n (State ι V)} {moves moves' : List (Pool.Move n (Action ι V))}

theorem inv_of_pooled_run (hrun : Pool.run (updateTasks G planner) (pooled n G first) moves = some p) :
    ∃ taken, Pool.Inv (updateTasks G planner) taken p :=
  Pool.Inv.run lawful_updateTasks (Pool.inv_idle rfl fun _ => rfl) hrun

/-- The program with a pool does what the composed system allows; no more update tasks are under way
than the pool has threads, and they begin in the order in which the `Executor` has requested them. -/
theorem pooled_run (hrun : Pool.run (updateTasks G planner) (pooled n G first) moves = some p) :
    (∃ actions, State.run G planner (State.init G first) actions = some p.system) ∧
      (p.system.tasks.filter fun task => task.phase.isBegun ∧ ¬ task.phase.isFinished).length ≤ n ∧
      ∀ i j task task', i < j → p.system.tasks[i]? = some task → p.system.tasks[j]? = some task' →
        task'.phase.isBegun → task.phase.isFinished ∨ ∃ w, p.worker w = some i := by
  obtain ⟨taken, hinv⟩ := inv_of_pooled_run hrun
  refine ⟨?_, ?_, ?_⟩
  · obtain ⟨actions, hactions, -⟩ := Pool.system_run lawful_updateTasks hrun
    exact ⟨actions, (State.run_eq_foldlM _ actions).trans hactions⟩
  · rw [length_filter_eq_card]
    refine le_trans (Finset.card_le_card fun i hi => ?_) hinv.card_le
    simp only [Finset.mem_filter, Finset.mem_range, Option.any_eq_true] at hi ⊢
    obtain ⟨hlt, task, htask, hphase⟩ := hi
    simp only [Bool.decide_and, Bool.and_eq_true, decide_eq_true_eq] at hphase
    exact ⟨hlt, by simpa [updateTasks, htask] using hphase⟩
  · intro i j task task' hlt hi hj hbegun
    have hfifo := hinv.fifo hlt (by simp [updateTasks, hj, hbegun])
    simpa [updateTasks, hi] using hfifo

/-- One transaction is being executed, and a task of the next one waits in the queue of the pool. -/
theorem pooled_run_twoWorkers :
    (∃ actions, State.run sinkMapHold .rankBased (State.init sinkMapHold 0) actions =
        some (pooledAt 60).system) ∧
      ((pooledAt 60).system.tasks.filter fun task =>
        task.phase.isBegun ∧ ¬ task.phase.isFinished).length ≤ 2 ∧
      ∀ i j task task', i < j → (pooledAt 60).system.tasks[i]? = some task →
        (pooledAt 60).system.tasks[j]? = some task' → task'.phase.isBegun →
        task.phase.isFinished ∨ ∃ w, (pooledAt 60).worker w = some i :=
  pooled_run (run_twoWorkers 60 (by decide +kernel))

theorem reached_of_pooled_run
    (hrun : Pool.run (updateTasks G planner) (pooled n G first) moves = some p) :
    State.Reached planner G first p.system := by
  obtain ⟨actions, hactions, -⟩ := Pool.system_run lawful_updateTasks hrun
  exact State.steps_of_run ((State.run_eq_foldlM _ actions).trans hactions)

/-- A move of a thread of the program, and not of a user thread. -/
def IsInternal : Pool.Move n (Action ι V) → Prop :=
  Pool.Own fun action => action.isInternal

theorem usersPart_pool_run
    (hrun : Pool.run (updateTasks G planner) p moves = some p') (hinternal : ∀ m ∈ moves, IsInternal m) :
    p'.system.usersPart = p.system.usersPart := by
  induction moves generalizing p with
  | nil =>
      obtain rfl := Option.some.inj hrun
      rfl
  | cons m moves ih =>
      obtain ⟨hm, hinternal⟩ := List.forall_mem_cons.mp hinternal
      rw [Pool.run, List.foldlM_cons] at hrun
      obtain ⟨q, hq, hrest⟩ := Option.bind_eq_some_iff.mp hrun
      refine (ih hrest hinternal).trans ?_
      rcases Pool.step_cases hq with ⟨a, s, -, rfl, hs, rfl⟩ | ⟨w, i, s, -, -, hs, rfl⟩ |
        ⟨w, i, rest, -, -, -, rfl⟩ | ⟨w, i, -, -, -, rfl⟩
      · exact State.usersPart_of_internal hs hm
      · have hstep : State.step G planner p.system (.task i) = some s := hs
        exact State.usersPart_of_internal hstep rfl
      · rfl
      · rfl

theorem acc_of_pooled_run (hacyclic : ∀ c, G.ListensAcyclic c)
    (hrun : Pool.run (updateTasks G planner) (pooled n G first) moves = some p) :
    Acc (Termination.Moves (Pool.step (updateTasks G planner)) IsInternal) p :=
  Pool.acc_of_system (fun _ => rfl) ((reached_of_pooled_run hrun).acc_internal hacyclic)

def ownMoves (p : Pool n (State ι V)) : List (Pool.Move n (Action ι V)) :=
  (List.finRange n).map .worker ++ p.system.internalActions.map .system

theorem mem_ownMoves {m : Pool.Move n (Action ι V)} (hinternal : IsInternal m)
    (hstep : p.step (updateTasks G planner) m = some p') : m ∈ ownMoves p := by
  cases m with
  | worker w => simp [ownMoves]
  | system action =>
      rcases Pool.step_cases hstep with ⟨a, s, -, heq, hs, -⟩ | ⟨w, i, s, heq, -⟩ |
        ⟨w, i, rest, heq, -⟩ | ⟨w, i, heq, -⟩
      · cases heq
        have hmem := State.mem_internalActions hinternal hs
        simp [ownMoves, hmem]
      all_goals cases heq

/-- At rest of the pool no closure is left in its queue, and all have returned. -/
theorem finished_of_rest (hn : 0 < n) (hreach : State.Reached planner G first p.system) {taken : ℕ}
    (hinv : Pool.Inv (updateTasks G planner) taken p)
    (hrest : ∀ m, IsInternal m → p.step (updateTasks G planner) m = none) :
    p.queue = [] ∧ ∀ task ∈ p.system.tasks, task.phase = .finished := by
  have hprogress : ∀ i, i < (updateTasks G planner).started p.system →
      (updateTasks G planner).ended p.system i = false →
        ∃ s, (updateTasks G planner).step p.system ((updateTasks G planner).advance i) = some s := by
    intro i hi hrunning
    obtain ⟨task, htask⟩ : ∃ task, p.system.tasks[i]? = some task :=
      ⟨_, List.getElem?_eq_getElem hi⟩
    have hphase : task.phase ≠ .finished := by
      intro hphase
      simp [updateTasks, htask, hphase, TaskPhase.isFinished] at hrunning
    obtain ⟨s', hs'⟩ := hreach.exists_runTask htask hphase
    exact ⟨s', by simp [updateTasks, State.step, htask, hs']⟩
  obtain ⟨hidle, hqueue⟩ := hinv.idle_of_rest hn hprogress fun w => hrest (.worker w) trivial
  refine ⟨hqueue, fun task htask => ?_⟩
  obtain ⟨i, hlt, hi⟩ := List.getElem_of_mem htask
  have hended := hinv.ended_of_idle hidle hqueue (i := i) hlt
  simp only [updateTasks, List.getElem?_eq_getElem hlt, hi, Option.any_some] at hended
  cases hphase : task.phase <;> simp_all [TaskPhase.isFinished]

theorem atRest_of_pool (hn : 0 < n) (hreach : State.Reached planner G first p.system) {taken : ℕ}
    (hinv : Pool.Inv (updateTasks G planner) taken p)
    (hrest : ∀ m, IsInternal m → p.step (updateTasks G planner) m = none) :
    State.AtRest G planner p.system := by
  have hfinished := (finished_of_rest hn hreach hinv hrest).2
  intro action hinternal
  by_cases htask : action.isTask
  · cases action <;> simp only [Action.isTask, Bool.false_eq_true] at htask
    rename_i i
    cases hi : p.system.tasks[i]? with
    | none => simp [State.step, hi]
    | some task =>
        simp [State.step, hi, State.runTask, hfinished task (List.mem_of_getElem? hi)]
  · have hnone := hrest (.system action) hinternal
    simpa [Pool.step, updateTasks, htask] using hnone

/-- With at least one thread in the pool the program comes to rest after a bounded number of moves.
Then no closure waits in the queue of the pool, all have returned, and the transactions before the
first one that the user threads still hold are finalised. -/
theorem pooled_comes_to_rest (hn : 0 < n) (hacyclic : ∀ c, G.ListensAcyclic c)
    (hrun : Pool.run (updateTasks G planner) (pooled n G first) moves = some p) :
    (∃ bound, ∀ moves' p', (∀ m ∈ moves', IsInternal m) →
        Pool.run (updateTasks G planner) p moves' = some p' → moves'.length ≤ bound) ∧
      ∀ moves' p', (∀ m ∈ moves', IsInternal m) →
        Pool.run (updateTasks G planner) p moves' = some p' →
        (∀ m, IsInternal m → p'.step (updateTasks G planner) m = none) →
        p'.queue = [] ∧ (∀ task ∈ p'.system.tasks, task.phase = .finished) ∧
          ∀ T, first ≤ T →
            (T ∈ p'.system.finalized ↔ ∀ T', first ≤ T' → T' ≤ T → T' ∈ p.system.committed) := by
  constructor
  · obtain ⟨bound, hbound⟩ := Termination.exists_bound (acc_of_pooled_run hacyclic hrun) _
      fun p m p' => mem_ownMoves
    exact ⟨bound, fun moves' p' hinternal hrun' => hbound moves' hinternal p' hrun'⟩
  · intro moves' p' hinternal hrun' hrest
    have hwhole : Pool.run (updateTasks G planner) (pooled n G first) (moves ++ moves') = some p' := by
      rw [Pool.run, List.foldlM_append, Option.bind_eq_bind, Option.bind_eq_some_iff]
      exact ⟨p, hrun, hrun'⟩
    obtain ⟨taken, hinv⟩ := inv_of_pooled_run hwhole
    have hreach' := reached_of_pooled_run hwhole
    obtain ⟨hqueue, hfinished⟩ := finished_of_rest hn hreach' hinv hrest
    refine ⟨hqueue, hfinished, fun T hfirst => ?_⟩
    have husers := usersPart_pool_run hrun' hinternal
    simp only [State.usersPart, Prod.mk.injEq] at husers
    rw [← husers.2.1]
    exact hreach'.mem_finalized_of_atRest (atRest_of_pool hn hreach' hinv hrest) hfirst

end Pooled

theorem pooled_comes_to_rest_twoWorkers :
    (∃ bound, ∀ moves p, (∀ m ∈ moves, IsInternal m) →
        Pool.run (updateTasks sinkMapHold .rankBased) (pooledAt 0) moves = some p →
        moves.length ≤ bound) ∧
      ∀ moves p, (∀ m ∈ moves, IsInternal m) →
        Pool.run (updateTasks sinkMapHold .rankBased) (pooledAt 0) moves = some p →
        (∀ m, IsInternal m → p.step (updateTasks sinkMapHold .rankBased) m = none) →
        p.queue = [] ∧ (∀ task ∈ p.system.tasks, task.phase = .finished) ∧
          ∀ T, 0 ≤ T → (T ∈ p.system.finalized ↔
            ∀ T', 0 ≤ T' → T' ≤ T → T' ∈ (pooledAt 0).system.committed) :=
  pooled_comes_to_rest (by decide) State.listensAcyclic_sinkMapHold
    (run_twoWorkers 0 (by decide +kernel))

end Prf
