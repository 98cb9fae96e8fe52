import Prf.Proof.Registration
import Prf.System

/-!
# The steps of the composed system

One rule for each thing `State.step` can do, with the state it leaves written out. Everything that is
proved of all runs is proved from these rules. Tasks are told apart by their transaction and their
cluster, and `phaseOf` looks a task up by them.
-/

namespace Prf

section Lookup

variable {α β : Type} [DecidableEq β] (key : α → β) {l : List α} {i : ℕ} {a : α} (a' : α)

theorem find?_key_of_getElem? (hnodup : (l.map key).Nodup) (hi : l[i]? = some a) :
    (l.find? fun b => key b = key a) = some a := by
  induction l generalizing i with
  | nil => simp at hi
  | cons b l ih =>
      obtain ⟨hb, hnodup⟩ := List.nodup_cons.mp hnodup
      cases i with
      | zero =>
          obtain rfl : b = a := by simpa using hi
          simp
      | succ i =>
          have hi : l[i]? = some a := by simpa using hi
          have hne : key b ≠ key a := fun heq =>
            hb (heq ▸ List.mem_map_of_mem (List.mem_of_getElem? hi))
          rw [List.find?_cons_of_neg (by simpa using hne)]
          exact ih hnodup hi

theorem find?_key_set (hnodup : (l.map key).Nodup) (hi : l[i]? = some a) (ha : key a' = key a)
    (k : β) :
    ((l.set i a').find? fun b => key b = k) =
      if key a = k then some a' else l.find? fun b => key b = k := by
  induction l generalizing i with
  | nil => simp at hi
  | cons b l ih =>
      obtain ⟨hb, hnodup⟩ := List.nodup_cons.mp hnodup
      cases i with
      | zero =>
          obtain rfl : b = a := by simpa using hi
          by_cases hk : key b = k
          · simp [hk, ha]
          · simp [hk, ha]
      | succ i =>
          have hi : l[i]? = some a := by simpa using hi
          have hne : key b ≠ key a := fun heq =>
            hb (heq ▸ List.mem_map_of_mem (List.mem_of_getElem? hi))
          rw [List.set_cons_succ, List.find?_cons, List.find?_cons, ih hnodup hi]
          by_cases hk : key b = k
          · have hka : key a ≠ k := fun h => hne (hk.trans h.symm)
            simp [hk, hka]
          · simp [hk]

omit [DecidableEq β] in
theorem map_key_set (hi : l[i]? = some a) (ha : key a' = key a) :
    (l.set i a').map key = l.map key := by
  rw [List.map_set, ha]
  refine List.ext_getElem? fun j => ?_
  rw [List.getElem?_set]
  split
  · rename_i hij
    subst hij
    obtain ⟨hlt, hget⟩ := List.getElem?_eq_some_iff.mp hi
    simp [hlt, hget]
  · rfl

end Lookup

variable {ι V : Type}

def Task.key (task : Task ι V) : ID × ID := (task.transactionId, task.clusterId)

namespace State

/-- Where the task of a cluster for a transaction has got to. -/
def phaseOf (s : State ι V) (T c : ID) : Option (TaskPhase ι V) :=
  (s.tasks.find? fun task => task.key = (T, c)).map Task.phase

variable {s s' : State ι V}

theorem phaseOf_of_getElem? (hnodup : (s.tasks.map Task.key).Nodup) {i : ℕ} {task : Task ι V}
    (hi : s.tasks[i]? = some task) :
    s.phaseOf task.transactionId task.clusterId = some task.phase := by
  have hfind := find?_key_of_getElem? Task.key hnodup hi
  rw [phaseOf]
  exact congrArg (Option.map Task.phase) hfind

theorem phaseOf_set (hnodup : (s.tasks.map Task.key).Nodup) {i : ℕ} {task : Task ι V}
    (hi : s.tasks[i]? = some task) {phase : TaskPhase ι V}
    (htasks : s'.tasks = s.tasks.set i { task with phase := phase }) (T c : ID) :
    s'.phaseOf T c =
      if T = task.transactionId ∧ c = task.clusterId then some phase else s.phaseOf T c := by
  have hset := find?_key_set Task.key { task with phase := phase } hnodup hi rfl (T, c)
  rw [phaseOf, htasks, hset, phaseOf]
  by_cases hkey : T = task.transactionId ∧ c = task.clusterId
  · simp [hkey, Task.key]
  · have hne : task.key ≠ (T, c) := by
      simp only [Task.key, ne_eq, Prod.mk.injEq]
      exact fun h => hkey ⟨h.1.symm, h.2.symm⟩
    rw [if_neg hkey, if_neg hne]

theorem phaseOf_append {T c : ID} (hnone : s.phaseOf T c = none) (phase : TaskPhase ι V)
    (htasks : s'.tasks = s.tasks ++ [⟨T, c, phase⟩]) (T' c' : ID) :
    s'.phaseOf T' c' = if T' = T ∧ c' = c then some phase else s.phaseOf T' c' := by
  rw [phaseOf, htasks, List.find?_append]
  by_cases hkey : T' = T ∧ c' = c
  · obtain ⟨rfl, rfl⟩ := hkey
    rw [phaseOf, Option.map_eq_none_iff] at hnone
    rw [hnone, if_pos ⟨rfl, rfl⟩]
    simp [Task.key]
  · have hne : ¬ (T = T' ∧ c = c') := fun h => hkey ⟨h.1.symm, h.2.symm⟩
    have hlast : ([⟨T, c, phase⟩] : List (Task ι V)).find? (fun task => task.key = (T', c')) = none := by
      simpa [Task.key] using hne
    rw [if_neg hkey, hlast, Option.or_none, phaseOf]

theorem phaseOf_eq_none_iff {T c : ID} :
    s.phaseOf T c = none ↔ (T, c) ∉ s.tasks.map Task.key := by
  simp [phaseOf, Task.key]

theorem exists_task_of_phaseOf {T c : ID} {phase : TaskPhase ι V}
    (h : s.phaseOf T c = some phase) : ⟨T, c, phase⟩ ∈ s.tasks := by
  rw [phaseOf, Option.map_eq_some_iff] at h
  obtain ⟨task, hfind, rfl⟩ := h
  have hkey := List.find?_some hfind
  simp only [Task.key, Prod.mk.injEq, decide_eq_true_eq] at hkey
  obtain ⟨rfl, rfl⟩ := hkey
  exact List.mem_of_find?_eq_some hfind

theorem phaseOf_of_mem (hnodup : (s.tasks.map Task.key).Nodup) {task : Task ι V}
    (h : task ∈ s.tasks) : s.phaseOf task.transactionId task.clusterId = some task.phase := by
  obtain ⟨i, hi⟩ := List.mem_iff_getElem?.mp h
  exact phaseOf_of_getElem? hnodup hi

/-! ## The rules -/

variable [DecidableEq ι] (G : Graph ι V) (planner : Planner)

inductive Step : State ι V → State ι V → Prop
  | register {s : State ι V} : Step s s.register
  | afterBuildHook {s : State ι V} {x : ι} {value : V} {rest : List (ι × V)}
      (hooks : s.afterBuildHooks = (x, value) :: rest) (isOpen : s.IsOpen s.buildTransaction) :
      Step s { s.topSend G s.buildTransaction x value with afterBuildHooks := rest }
  | send {s : State ι V} {T : ID} {x : ι} {value : V} (isOpen : s.IsOpen T)
      (user : T ≠ s.buildTransaction) (sink : (G.primitive x).isSink = true) :
      Step s (s.topSend G T x value)
  | commit {s : State ι V} {T : ID} (isOpen : s.IsOpen T)
      (built : T = s.buildTransaction → s.afterBuildHooks = []) : Step s (s.commit T)
  | handleRegister {s : State ι V} {T : ID} {rest : List ExecutorMessage}
      (front : s.executorMessages = .registerTransaction T :: rest) :
      Step s
        { s with
          executorMessages := rest
          store := applyHooks T s.executor.beforeUpdateHooks s.store
          executor := { s.executor with beforeUpdateHooks := [] }
          plannerMessages := s.plannerMessages ++ [.startTransaction T] }
  | handleExecute {s : State ι V} {T : ID} {rest : List ExecutorMessage}
      (front : s.executorMessages = .transactionExecute T :: rest) :
      Step s
        { s with
          executorMessages := rest
          executor := { s.executor with transactions := insert T s.executor.transactions }
          plannerMessages := s.plannerMessages ++
            [.updateTransaction ⟨T, [], ascending (s.inner T).targetClusters, []⟩] }
  | skipStart {s : State ι V} {T c : ID} {rest : List ExecutorMessage}
      (front : s.executorMessages = .startUpdateCluster T c :: rest)
      (skipped : T ∉ s.executor.transactions ∨ c ∈ s.executor.transactionUpdatings T) :
      Step s { s with executorMessages := rest }
  | start {s : State ι V} {T c : ID} {rest : List ExecutorMessage}
      (front : s.executorMessages = .startUpdateCluster T c :: rest)
      (running : T ∈ s.executor.transactions) (fresh : c ∉ s.executor.transactionUpdatings T) :
      Step s
        { s with
          executorMessages := rest
          executor := { s.executor with
            transactionUpdatings := Function.update s.executor.transactionUpdatings T
              (insert c (s.executor.transactionUpdatings T)) }
          tasks := s.tasks ++ [⟨T, c, .queued⟩] }
  | skipFinalize {s : State ι V} {T : ID} {rest : List ExecutorMessage}
      (front : s.executorMessages = .finalizeTransaction T :: rest)
      (skipped : T ∉ s.executor.transactions) : Step s { s with executorMessages := rest }
  | finalize {s : State ι V} {T : ID} {rest : List ExecutorMessage} {store : Store ι V}
      {deliveries : List (Delivery ι V)}
      (front : s.executorMessages = .finalizeTransaction T :: rest)
      (running : T ∈ s.executor.transactions)
      (finalized : G.finalizeTransaction s.store (s.inner T) = .ok (store, deliveries)) :
      Step s
        { s with
          executorMessages := rest
          store := store
          executor :=
            { transactions := s.executor.transactions.erase T
              transactionUpdatings := Function.update s.executor.transactionUpdatings T ∅
              beforeUpdateHooksBuffers := Function.update s.executor.beforeUpdateHooksBuffers T []
              beforeUpdateHooks := s.executor.beforeUpdateHooks ++
                s.executor.beforeUpdateHooksBuffers T }
          plannerMessages := s.plannerMessages ++ [.finishTransaction T]
          trace := s.trace ++ deliveries.map (.deliver T) ++ [.finalize T (G.sample s.store T)] }
  | announce {s : State ι V} {i : ℕ} {T c : ID} (task : s.tasks[i]? = some ⟨T, c, .queued⟩) :
      Step s
        { s with
          tasks := s.tasks.set i ⟨T, c, .announced⟩
          plannerMessages := s.plannerMessages ++ [.updateTransaction ⟨T, [c], [], []⟩] }
  | generate {s : State ι V} {i : ℕ} {T c : ID} (task : s.tasks[i]? = some ⟨T, c, .announced⟩) :
      Step s
        { s with
          tasks := s.tasks.set i ⟨T, c, .executing (G.generateSubTransaction (s.inner T) c).2⟩
          inner := Function.update s.inner T (G.generateSubTransaction (s.inner T) c).1 }
  | update {s : State ι V} {i : ℕ} {T c : ID} {sub sub' : InnerTransaction ι V} {r : ℕ} {x : ι}
      {rest : List (ℕ × ι)} {store : Store ι V}
      (task : s.tasks[i]? = some ⟨T, c, .executing sub⟩) (front : sub.executor = (r, x) :: rest)
      (updated : G.update x s.store (sub.pop x rest) = .ok (store, sub')) :
      Step s
        { s with
          tasks := s.tasks.set i ⟨T, c, .executing sub'⟩
          store := store
          trace := s.trace ++ updateEvents G s.store T x }
  | collect {s : State ι V} {i : ℕ} {T c : ID} {sub : InnerTransaction ι V}
      (task : s.tasks[i]? = some ⟨T, c, .executing sub⟩) (front : sub.executor = []) :
      Step s
        { s with
          tasks := s.tasks.set i
            ⟨T, c, .registered (G.registerExecutionResult (s.inner T) sub.executeResult).2
              sub.beforeUpdateHooks⟩
          inner := Function.update s.inner T
            (G.registerExecutionResult (s.inner T) sub.executeResult).1 }
  | buffer {s : State ι V} {i : ℕ} {T c : ID} {futures : Finset ID} {hooks : List (Hook ι V)}
      (task : s.tasks[i]? = some ⟨T, c, .registered futures hooks⟩) :
      Step s
        { s with
          tasks := s.tasks.set i ⟨T, c, .buffered futures⟩
          executor := { s.executor with
            beforeUpdateHooksBuffers := Function.update s.executor.beforeUpdateHooksBuffers T
              (s.executor.beforeUpdateHooksBuffers T ++ hooks) } }
  | finish {s : State ι V} {i : ℕ} {T c : ID} {futures : Finset ID}
      (task : s.tasks[i]? = some ⟨T, c, .buffered futures⟩) :
      Step s
        { s with
          tasks := s.tasks.set i ⟨T, c, .finished⟩
          plannerMessages := s.plannerMessages ++
            [.updateTransaction ⟨T, [], ascending futures, [c]⟩] }
  | receiveStart {s : State ι V} {T : ID} {rest : List PlannerMessage}
      (idle : s.planner.received = none) (front : s.plannerMessages = .startTransaction T :: rest) :
      Step s
        { s with
          plannerMessages := rest
          planner := { s.planner with
            transactionStates := handleStartMessage T s.planner.transactionStates } }
  | receive {s : State ι V} {message : PlannerMessage} {rest : List PlannerMessage}
      (idle : s.planner.received = none) (front : s.plannerMessages = message :: rest)
      (refresh : message.needRefresh = true) :
      Step s
        { s with
          plannerMessages := rest
          planner := { s.planner with
            received := some message
            stopPlanningNeeded := true } }
  | handle {s : State ι V} {message : PlannerMessage} {states : List TransactionState}
      (received : s.planner.received = some message) (ended : s.planner.runningPlanner = none)
      (handled : handleMessage G.clusterRanks s.planner.transactionStates message = some states) :
      Step s { s with planner := ⟨states, some Pass.start, false, none⟩ }
  | push {s : State ι V} {pass : Pass} {message : ExecutorMessage} {rest : List ExecutorMessage}
      (running : s.planner.runningPlanner = some pass) (front : pass.pushes = message :: rest) :
      Step s
        { s with
          executorMessages := s.executorMessages ++ [message]
          planner := { s.planner with runningPlanner := some { pass with pushes := rest } } }
  | advance {s : State ι V} {pass : Pass} (running : s.planner.runningPlanner = some pass)
      (front : pass.pushes = []) :
      Step s
        { s with planner := { s.planner with
            runningPlanner := pass.next planner G.clusterRanks s.planner.transactionStates
              s.planner.stopPlanningNeeded } }

variable {G planner}

theorem step_handleExecutorMessage {message : ExecutorMessage} {rest : List ExecutorMessage}
    (hfront : s.executorMessages = message :: rest)
    (h : handleExecutorMessage G { s with executorMessages := rest } message = some s') :
    Step G planner s s' := by
  cases message with
  | transactionExecute T =>
      obtain rfl := Option.some.inj h
      exact .handleExecute hfront
  | registerTransaction T =>
      obtain rfl := Option.some.inj h
      exact .handleRegister hfront
  | startUpdateCluster T c =>
      simp only [handleExecutorMessage] at h
      split at h
      · obtain rfl := Option.some.inj h
        exact .skipStart hfront (.inl ‹_›)
      · split at h
        · obtain rfl := Option.some.inj h
          exact .skipStart hfront (.inr ‹_›)
        · obtain rfl := Option.some.inj h
          exact .start hfront (not_not.mp ‹_›) ‹_›
  | finalizeTransaction T =>
      simp only [handleExecutorMessage] at h
      split at h
      · obtain rfl := Option.some.inj h
        exact .skipFinalize hfront ‹_›
      · split at h
        · cases h
        · obtain rfl := Option.some.inj h
          exact .finalize hfront (not_not.mp ‹_›) ‹_›

theorem step_runTask {i : ℕ} {task : Task ι V} (hi : s.tasks[i]? = some task)
    (h : s.runTask G i task = some s') : Step G planner s s' := by
  obtain ⟨T, c, phase⟩ := task
  cases phase with
  | queued =>
      obtain rfl := Option.some.inj h
      exact .announce hi
  | announced =>
      obtain rfl := Option.some.inj h
      exact .generate hi
  | executing sub =>
      cases hexec : sub.executor with
      | nil =>
          simp only [runTask, hexec, Option.some.injEq] at h
          subst h
          exact .collect hi hexec
      | cons entry rest =>
          obtain ⟨r, x⟩ := entry
          cases hupdate : G.update x s.store (sub.pop x rest) with
          | error e => simp [runTask, hexec, hupdate] at h
          | ok result =>
              simp only [runTask, hexec, hupdate, Option.some.injEq] at h
              subst h
              exact .update hi hexec hupdate
  | registered futures hooks =>
      obtain rfl := Option.some.inj h
      exact .buffer hi
  | buffered futures =>
      obtain rfl := Option.some.inj h
      exact .finish hi
  | finished => simp [runTask] at h

theorem step_receivePlannerMessage {message : PlannerMessage} {rest : List PlannerMessage}
    (hidle : s.planner.received = none) (hfront : s.plannerMessages = message :: rest)
    (h : s.receivePlannerMessage G message rest = some s') : Step G planner s s' := by
  rw [receivePlannerMessage] at h
  cases message with
  | startTransaction T =>
      obtain rfl := Option.some.inj h
      exact .receiveStart hidle hfront
  | updateTransaction update =>
      obtain rfl := Option.some.inj h
      exact .receive hidle hfront rfl
  | finishTransaction T =>
      obtain rfl := Option.some.inj h
      exact .receive hidle hfront rfl

/-- Every move of a thread follows one of the rules. -/
theorem step_of_eq {action : Action ι V} (h : step G planner s action = some s') :
    Step G planner s s' := by
  cases action with
  | register =>
      obtain rfl := Option.some.inj h
      exact .register
  | afterBuildHook =>
      rw [step] at h
      cases hhooks : s.afterBuildHooks with
      | nil => simp [hhooks] at h
      | cons hook rest =>
          obtain ⟨x, value⟩ := hook
          simp only [hhooks, Option.ite_none_right_eq_some, Option.some.injEq] at h
          obtain ⟨hopen, rfl⟩ := h
          exact .afterBuildHook hhooks hopen
  | send T x value =>
      simp only [step, Option.ite_none_right_eq_some, Option.some.injEq] at h
      obtain ⟨⟨hopen, huser, hsink⟩, rfl⟩ := h
      exact .send hopen huser hsink
  | commit T =>
      simp only [step, Option.ite_none_right_eq_some, Option.some.injEq] at h
      obtain ⟨⟨hopen, hbuilt⟩, rfl⟩ := h
      exact .commit hopen hbuilt
  | executor =>
      rw [step] at h
      cases hfront : s.executorMessages with
      | nil => simp [hfront] at h
      | cons message rest =>
          rw [hfront] at h
          exact step_handleExecutorMessage hfront h
  | task i =>
      rw [step] at h
      cases hi : s.tasks[i]? with
      | none => simp [hi] at h
      | some task =>
          rw [hi] at h
          exact step_runTask hi h
  | plannerReceive =>
      rw [step] at h
      cases hreceived : s.planner.received with
      | some message => simp [hreceived] at h
      | none =>
          cases hfront : s.plannerMessages with
          | nil => simp [hreceived, hfront] at h
          | cons message rest =>
              rw [hreceived, hfront] at h
              exact step_receivePlannerMessage hreceived hfront h
  | plannerHandle =>
      rw [step] at h
      cases hreceived : s.planner.received with
      | none => simp [hreceived] at h
      | some message =>
          cases hrunning : s.planner.runningPlanner with
          | some pass => simp [hreceived, hrunning] at h
          | none =>
              simp only [hreceived, hrunning, handlePlannerMessage, Option.map_eq_some_iff] at h
              obtain ⟨states, hstates, rfl⟩ := h
              exact .handle hreceived hrunning hstates
  | plannerPass =>
      rw [step] at h
      cases hrunning : s.planner.runningPlanner with
      | none => simp [hrunning] at h
      | some pass =>
          simp only [hrunning, Option.some.injEq] at h
          subst h
          rw [runPlanner]
          cases hpushes : pass.pushes with
          | nil => exact .advance hrunning hpushes
          | cons message rest => exact .push hrunning hpushes

theorem steps_of_run {actions : List (Action ι V)} (h : run G planner s actions = some s') :
    Relation.ReflTransGen (Step G planner) s s' := by
  induction actions generalizing s with
  | nil =>
      obtain rfl := Option.some.inj h
      exact .refl
  | cons action actions ih =>
      rw [run, Option.bind_eq_some_iff] at h
      obtain ⟨t, ht, hrest⟩ := h
      exact .head (step_of_eq ht) (ih hrest)

/-! ## The trace -/

omit [DecidableEq ι] in
theorem mem_updateEvents {store : Store ι V} {T : ID} {x : ι} {event : Event ι V}
    (h : event ∈ updateEvents G store T x) :
    event = .update T x ∨ ∃ value, event = .taskSend T x value := by
  rw [updateEvents] at h
  rcases List.mem_cons.mp h with heq | hin
  · exact .inl heq
  · split at hin
    · exact .inr ⟨_, List.mem_singleton.mp hin⟩
    · cases hin

omit [DecidableEq ι] in
theorem mem_finalizeEvents {T : ID} {deliveries : List (Delivery ι V)} {view : ι → Option V}
    {event : Event ι V} (h : event ∈ deliveries.map (.deliver T) ++ [.finalize T view]) :
    (∃ delivery, event = .deliver T delivery) ∨ event = .finalize T view := by
  rcases List.mem_append.mp h with hin | hin
  · obtain ⟨delivery, -, rfl⟩ := List.mem_map.mp hin
    exact .inl ⟨delivery, rfl⟩
  · exact .inr (List.mem_singleton.mp hin)

def Updates (G : Graph ι V) (s s' : State ι V) (T : ID) (x : ι) : Prop :=
  ∃ (i : ℕ) (c : ID) (sub sub' : InnerTransaction ι V) (r : ℕ) (rest : List (ℕ × ι))
    (store : Store ι V), s.tasks[i]? = some ⟨T, c, .executing sub⟩ ∧
    sub.executor = (r, x) :: rest ∧ G.update x s.store (sub.pop x rest) = .ok (store, sub') ∧
    s' = { s with
      tasks := s.tasks.set i ⟨T, c, .executing sub'⟩
      store := store
      trace := s.trace ++ updateEvents G s.store T x }

theorem Updates.trace_eq {T : ID} {x : ι} (h : Updates G s s' T x) :
    s'.trace = s.trace ++ updateEvents G s.store T x := by
  obtain ⟨i, c, sub, sub', r, rest, store, -, -, -, rfl⟩ := h
  rfl

theorem Updates.executing (hnodup : (s.tasks.map Task.key).Nodup) {T : ID} {x : ι}
    (h : Updates G s s' T x) :
    ∃ c sub r rest, s.phaseOf T c = some (.executing sub) ∧ sub.executor = (r, x) :: rest ∧
      ∃ result, G.update x s.store (sub.pop x rest) = .ok result := by
  obtain ⟨i, c, sub, sub', r, rest, store, hi, hfront, hupdate, -⟩ := h
  exact ⟨c, sub, r, rest, phaseOf_of_getElem? hnodup hi, hfront, _, hupdate⟩

inductive Writes (G : Graph ι V) (s s' : State ι V) : Prop
  | nothing (same : s'.trace = s.trace)
  | send {T : ID} {x : ι} {value : V} (isOpen : s.IsOpen T)
      (trace : s'.trace = s.trace ++ [.topSend T x value])
  | update {T : ID} {x : ι} (updates : Updates G s s' T x)
  | finalize {T : ID} {rest : List ExecutorMessage} {store : Store ι V}
      {deliveries : List (Delivery ι V)}
      (front : s.executorMessages = .finalizeTransaction T :: rest)
      (running : T ∈ s.executor.transactions)
      (finalized : G.finalizeTransaction s.store (s.inner T) = .ok (store, deliveries))
      (trace : s'.trace =
        s.trace ++ deliveries.map (.deliver T) ++ [.finalize T (G.sample s.store T)])

theorem Step.writes (hstep : Step G planner s s') : Writes G s s' := by
  cases hstep
  case afterBuildHook hisOpen => exact .send hisOpen rfl
  case send hisOpen _ _ => exact .send hisOpen rfl
  case update hi hfront hupdate => exact .update ⟨_, _, _, _, _, _, _, hi, hfront, hupdate, rfl⟩
  case finalize hfront hrunning hfinalize => exact .finalize hfront hrunning hfinalize rfl
  all_goals exact .nothing rfl

theorem Step.buildTransaction_eq (hstep : Step G planner s s') :
    s'.buildTransaction = s.buildTransaction := by
  cases hstep <;> rfl

end State

end Prf
