import Prf.Proof.Feedback
import Prf.Proof.Scheduling

/-!
# Transactions can be deleted

`~Transaction` deletes the `InnerTransaction` as soon as `done` has been called. By then the
`Executor` has handled the message that points to it and all its tasks have finished, so no thread
looks at it again: a run goes on in the same way whatever its memory is used for.
-/

namespace Prf

open Relation

variable {ι V : Type}

namespace State

/-- The memory of a transaction is used for something else. -/
@[simps]
def reuse (s : State ι V) (T : ID) (memory : InnerTransaction ι V) : State ι V :=
  { s with inner := Function.update s.inner T memory }

variable [DecidableEq ι] {G : Graph ι V} {planner : Planner} {first : ID} {s s' : State ι V}
  {T : ID} {memory : InnerTransaction ι V}

structure Unreferenced (s : State ι V) (T : ID) : Prop where
  next : T ≠ s.nextTransactionId
  isOpen : ∀ T', s.IsOpen T' → T' ≠ T
  message : ∀ T', .transactionExecute T' ∈ s.executorMessages → T' ≠ T
  running : ∀ T' ∈ s.executor.transactions, T' ≠ T
  task : ∀ task ∈ s.tasks, task.phase ≠ .finished → task.transactionId ≠ T

/-- A finalised transaction is not pointed to any more. -/
theorem Reached.unreferenced (h : Reached planner G first s) (hT : T ∈ s.finalized) :
    Unreferenced s T := by
  obtain ⟨registered, hsim⟩ := h.simulated
  have hqueues := hsim.inv.core.queues
  obtain ⟨hfirst, hlt⟩ := hsim.mem_finalized.mp hT
  have hcommitted : T ∈ s.committed := hqueues.finalized T hfirst hlt
  refine ⟨?_, ?_, ?_, ?_, ?_⟩
  · exact (hlt.trans_le (hqueues.oldest_le.trans hqueues.registered_le)).ne
  · rintro T' hopen rfl
    exact hopen.2.2 hcommitted
  · rintro T' hin rfl
    exact absurd hlt (not_lt.mpr (hqueues.execute_waits T' hin).2.2)
  · rintro T' hin rfl
    exact absurd hlt (not_lt.mpr (hqueues.transactions T' hin).1)
  · rintro ⟨T', c, phase⟩ htask hphase rfl
    obtain ⟨i, hi⟩ := List.mem_iff_getElem?.mp htask
    have hfound : (s.abstract registered s.oldest).phase T' c = some phase.abstract :=
      abstract_phase hsim.wellFormed hi
    rcases (hsim.inv.core.tasks.phase_key T' c _ hfound).2.2 with hrunning | ⟨-, hfinished⟩
    · exact absurd hlt (not_lt.mpr (hqueues.transactions T' hrunning).1)
    · cases phase <;> simp_all [TaskPhase.abstract]

theorem Reached.mem_finalized_of_step (h : Reached planner G first s) (hstep : Step G planner s s')
    (hT : T ∈ s.finalized) : T ∈ s'.finalized := by
  obtain ⟨registered, hsim⟩ := h.simulated
  rcases hsim.finalized_cases hstep with hsame | ⟨-, -, hsame, -⟩
  · rwa [hsame]
  · rw [hsame]
    exact List.mem_append_left _ hT

/-! ## One step -/

omit [DecidableEq ι] in
@[simp]
theorem isOpen_reuse {T' : ID} : (s.reuse T memory).IsOpen T' ↔ s.IsOpen T' :=
  Iff.rfl

theorem topSend_reuse {T' : ID} (h : T' ≠ T) (x : ι) (value : V) :
    (s.reuse T memory).topSend G T' x value = (s.topSend G T' x value).reuse T memory := by
  simp only [topSend, reuse, Function.update_of_ne h, Function.update_comm h]

theorem handleExecutorMessage_reuse {message : ExecutorMessage} {rest : List ExecutorMessage}
    (h : Unreferenced s T) (hfront : s.executorMessages = message :: rest) :
    handleExecutorMessage G { s.reuse T memory with executorMessages := rest } message =
      (handleExecutorMessage G { s with executorMessages := rest } message).map
        (State.reuse · T memory) := by
  cases message with
  | registerTransaction T' => rfl
  | transactionExecute T' =>
      have hne := h.message T' (by simp [hfront])
      simp [handleExecutorMessage, reuse, Function.update_of_ne hne]
  | startUpdateCluster T' c =>
      by_cases hrunning : T' ∈ s.executor.transactions
      · by_cases hstarted : c ∈ s.executor.transactionUpdatings T'
        · simp [handleExecutorMessage, reuse, hrunning, hstarted]
        · simp [handleExecutorMessage, reuse, hrunning, hstarted]
      · simp [handleExecutorMessage, reuse, hrunning]
  | finalizeTransaction T' =>
      by_cases hrunning : T' ∈ s.executor.transactions
      · have hne := h.running T' hrunning
        cases hfinalized : G.finalizeTransaction s.store (s.inner T') with
        | error e =>
            simp [handleExecutorMessage, reuse, hrunning, hfinalized, Function.update_of_ne hne]
        | ok result =>
            simp [handleExecutorMessage, reuse, hrunning, hfinalized, Function.update_of_ne hne]
      · simp [handleExecutorMessage, reuse, hrunning]

theorem runTask_reuse {i : ℕ} {task : Task ι V} (h : Unreferenced s T) (hi : s.tasks[i]? = some task) :
    (s.reuse T memory).runTask G i task =
      (s.runTask G i task).map (State.reuse · T memory) := by
  obtain ⟨T', c, phase⟩ := task
  have hne : phase ≠ .finished → T' ≠ T := h.task _ (List.mem_of_getElem? hi)
  cases phase with
  | finished => rfl
  | queued | registered | buffered => rfl
  | announced =>
      have hT' := hne (by simp)
      simp [runTask, reuse, setPhase, Function.update_of_ne hT', Function.update_comm hT']
  | executing sub =>
      have hT' := hne (by simp)
      cases hexecutor : sub.executor with
      | nil =>
          simp [runTask, hexecutor, reuse, setPhase, Function.update_of_ne hT',
            Function.update_comm hT']
      | cons entry rest =>
          obtain ⟨r, x⟩ := entry
          cases hupdate : G.update x s.store (sub.pop x rest) with
          | error e => simp [runTask, hexecutor, reuse, hupdate]
          | ok result => simp [runTask, hexecutor, reuse, hupdate, setPhase]

theorem step_reuse (h : Unreferenced s T) (action : Action ι V) :
    step G planner (s.reuse T memory) action =
      (step G planner s action).map (State.reuse · T memory) := by
  have hsent : ∀ T' x value, s.IsOpen T' →
      (s.reuse T memory).topSend G T' x value = (s.topSend G T' x value).reuse T memory :=
    fun T' x value hopen => topSend_reuse (h.isOpen T' hopen) x value
  cases action with
  | register => simp [step, register, reuse, Function.update_comm h.next]
  | afterBuildHook =>
      cases hhooks : s.afterBuildHooks with
      | nil => simp [step, hhooks]
      | cons hook rest =>
          by_cases hopen : s.IsOpen s.buildTransaction
          · have hsame := hsent s.buildTransaction hook.1 hook.2 hopen
            simp only [step, reuse_afterBuildHooks, reuse_buildTransaction, isOpen_reuse, hhooks,
              hopen, if_true, hsame]
            rfl
          · simp [step, hhooks, hopen]
  | send T' x value =>
      by_cases hguard : s.IsOpen T' ∧ T' ≠ s.buildTransaction ∧ (G.primitive x).isSink = true
      · simp [step, hguard, hsent]
      · simp [step, hguard]
  | commit T' =>
      by_cases hguard : s.IsOpen T' ∧ (T' = s.buildTransaction → s.afterBuildHooks = [])
      · have hcommit : (s.reuse T memory).commit T' = (s.commit T').reuse T memory := rfl
        simp [step, hguard, hcommit]
      · simp [step, hguard]
  | executor =>
      cases hfront : s.executorMessages with
      | nil => simp [step, hfront]
      | cons message rest => simpa [step, hfront] using handleExecutorMessage_reuse h hfront
  | task i =>
      cases hi : s.tasks[i]? with
      | none => simp [step, hi]
      | some task => simpa [step, hi] using runTask_reuse h hi
  | plannerReceive =>
      cases hreceived : s.planner.received with
      | some message => simp [step, hreceived]
      | none =>
          cases hfront : s.plannerMessages with
          | nil => simp [step, hreceived, hfront]
          | cons message rest =>
              by_cases hrefresh : message.needRefresh
              · simp [step, reuse, hreceived, hfront, receivePlannerMessage, hrefresh]
              · simp [step, reuse, hreceived, hfront, receivePlannerMessage, hrefresh,
                  Function.comp_def]
  | plannerHandle =>
      cases hreceived : s.planner.received with
      | none => simp [step, hreceived]
      | some message =>
          cases hrunning : s.planner.runningPlanner with
          | some pass => simp [step, hreceived, hrunning]
          | none => simp [step, reuse, hreceived, hrunning, handlePlannerMessage, Function.comp_def]
  | plannerPass =>
      cases hrunning : s.planner.runningPlanner with
      | none => simp [step, hrunning]
      | some pass =>
          cases hpushes : pass.pushes with
          | nil => simp [step, reuse, hrunning, runPlanner, hpushes]
          | cons message rest => simp [step, reuse, hrunning, runPlanner, hpushes]

/-! ## Runs -/

/-- A transaction that has been finalised is never looked at again: whatever its memory is used for,
the same moves lead to the same states. -/
theorem run_reuse {actions : List (Action ι V)}
    (hrun : run G planner (State.init G first) actions = some s) (hT : T ∈ s.finalized)
    (memory : InnerTransaction ι V) (actions' : List (Action ι V)) :
    run G planner (s.reuse T memory) actions' =
      (run G planner s actions').map (State.reuse · T memory) := by
  have hreach : Reached planner G first s := steps_of_run hrun
  clear hrun
  induction actions' generalizing s with
  | nil => rfl
  | cons action actions' ih =>
      rw [run, run, step_reuse (hreach.unreferenced hT)]
      cases hstep : step G planner s action with
      | none => rfl
      | some s₁ =>
          have hstep' := step_of_eq hstep
          exact ih (hreach.mem_finalized_of_step hstep' hT) (hreach.tail hstep')

/-- The first two transactions have been deleted when the last one is committed. -/
theorem run_reuse_sinkMapHold :
    run sinkMapHold .rankBased ((sinkMapHoldAt 200).reuse 1 (.new 7 7)) [.commit 3, .executor] =
      (run sinkMapHold .rankBased (sinkMapHoldAt 200) [.commit 3, .executor]).map
        (State.reuse · 1 (.new 7 7)) :=
  run_reuse (run_sinkMapHoldAt 200 (by decide +kernel)) (by decide +kernel) (.new 7 7) _

end State

end Prf
