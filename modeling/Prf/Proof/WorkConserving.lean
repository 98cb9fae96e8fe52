import Prf.Proof.Progress
import Prf.Proof.RankBased
import Prf.Proof.Scheduling

/-!
# No cluster waits without a reason

`rank_based_planner` proposes more than its first round does. Everything a pass offers that has not
been cut short is on its way, or has been acted on, or is still to be offered in one of the rounds to
come. So where the queues are empty and the planner has ended, a cluster that could be updated side
by side with what is running has been started.
-/

namespace Prf

section Loop

variable {clusterRanks : ID → Rank} {stopAt : ℕ} {message : ExecutorMessage}

theorem rankBasedLoop_append (index : ℕ) (loc : RankLocals) (states : List TransactionState)
    {more : List TransactionState} (hmore : ∀ state ∈ more, state.initialized = false) :
    rankBasedLoop clusterRanks stopAt index loc (states ++ more) =
      rankBasedLoop clusterRanks stopAt index loc states := by
  induction states generalizing index loc with
  | nil =>
      cases more with
      | nil => rfl
      | cons state more => simp [rankBasedLoop, hmore state (by simp)]
  | cons state states ih =>
      rw [List.cons_append, rankBasedLoop, rankBasedLoop]
      split
      · rfl
      · split
        · rfl
        · simp only [ih]

theorem appendStates_not_initialized (missing : ℕ) (last : ID) :
    ∀ state ∈ appendStates missing last, state.initialized = false := by
  induction missing generalizing last with
  | zero => simp [appendStates]
  | succ missing ih =>
      simp only [appendStates, List.mem_cons, forall_eq_or_imp]
      exact ⟨rfl, ih _⟩

theorem handleStartMessage_appends (T : ID) (states : List TransactionState) :
    ∃ more, handleStartMessage T states = states ++ more ∧
      ∀ state ∈ more, state.initialized = false := by
  rw [handleStartMessage]
  cases hback : states.getLast? with
  | none =>
      refine ⟨[TransactionState.new T], by rw [List.getLast?_eq_none_iff.mp hback, List.nil_append], ?_⟩
      simp [TransactionState.new]
  | some back => exact ⟨_, rfl, appendStates_not_initialized _ _⟩

/-- What the rounds to come of a pass offer, if `stop` is first seen in round `stopAt`. -/
def Pass.toOffer (clusterRanks : ID → Rank) (stopAt : ℕ) (states : List TransactionState)
    (pass : Pass) : List ExecutorMessage :=
  (rankBasedLoop clusterRanks stopAt pass.index pass.loc (states.drop pass.index)).flatten

theorem Pass.toOffer_start (states : List TransactionState) :
    Pass.start.toOffer clusterRanks stopAt states = rankBasedPlanner clusterRanks stopAt states :=
  rfl

theorem Pass.toOffer_append {pass : Pass} {states more : List TransactionState}
    (hmore : ∀ state ∈ more, state.initialized = false) :
    pass.toOffer clusterRanks stopAt (states ++ more) = pass.toOffer clusterRanks stopAt states := by
  rw [toOffer, List.drop_append, rankBasedLoop_append _ _ _ fun state hin =>
    hmore state (List.mem_of_mem_drop hin), toOffer]

theorem Pass.mem_toOffer {pass : Pass} {states : List TransactionState}
    (h : message ∈ pass.toOffer clusterRanks stopAt states) :
    ∃ pass', pass.next .rankBased clusterRanks states false = some pass' ∧
      (message ∈ pass'.pushes ∨ message ∈ pass'.toOffer clusterRanks stopAt states) := by
  rw [toOffer, rankBasedLoop_eq_next] at h
  by_cases hstop : stopAt ≤ pass.index
  · have hnone : pass.next .rankBased clusterRanks states true = none := by
      cases hstate : states[pass.index]? <;> simp [Pass.next, hstate]
    simp [hstop, hnone] at h
  · simp only [hstop, decide_false] at h
    cases hnext : pass.next .rankBased clusterRanks states false with
    | none => simp [hnext] at h
    | some pass' =>
        refine ⟨pass', rfl, ?_⟩
        simpa [hnext, toOffer, -List.mem_flatten] using h

end Loop

namespace Protocol

variable {clusterRanks : ID → Rank} {edge : ID → ID → Prop} {first : ID} {s s' : State}

/-! ## No offer of a pass is lost -/

/-- What a pass offers that is not stopped is on its way, has been acted on, or is still to come. -/
def Offering (clusterRanks : ID → Rank) (s : State) : Prop :=
  s.planner.received = none →
    ∀ stopAt, ∀ message ∈ rankBasedPlanner clusterRanks stopAt s.planner.transactionStates,
      message ∈ s.proposals ∨ s.Handled message ∨
        ∃ pass, s.planner.runningPlanner = some pass ∧
          message ∈ pass.toOffer clusterRanks stopAt s.planner.transactionStates

namespace Offering

theorem of_planner_eq {planner : Planner} (h : Offering clusterRanks s) (hc : Core edge first s)
    (hmove : Move planner clusterRanks edge first s s') (hplanner : s'.planner = s.planner) :
    Offering clusterRanks s' := by
  rw [Offering, hplanner]
  intro hreceived stopAt message hmessage
  rcases h hreceived stopAt message hmessage with hin | hhandled | hcoming
  · by_cases hgone : message ∈ s'.proposals
    · exact .inl hgone
    · simp only [State.proposals, hplanner, List.mem_append, not_or] at hin hgone
      exact .inr (.inl (handled_of_front hc hmove (hin.resolve_right hgone.2) hgone.1))
  · exact .inr (.inl (handled_move hc hmove hhandled))
  · exact .inr (.inr hcoming)

theorem move (h : Offering clusterRanks s) (hinv : Inv .rankBased clusterRanks edge first s)
    (hmove : Move .rankBased clusterRanks edge first s s') : Offering clusterRanks s' := by
  have hmove' := hmove
  cases hmove
  case receiveStart T rest hidle hfront =>
    obtain ⟨more, happend, hmore⟩ := handleStartMessage_appends T s.planner.transactionStates
    intro hreceived stopAt message hmessage
    simp only [happend, rankBasedPlanner, rankBasedRounds, rankBasedLoop_append _ _ _ hmore] at hmessage
    simp only [happend, Pass.toOffer_append hmore]
    exact (h hidle stopAt message hmessage).imp id
      (Or.imp (handled_move hinv.core hmove') id)
  case receive => exact fun hreceived => by simp at hreceived
  case handle message states hreceived hended hhandled =>
    exact fun _ stopAt message hmessage => .inr (.inr ⟨Pass.start, rfl, hmessage⟩)
  case push pass message rest hrunning hfront =>
    intro hreceived stopAt message' hmessage
    rcases h hreceived stopAt message' hmessage with hin | hhandled | ⟨pass', hpass', hcoming⟩
    · left
      simp only [State.proposals, hrunning, hfront] at hin ⊢
      simpa using hin
    · exact .inr (.inl (handled_move hinv.core hmove' hhandled))
    · obtain rfl := Option.some.inj (hrunning.symm.trans hpass')
      exact .inr (.inr ⟨_, rfl, hcoming⟩)
  case advance pass hrunning hfront =>
    intro hreceived stopAt message hmessage
    rcases h hreceived stopAt message hmessage with hin | hhandled | ⟨pass', hpass', hcoming⟩
    · left
      simp only [State.proposals, hrunning, hfront, List.append_nil] at hin
      exact List.mem_append_left _ hin
    · exact .inr (.inl (handled_move hinv.core hmove' hhandled))
    · obtain rfl := Option.some.inj (hrunning.symm.trans hpass')
      have hstop : s.planner.stopPlanningNeeded = false := by
        rw [hinv.stop]
        simpa using hreceived
      obtain ⟨pass'', hnext, hwhere⟩ := Pass.mem_toOffer hcoming
      simp only [State.proposals, hstop, hnext, List.mem_append]
      rcases hwhere with hpushed | hcoming
      · exact .inl (.inr hpushed)
      · exact .inr (.inr ⟨pass'', rfl, hcoming⟩)
  all_goals exact h.of_planner_eq hinv.core hmove' rfl

end Offering

theorem Reachable.offering (h : Reachable .rankBased clusterRanks edge first s) :
    Offering clusterRanks s := by
  induction h with
  | refl => simp [Offering, State.init, rankBasedPlanner, rankBasedRounds, rankBasedLoop]
  | tail hreach hmove ih => exact ih.move (Reachable.inv hreach) hmove

/-! ## Why a cluster waits -/

/-- A target whose task has not finished. -/
def State.Unfinished (s : State) (T c : ID) : Prop :=
  T ∈ s.transactions ∧ c ∈ s.keys T ∧ s.phase T c ≠ some .finished

structure Planned (s : State) : Prop where
  executorMessages : s.executorMessages = []
  plannerMessages : s.plannerMessages = []
  received : s.planner.received = none
  runningPlanner : s.planner.runningPlanner = none

theorem Planned.handled (hplanned : Planned s)
    (h : Reachable .rankBased clusterRanks edge first s) (stopAt : ℕ) {message : ExecutorMessage}
    (hmessage : message ∈ rankBasedPlanner clusterRanks stopAt s.planner.transactionStates) :
    s.Handled message := by
  rcases h.offering hplanned.received stopAt message hmessage with hin | hhandled | ⟨pass, hpass, -⟩
  · simp [State.proposals, hplanned.executorMessages, hplanned.runningPlanner] at hin
  · exact hhandled
  · simp [hplanned.runningPlanner] at hpass

theorem Planned.exact {planner : Planner} (hplanned : Planned s)
    (hinv : Inv planner clusterRanks edge first s) :
    Exact clusterRanks s s.planner.transactionStates := by
  have hview := hinv.view
  simpa [State.unhandled, hplanned.received, hplanned.plannerMessages, Replica.Lags] using hview

theorem Describes.unfinished (ht : Tasks edge first s) {T d : ID} {state : TransactionState}
    (h : Describes clusterRanks s T state) (hd : d ∈ state.now ∨ d ∈ state.future) :
    s.Unfinished T d := by
  rcases hd with hd | hd
  · have hrunning := (h.now d).mp hd
    have hT := ht.transactions_of_running hrunning
    obtain ⟨phase, hphase, hrun⟩ := hrunning
    refine ⟨hT, (ht.phase_key T d phase hphase).1, ?_⟩
    rintro hfinished
    simp [Option.some.inj (hphase.symm.trans hfinished), Phase.isRunning] at hrun
  · obtain ⟨hT, hannounced, hphase⟩ := (h.future d).mp hd
    refine ⟨hT, hannounced.1, ?_⟩
    rcases hphase with hphase | hphase <;> simp [hphase]

/-- A target that has not been started waits for a task to announce it, for the user thread of an
older transaction, for a cluster of smaller rank, or for itself in an older transaction. -/
theorem Reachable.waits_for (h : Reachable .rankBased clusterRanks edge first s)
    (hplanned : Planned s) {T c : ID} (hT : T ∈ s.transactions) (hkey : c ∈ s.keys T)
    (hidle : s.phase T c = none) :
    (∃ c', c ∈ s.futures T c') ∨ (∃ T', first ≤ T' ∧ T' < T ∧ T' ∉ s.committed) ∨
      ∃ T' d, T' ≤ T ∧ s.Unfinished T' d ∧
        ((clusterRanks d).value < (clusterRanks c).value ∨ d = c ∧ T' < T) := by
  by_contra hno
  push Not at hno
  obtain ⟨hannounced, hcommitted, hfree⟩ := hno
  have hinv := h.inv
  have hqueues := hinv.core.queues
  have hexact := hplanned.exact hinv
  obtain ⟨hle, hlt, -⟩ := hqueues.transactions T hT
  obtain ⟨state, hstate, hdescribes⟩ := hexact.exists_state hle hlt
  have hrunning : ∀ T', s.oldest ≤ T' → T' ≤ T → T' ∈ s.transactions := by
    intro T' hle' hT'
    rcases hT'.lt_or_eq with hless | rfl
    · obtain ⟨-, -, hbefore | hin | hwaits⟩ :=
        hqueues.committed T' (hcommitted T' (hqueues.first_le.trans hle') hless)
      · exact absurd hbefore (not_lt.mpr hle')
      · exact hin
      · simp [hplanned.executorMessages] at hwaits
    · exact hT
  have hview : ∀ i ≤ T - s.oldest, ∀ older, s.planner.transactionStates[i]? = some older →
      Describes clusterRanks s (s.oldest + i) older ∧ s.oldest + i ≤ T :=
    fun i hi older holder => ⟨hexact.2 i older holder, by lia⟩
  have hinitialized : InitializedTo s.planner.transactionStates (T - s.oldest) := by
    intro i hi older holder
    obtain ⟨holder, hi⟩ := hview i hi older holder
    exact holder.initialized.mpr (hrunning _ (Nat.le_add_right _ _) hi)
  have hfuture : c ∈ state.future :=
    (hdescribes.future c).mpr ⟨hT, ⟨hkey, hannounced⟩, .inl hidle⟩
  have hundercuts : Undercuts clusterRanks
      (olderClusters s.planner.transactionStates (T - s.oldest) ++ state.clustersBefore c) c := by
    refine undercuts_older.mpr ⟨fun i hi older holder => ?_, fun hin => ?_, fun d hd => ?_⟩
    · obtain ⟨holder, -⟩ := hview i hi.le older holder
      have hbelow : s.oldest + i < T := by lia
      have hnot : c ∉ older.now ∧ c ∉ older.future := by
        constructor <;> intro hc
        · exact (hfree _ c hbelow.le (holder.unfinished hinv.core.tasks (.inl hc))).2 rfl |>.not_gt
            hbelow
        · exact (hfree _ c hbelow.le (holder.unfinished hinv.core.tasks (.inr hc))).2 rfl |>.not_gt
            hbelow
      exact ⟨hnot.1, hnot.2, fun d hd =>
        (hfree _ d hbelow.le (holder.unfinished hinv.core.tasks hd)).1⟩
    · rcases TransactionState.mem_clustersBefore.mp hin with hnow | ⟨-, hlt⟩
      · obtain ⟨phase, hphase, -⟩ := (hdescribes.now c).mp hnow
        simp [hidle] at hphase
      · exact lt_irrefl _ hlt
    · have hwhere := (TransactionState.mem_clustersBefore.mp hd).imp id And.left
      exact (hfree T d le_rfl (hdescribes.unfinished hinv.core.tasks hwhere)).1
  obtain ⟨messages, hround⟩ := exists_rankBasedRounds hstate (Nat.lt_succ_self _) hinitialized
  have hstart : .startUpdateCluster T c ∈ messages :=
    ((rankBasedRounds_pushes hround hstate).start T c).mpr
      ⟨hdescribes.transactionId.symm, hfuture, hundercuts⟩
  have hhandled := hplanned.handled h _
    (mem_rankBasedPlanner.mpr ⟨_, state, messages, hstate, hround, hstart⟩)
  rcases hhandled with hbefore | hupdating
  · exact absurd hbefore (not_lt.mpr hle)
  · exact ((hinv.core.tasks.updatings T c).mp hupdating).2 hidle

end Protocol

namespace State

variable {ι V : Type} [DecidableEq ι] {G : Graph ι V} {first : ID} {s : State ι V}
  {actions : List (Action ι V)}

/-- A target of a transaction in `Executor::transactions` whose task has not finished. -/
def Unfinished (s : State ι V) (T c : ID) : Prop :=
  T ∈ s.executor.transactions ∧ c ∈ (s.inner T).targetClusters ∧
    ∀ task ∈ s.tasks, task.transactionId = T → task.clusterId = c → task.phase ≠ .finished

omit [DecidableEq ι] in
theorem Simulated.unfinished {planner : Planner} {registered oldest : ID}
    (hsim : Simulated planner G first s registered oldest) {T c : ID}
    (h : (s.abstract registered oldest).Unfinished T c) : s.Unfinished T c := by
  obtain ⟨hT, hkey, hphase⟩ := h
  refine ⟨hT, hkey, ?_⟩
  rintro task htask rfl rfl hfinished
  have hfound := phaseOf_of_mem hsim.wellFormed.tasks_nodup htask
  exact hphase (by simp [abstract, hfound, hfinished, TaskPhase.abstract])

/-- No cluster waits without a reason: where the queues are empty and `rank_based_planner` has ended,
a target that has not been started has just been found by a task that has still to tell the planner,
or waits for the user thread of an older transaction, for an unfinished cluster of smaller rank, or
for itself in an older transaction. -/
theorem waits_for_reason (hrun : run G .rankBased (State.init G first) actions = some s)
    (hexecutor : s.executorMessages = []) (hplanner : s.plannerMessages = [])
    (hreceived : s.planner.received = none) (hpass : s.planner.runningPlanner = none) {T c : ID}
    (hT : T ∈ s.executor.transactions) (hkey : c ∈ (s.inner T).targetClusters)
    (hidle : ∀ task ∈ s.tasks, task.transactionId = T → task.clusterId ≠ c) :
    (∃ task ∈ s.tasks, task.transactionId = T ∧ c ∈ task.phase.abstract.futures) ∨
      (∃ T', first ≤ T' ∧ T' < T ∧ T' ∉ s.committed) ∨
      ∃ T' d, T' ≤ T ∧ s.Unfinished T' d ∧
        ((G.clusterRanks d).value < (G.clusterRanks c).value ∨ d = c ∧ T' < T) := by
  obtain ⟨registered, oldest, hsim⟩ := simulated_of_run hrun
  have hnone : s.phaseOf T c = none := by
    rw [phaseOf_eq_none_iff]
    rintro hin
    obtain ⟨task, htask, hkey⟩ := List.mem_map.mp hin
    obtain ⟨rfl, rfl⟩ := Prod.mk.inj hkey
    exact hidle task htask rfl rfl
  rcases hsim.reachable.waits_for ⟨hexecutor, hplanner, hreceived, hpass⟩ hT hkey
    (by simp [abstract, hnone]) with ⟨c', hc'⟩ | huser | ⟨T', d, hle, hunfinished, hwhy⟩
  · left
    simp only [Protocol.State.futures, abstract] at hc'
    cases hfound : s.phaseOf T c' with
    | none => simp [hfound] at hc'
    | some phase =>
        refine ⟨_, exists_task_of_phaseOf hfound, rfl, ?_⟩
        simpa [hfound] using hc'
  · exact .inr (.inl huser)
  · exact .inr (.inr ⟨T', d, hle, hsim.unfinished hunfinished, hwhy⟩)

/-- The second transaction waits while the first one updates the same cluster. -/
theorem waits_for_reason_sinkMapHold :
    (∃ task ∈ (sinkMapHoldAt 37).tasks, task.transactionId = 2 ∧ 1 ∈ task.phase.abstract.futures) ∨
      (∃ T', 0 ≤ T' ∧ T' < 2 ∧ T' ∉ (sinkMapHoldAt 37).committed) ∨
      ∃ T' d, T' ≤ 2 ∧ (sinkMapHoldAt 37).Unfinished T' d ∧
        ((sinkMapHold.clusterRanks d).value < (sinkMapHold.clusterRanks 1).value ∨
          d = 1 ∧ T' < 2) :=
  waits_for_reason (run_sinkMapHoldAt 37 (by decide +kernel)) (by decide +kernel)
    (by decide +kernel) (by decide +kernel) (by decide +kernel) (by decide +kernel)
    (by decide +kernel) (by decide +kernel)

end State

end Prf
