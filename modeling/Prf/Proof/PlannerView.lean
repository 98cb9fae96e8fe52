import Prf.Proof.PlannerStates
import Prf.Proof.Protocol

/-!
# The planner's view

When the deque of states describes the protocol exactly, and that every move keeps it so or pushes
the message that does.
-/

namespace Prf

namespace Protocol

/-- An announced cluster whose task has not told the planner that it runs. -/
def State.Waiting (s : State) (T c : ID) : Prop :=
  s.Announced T c ∧ (s.phase T c = none ∨ s.phase T c = some .queued)

def State.Running (s : State) (T c : ID) : Prop :=
  ∃ phase, s.phase T c = some phase ∧ phase.isRunning = true

/-- A `TransactionState` that is up to date. -/
structure Describes (clusterRanks : ID → Rank) (s : State) (T : ID) (state : TransactionState) :
    Prop where
  transactionId : state.transactionId = T
  initialized : state.initialized = true ↔ T ∈ s.transactions
  future : ∀ c, c ∈ state.future ↔ T ∈ s.transactions ∧ s.Waiting T c
  now : ∀ c, c ∈ state.now ↔ s.Running T c
  counted : state.RanksCounted clusterRanks

/-- The deque of a planner that has handled every message: one state for each transaction that is
registered and not finalised. -/
def Exact (clusterRanks : ID → Rank) (s : State) (states : List TransactionState) : Prop :=
  states.length = s.registered - s.oldest ∧
    ∀ i state, states[i]? = some state → Describes clusterRanks s (s.oldest + i) state

variable {planner : Planner} {clusterRanks : ID → Rank} {edge : ID → ID → Prop} {first : ID}
  {s s' : State} {states : List TransactionState}

theorem Describes.congr {T : ID} {state : TransactionState}
    (h : Describes clusterRanks s T state)
    (htransactions : T ∈ s'.transactions ↔ T ∈ s.transactions)
    (hwaiting : ∀ c, T ∈ s.transactions → (s'.Waiting T c ↔ s.Waiting T c))
    (hrunning : ∀ c, s'.Running T c ↔ s.Running T c) :
    Describes clusterRanks s' T state where
  transactionId := h.transactionId
  initialized := h.initialized.trans htransactions.symm
  future := by
    intro c
    rw [h.future, htransactions]
    exact and_congr_right fun hT => (hwaiting c hT).symm
  now := fun c => (h.now c).trans (hrunning c).symm
  counted := h.counted

theorem running_iff {T c : ID} :
    s.Running T c ↔ s.phase T c ≠ none ∧ s.phase T c ≠ some .queued ∧
      s.phase T c ≠ some .finished := by
  simp only [State.Running]
  cases s.phase T c with
  | none => simp
  | some phase => cases phase <;> simp [Phase.isRunning]

theorem Tasks.transactions_of_running (h : Tasks edge first s) {T c : ID}
    (hrunning : s.Running T c) : T ∈ s.transactions := by
  obtain ⟨phase, hphase, hrun⟩ := hrunning
  exact h.running hphase (by rintro rfl; simp [Phase.isRunning] at hrun)

theorem same_of_setPhase {T c T' : ID} {next : Phase} (htransactions : s'.transactions = s.transactions)
    (hkeys : s'.keys = s.keys) (hphase : s'.phase = setPhase s.phase T c next) (hne : T' ≠ T) :
    (T' ∈ s'.transactions ↔ T' ∈ s.transactions) ∧ (∀ d, s'.Waiting T' d ↔ s.Waiting T' d) ∧
      ∀ d, s'.Running T' d ↔ s.Running T' d := by
  refine ⟨by rw [htransactions], fun d => ?_, fun d => ?_⟩
  · simp only [State.Waiting, State.Announced, State.futures, hkeys, hphase, setPhase, hne,
      false_and, if_false]
  · simp only [State.Running, hphase, setPhase, hne, false_and, if_false]

namespace Exact

theorem of_congr (h : Exact clusterRanks s states) (hregistered : s'.registered = s.registered)
    (holdest : s'.oldest = s.oldest)
    (hsame : ∀ T, s.oldest ≤ T → T < s.registered →
      (T ∈ s'.transactions ↔ T ∈ s.transactions) ∧
      (∀ c, T ∈ s.transactions → (s'.Waiting T c ↔ s.Waiting T c)) ∧
      ∀ c, s'.Running T c ↔ s.Running T c) :
    Exact clusterRanks s' states := by
  refine ⟨by rw [h.1, hregistered, holdest], fun i state hstate => ?_⟩
  obtain ⟨hlt, -⟩ := List.getElem?_eq_some_iff.mp hstate
  rw [h.1] at hlt
  obtain ⟨htransactions, hwaiting, hrunning⟩ :=
    hsame (s.oldest + i) (Nat.le_add_right _ _) (by lia)
  rw [holdest]
  exact (h.2 i state hstate).congr htransactions hwaiting hrunning

theorem of_eq (h : Exact clusterRanks s states) (hregistered : s'.registered = s.registered)
    (holdest : s'.oldest = s.oldest) (htransactions : s'.transactions = s.transactions)
    (hkeys : s'.keys = s.keys) (hphase : s'.phase = s.phase) : Exact clusterRanks s' states := by
  refine h.of_congr hregistered holdest fun T _ _ => ⟨by rw [htransactions], fun c _ => ?_, fun c => ?_⟩
  · simp only [State.Waiting, State.Announced, State.futures, hkeys, hphase]
  · simp only [State.Running, hphase]

theorem exists_state (h : Exact clusterRanks s states) {T : ID} (hle : s.oldest ≤ T)
    (hlt : T < s.registered) :
    ∃ state, states[T - s.oldest]? = some state ∧ Describes clusterRanks s T state := by
  have hindex : T - s.oldest < states.length := by
    rw [h.1]
    lia
  refine ⟨states[T - s.oldest], List.getElem?_eq_getElem hindex, ?_⟩
  have hdescribes := h.2 _ _ (List.getElem?_eq_getElem hindex)
  rwa [Nat.add_sub_cancel' hle] at hdescribes

theorem handleStartMessage_eq (h : Exact clusterRanks s states) (hle : s.oldest ≤ s.registered) :
    handleStartMessage s.registered states = states ++ [TransactionState.new s.registered] := by
  rw [handleStartMessage]
  cases hback : states.getLast? with
  | none => simp [List.getLast?_eq_none_iff.mp hback]
  | some back =>
      rw [List.getLast?_eq_getElem?] at hback
      have hpos : 0 < states.length := by
        by_contra hzero
        simp [List.length_eq_zero_iff.mp (Nat.eq_zero_of_not_pos hzero)] at hback
      have hid := (h.2 _ _ hback).transactionId
      have hlength := h.1
      have hone : s.registered - back.transactionId = 1 := by lia
      have hnext : back.transactionId + 1 = s.registered := by lia
      simp only [hone, appendStates, hnext]

theorem consecutive (h : Exact clusterRanks s states) : Consecutive states := by
  intro i front state hfront hstate
  rw [(h.2 i state hstate).transactionId, (h.2 0 front hfront).transactionId, add_zero]

theorem update (h : Exact clusterRanks s states) {message : UpdateTransactionMessage}
    (hle : s.oldest ≤ message.transactionId) (hlt : message.transactionId < s.registered)
    (hregistered : s'.registered = s.registered) (holdest : s'.oldest = s.oldest)
    (hsame : ∀ T, T ≠ message.transactionId →
      (T ∈ s'.transactions ↔ T ∈ s.transactions) ∧ (∀ c, s'.Waiting T c ↔ s.Waiting T c) ∧
      ∀ c, s'.Running T c ↔ s.Running T c)
    (happly : ∀ state, Describes clusterRanks s message.transactionId state →
      ∃ state', state.applyUpdate clusterRanks message = some state' ∧
        Describes clusterRanks s' message.transactionId state') :
    ∃ states', handleMessage clusterRanks states (.updateTransaction message) = some states' ∧
      Exact clusterRanks s' states' := by
  obtain ⟨state, hstate, hdescribes⟩ := h.exists_state hle hlt
  obtain ⟨state', hstate', hdescribes'⟩ := happly state hdescribes
  refine ⟨states.set (message.transactionId - s.oldest) state', ?_, ?_, ?_⟩
  · rw [handleMessage, h.consecutive.handleUpdateMessage_eq hstate hdescribes.transactionId, hstate',
      Option.map_some]
  · rw [List.length_set, h.1, hregistered, holdest]
  · intro i other hother
    rw [holdest]
    rw [List.getElem?_set] at hother
    split at hother
    · rename_i hi
      split at hother
      · obtain rfl := Option.some.inj hother
        rwa [← hi, Nat.add_sub_cancel' hle]
      · cases hother
    · rename_i hi
      have hne : s.oldest + i ≠ message.transactionId := by lia
      obtain ⟨htransactions, hwaiting, hrunning⟩ := hsame _ hne
      exact (h.2 i other hother).congr htransactions (fun c _ => hwaiting c) hrunning

/-! ## What each move does to an exact view -/

theorem start (h : Exact clusterRanks s states) (hc : Core edge first s) {T : ID}
    {rest : List ExecutorMessage}
    (hfront : s.executorMessages = .registerTransaction T :: rest)
    (hregistered : s'.registered = s.registered + 1) (holdest : s'.oldest = s.oldest)
    (htransactions : s'.transactions = s.transactions) (hkeys : s'.keys = s.keys)
    (hphase : s'.phase = s.phase) :
    ∃ states', handleMessage clusterRanks states (.startTransaction T) = some states' ∧
      Exact clusterRanks s' states' := by
  obtain ⟨rfl, -⟩ := hc.queues.register_front hfront
  have hle := hc.queues.oldest_le
  refine ⟨_, congrArg some (h.handleStartMessage_eq hle), ?_, fun i state hstate => ?_⟩
  · simp only [List.length_append, h.1, List.length_singleton, hregistered, holdest]
    lia
  · have hwaiting : ∀ T c, s'.Waiting T c ↔ s.Waiting T c := by
      simp [State.Waiting, State.Announced, State.futures, hkeys, hphase]
    have hrunning : ∀ T c, s'.Running T c ↔ s.Running T c := by
      simp [State.Running, hphase]
    rw [holdest]
    rw [List.getElem?_append] at hstate
    split at hstate
    · exact (h.2 i state hstate).congr (by rw [htransactions]) (fun c _ => hwaiting _ c)
        (hrunning _)
    · rename_i hlength
      have hi : i = states.length := by
        have := (List.getElem?_eq_some_iff.mp hstate).1
        simp only [List.length_singleton] at this
        lia
      subst hi
      simp only [Nat.sub_self, List.getElem?_cons_zero, Option.some.injEq] at hstate
      subst hstate
      have hid : s.oldest + states.length = s.registered := by
        rw [h.1]
        lia
      have hnot : s.registered ∉ s.transactions :=
        fun hin => absurd (hc.queues.transactions _ hin).2.1 (lt_irrefl _)
      rw [hid]
      refine ⟨rfl, ?_, fun c => ?_, fun c => ?_, TransactionState.new_counted _⟩
      · simp [TransactionState.new, htransactions, hnot]
      · simp [TransactionState.new, htransactions, hnot]
      · simp only [TransactionState.new, Finset.notMem_empty, hrunning, false_iff]
        exact fun hrun => hnot (hc.tasks.transactions_of_running hrun)

theorem finish (h : Exact clusterRanks s states) {T : ID} (hT : T = s.oldest)
    (hlt : T < s.registered) (hregistered : s'.registered = s.registered)
    (holdest : s'.oldest = s.oldest + 1) (htransactions : s'.transactions = s.transactions.erase T)
    (hkeys : s'.keys = s.keys) (hphase : s'.phase = s.phase) :
    ∃ states', handleMessage clusterRanks states (.finishTransaction T) = some states' ∧
      Exact clusterRanks s' states' := by
  obtain ⟨front, hfront, hdescribes⟩ := h.exists_state hT.ge hlt
  cases states with
  | nil => simp at hfront
  | cons head rest =>
      have hhead : head.transactionId = T := by
        have := (h.2 0 head rfl).transactionId
        simpa [hT] using this
      refine ⟨rest, by simp [handleMessage, handleFinishMessage, hhead], ?_, fun i state hi => ?_⟩
      · have hlength := h.1
        rw [List.length_cons] at hlength
        lia
      · have hstate := h.2 (i + 1) state (by simpa using hi)
        have hindex : s'.oldest + i = s.oldest + (i + 1) := by lia
        rw [hindex]
        refine hstate.congr ?_ (fun c _ => ?_) (fun c => ?_)
        · rw [htransactions, Finset.mem_erase]
          exact and_iff_right (by lia)
        · simp [State.Waiting, State.Announced, State.futures, hkeys, hphase]
        · simp [State.Running, hphase]

end Exact

theorem Describes.execute {T : ID} {state : TransactionState}
    (h : Describes clusterRanks s T state) (hT : T ∉ s.transactions)
    (hnone : ∀ c, s.phase T c = none) (htransactions : s'.transactions = insert T s.transactions)
    (hkeys : s'.keys = s.keys) (hphase : s'.phase = s.phase) :
    ∃ state', state.applyUpdate clusterRanks ⟨T, [], ascending (s.keys T), []⟩ = some state' ∧
      Describes clusterRanks s' T state' := by
  obtain ⟨state', happly, hid, hinitialized, hfuture, hnow, hcounted⟩ :=
    TransactionState.applyUpdate_future T (ascending (s.keys T)) h.counted
  refine ⟨state', happly, hid.trans h.transactionId, ?_, fun c => ?_, fun c => ?_, hcounted⟩
  · simp [hinitialized, htransactions]
  · have hold : c ∉ state.future := fun hin => hT ((h.future c).mp hin).1
    simp [hfuture, hold, htransactions, State.Waiting, State.Announced, State.futures, hkeys,
      hphase, hnone]
  · rw [hnow, h.now]
    simp [State.Running, hphase]

theorem Describes.announce {T c : ID} {state : TransactionState}
    (h : Describes clusterRanks s T state) (ht : Tasks edge first s)
    (hannounced : s.Announced T c) (htask : s.phase T c = some .queued)
    (htransactions : s'.transactions = s.transactions) (hkeys : s'.keys = s.keys)
    (hphase : s'.phase = setPhase s.phase T c .announced) :
    ∃ state', state.applyUpdate clusterRanks ⟨T, [c], [], []⟩ = some state' ∧
      Describes clusterRanks s' T state' := by
  have hT := ht.running htask (by simp)
  have hfuture : c ∈ state.future := (h.future c).mpr ⟨hT, hannounced, .inr htask⟩
  have hnow : c ∉ state.now := by
    rw [h.now, running_iff]
    simp [htask]
  obtain ⟨state', happly, hid, hinitialized, hfuture', hnow', hcounted⟩ :=
    TransactionState.applyUpdate_now T h.counted hfuture hnow
  refine ⟨state', happly, hid.trans h.transactionId, ?_, fun d => ?_, fun d => ?_, hcounted⟩
  · simp [hinitialized, htransactions, hT]
  · have hold := h.future d
    simp only [State.Waiting, State.Announced, State.futures] at hold
    rw [hfuture', Finset.mem_erase, hold]
    simp only [State.Waiting, State.Announced, State.futures, htransactions, hkeys, hphase,
      setPhase]
    grind [Phase.futures]
  · have hold := h.now d
    rw [running_iff] at hold
    rw [hnow', Finset.mem_insert, hold, running_iff, hphase]
    simp only [setPhase]
    grind

theorem Describes.finish {T c : ID} {futures : Finset ID} {state : TransactionState}
    (h : Describes clusterRanks s T state) (ht : Tasks edge first s)
    (htask : s.phase T c = some (.buffered futures))
    (htransactions : s'.transactions = s.transactions) (hkeys : s'.keys = s.keys)
    (hphase : s'.phase = setPhase s.phase T c .finished) :
    ∃ state', state.applyUpdate clusterRanks ⟨T, [], ascending futures, [c]⟩ = some state' ∧
      Describes clusterRanks s' T state' := by
  have hT := ht.running htask (by simp)
  have hnow : c ∈ state.now := by
    rw [h.now, running_iff]
    simp [htask]
  obtain ⟨state', happly, hid, hinitialized, hfuture', hnow', hcounted⟩ :=
    TransactionState.applyUpdate_finish T (ascending futures) h.counted hnow
  refine ⟨state', happly, hid.trans h.transactionId, ?_, fun d => ?_, fun d => ?_, hcounted⟩
  · simp [hinitialized, htransactions, hT]
  · have hold := h.future d
    have hkey := ht.futures_key T c d
    have hdisjoint := fun c' => ht.futures_disjoint T c c' d
    simp only [State.Waiting, State.Announced, State.futures] at hold hkey hdisjoint
    rw [hfuture', Finset.mem_union, hold, ascending_toFinset]
    simp only [State.Waiting, State.Announced, State.futures, htransactions, hkeys, hphase,
      setPhase]
    grind [Phase.futures]
  · have hold := h.now d
    rw [running_iff] at hold
    rw [hnow', Finset.mem_erase, hold, running_iff, hphase]
    simp only [setPhase]
    grind

end Protocol

end Prf
