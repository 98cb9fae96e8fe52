import Prf.Library.OrderedMap
import Prf.Proof.Invariant

/-!
# No stuck state

Every planner pass offers something about the oldest transaction as long as that transaction can go
on. The offer is pushed, and is dropped only when it has already been acted on. So where nothing is
left to do, the oldest transaction still waits for its user thread.
-/

namespace Prf.Protocol

variable {planner : Planner} {clusterRanks : ID → Rank} {edge : ID → ID → Prop} {first : ID}
  {s s' : State} {states : List TransactionState}

/-- The messages of the first round of a planner that is not stopped. -/
def firstRound (planner : Planner) (clusterRanks : ID → Rank) (states : List TransactionState) :
    List ExecutorMessage :=
  ((Pass.start.next planner clusterRanks states false).map Pass.pushes).getD []

theorem firstRound_simple : firstRound .simple clusterRanks states = simplePlanner clusterRanks states := by
  simp [firstRound, Pass.next, Pass.start]

theorem firstRound_rankBased_cons (state : TransactionState) (rest : List TransactionState) :
    firstRound .rankBased clusterRanks (state :: rest) =
      if state.initialized = true then
        (visitTransaction clusterRanks true Pass.start.loc state).2
      else [] := by
  cases hinitialized : state.initialized <;>
    simp [firstRound, Pass.next, Pass.start, hinitialized]

theorem firstRound_handleStartMessage (T : ID) :
    firstRound planner clusterRanks (handleStartMessage T states) =
      firstRound planner clusterRanks states := by
  cases states with
  | nil =>
      cases planner <;>
        simp [handleStartMessage, firstRound, Pass.next, Pass.start, simplePlanner,
          TransactionState.new]
  | cons state rest =>
      obtain ⟨more, hmore⟩ := handleStartMessage_append T (state :: rest)
      rw [hmore, List.cons_append]
      cases planner with
      | simple => rfl
      | rankBased => simp only [firstRound_rankBased_cons]

/-! ## The first round offers something -/

theorem mem_foldl_visitFuture_of_mem {T : ID} {message : ExecutorMessage} (futures : List ID)
    (acc : RankLocals × List ExecutorMessage) (h : message ∈ acc.2) :
    message ∈ (futures.foldl (visitFuture clusterRanks T) acc).2 := by
  induction futures generalizing acc with
  | nil => exact h
  | cons c futures ih =>
      apply ih
      rcases visitFuture_messages clusterRanks T acc c with heq | heq
      · rwa [heq]
      · rw [heq]
        exact List.mem_append_left _ h

theorem exists_start_visitTransaction {state : TransactionState} (hnow : state.now = ∅)
    (hfuture : state.future ≠ ∅) :
    ∃ c ∈ state.future, .startUpdateCluster state.transactionId c ∈
      (visitTransaction clusterRanks true Pass.start.loc state).2 := by
  have hnil : ascending (∅ : Finset ID) = [] := by
    rw [ascending_eq_sort]
    simp
  cases hlist : ascending state.future with
  | nil =>
      have hempty := ascending_toFinset state.future
      rw [hlist] at hempty
      exact absurd hempty.symm hfuture
  | cons c futures =>
      refine ⟨c, mem_ascending.mp (by simp [hlist]), ?_⟩
      simp only [visitTransaction, hnow, hnil, hlist, List.foldl_nil, List.foldl_cons]
      apply List.mem_append_left
      apply mem_foldl_visitFuture_of_mem
      have hrank : ¬ Pass.start.loc.targetRank < (clusterRanks c).value := by
        have hlt := (clusterRanks c).value_lt
        simp only [Pass.start, not_lt]
        exact Nat.le_sub_one_of_lt hlt
      have hunused : Pass.start.loc.usedClusters = ∅ := rfl
      rw [visitFuture]
      simp only [hrank, if_false]
      split <;> simp [hunused]

theorem exists_start_simplePlanner {state : TransactionState} {rest : List TransactionState}
    (hinitialized : state.initialized = true) (hcounted : state.RanksCounted clusterRanks)
    (hnow : state.now = ∅) (hfuture : state.future ≠ ∅) :
    ∃ c ∈ state.future, .startUpdateCluster state.transactionId c ∈
      simplePlanner clusterRanks (state :: rest) := by
  obtain ⟨c, hc⟩ := Finset.nonempty_iff_ne_empty.mpr hfuture
  have hmem : (clusterRanks c).value ∈ state.targetRanks :=
    (hcounted.mem_iff _).mpr ⟨c, by simp [hc], rfl⟩
  cases hhead : state.targetRanks.toList.head? with
  | none =>
      have hnil := List.head?_eq_none_iff.mp hhead
      have hkeys := Std.ExtTreeMap.map_fst_toList_eq_keys (t := state.targetRanks)
      rw [hnil, List.map_nil] at hkeys
      have := Std.ExtTreeMap.mem_keys.mpr hmem
      rw [← hkeys] at this
      simp at this
  | some entry =>
      obtain ⟨rank, count⟩ := entry
      have hrank : rank ∈ state.targetRanks := (OrderedMap.head?_toList_eq_some hhead).1
      obtain ⟨d, hd, hdrank⟩ := (hcounted.mem_iff rank).mp hrank
      rw [hnow, Finset.union_empty] at hd
      have hsome : ((ascending state.future).find? fun id => (clusterRanks id).value = rank).isSome := by
        rw [List.find?_isSome]
        exact ⟨d, by simpa using hd, by simpa using hdrank⟩
      obtain ⟨e, he⟩ := Option.isSome_iff_exists.mp hsome
      refine ⟨e, by simpa using List.mem_of_find?_eq_some he, ?_⟩
      simp [simplePlanner, hinitialized, hfuture, hnow, hhead, he]

variable (planner) in
/-- The first round offers to finalise an idle transaction without waiting clusters, and else to
start one of them. -/
theorem firstRound_offers {state : TransactionState} (rest : List TransactionState)
    (hinitialized : state.initialized = true) (hcounted : state.RanksCounted clusterRanks)
    (hnow : state.now = ∅) :
    .finalizeTransaction state.transactionId ∈ firstRound planner clusterRanks (state :: rest) ∨
      ∃ c ∈ state.future, .startUpdateCluster state.transactionId c ∈
        firstRound planner clusterRanks (state :: rest) := by
  by_cases hfuture : state.future = ∅
  · left
    cases planner with
    | simple => simp [firstRound_simple, simplePlanner, hinitialized, hnow, hfuture]
    | rankBased => simp [firstRound_rankBased_cons, hinitialized, visitTransaction, hnow, hfuture]
  · right
    cases planner with
    | simple =>
        rw [firstRound_simple]
        exact exists_start_simplePlanner hinitialized hcounted hnow hfuture
    | rankBased =>
        rw [firstRound_rankBased_cons, if_pos hinitialized]
        exact exists_start_visitTransaction hnow hfuture

/-! ## Offers are not lost -/

def State.Handled (s : State) : ExecutorMessage → Prop
  | .startUpdateCluster T c => T < s.oldest ∨ c ∈ s.updatings T
  | .finalizeTransaction T => T < s.oldest
  | _ => True

/-- Once a pass has begun, what its first round offers is on its way or has been acted on. -/
structure Pending (planner : Planner) (clusterRanks : ID → Rank) (s : State) : Prop where
  fresh : ∀ pass, s.planner.runningPlanner = some pass → pass.index = 0 → pass = Pass.start
  offered : s.planner.received = none →
    (∀ pass, s.planner.runningPlanner = some pass → pass.index ≠ 0) →
    ∀ message ∈ firstRound planner clusterRanks s.planner.transactionStates,
      message ∈ s.proposals ∨ s.Handled message

theorem handled_move (hc : Core edge first s) (hmove : Move planner clusterRanks edge first s s')
    {message : ExecutorMessage} (h : s.Handled message) : s'.Handled message := by
  cases message with
  | startUpdateCluster T c =>
      simp only [State.Handled] at h ⊢
      cases hmove
      case start => simp only [Function.update_apply]; grind
      case finalize T' rest hfront hrunning =>
        have hT := hc.queues.finalize_oldest hc.offers hfront hrunning
        simp only [Function.update_apply]
        grind
      all_goals exact h
  | finalizeTransaction T =>
      simp only [State.Handled] at h ⊢
      cases hmove
      case finalize => exact Nat.lt_succ_of_lt h
      all_goals exact h
  | transactionExecute T => trivial
  | registerTransaction T => trivial

theorem handled_of_front (hc : Core edge first s)
    (hmove : Move planner clusterRanks edge first s s') {message : ExecutorMessage}
    (h : message ∈ s.executorMessages) (hgone : message ∉ s'.executorMessages) :
    s'.Handled message := by
  have hpop : ∀ {front : ExecutorMessage} {rest : List ExecutorMessage},
      s.executorMessages = front :: rest → message ∉ rest → message = front := by
    intro front rest hfront hrest
    rw [hfront] at h
    exact (List.mem_cons.mp h).resolve_right hrest
  cases hmove
  case register | commit | push => exact absurd (List.mem_append_left _ h) hgone
  case handleRegister hfront | handleExecute hfront =>
    rw [hpop hfront hgone]
    trivial
  case skipStart T c rest hfront hskipped =>
    rw [hpop hfront hgone]
    have hoffered := (hc.offers.start T c (by simp [hfront])).1
    simp only [State.Handled]
    tauto
  case start T c rest hfront hrunning hfresh =>
    rw [hpop hfront hgone]
    exact .inr (by simp)
  case skipFinalize T rest hfront hskipped =>
    rw [hpop hfront hgone]
    have hclosed := (hc.offers.finalize T (by simp [hfront])).2
    simp only [State.Handled]
    tauto
  case finalize T rest hfront hrunning =>
    rw [hpop hfront hgone]
    have hT := hc.queues.finalize_oldest hc.offers hfront hrunning
    simp only [State.Handled]
    lia
  all_goals exact absurd h hgone

namespace Pending

theorem of_planner_eq (h : Pending planner clusterRanks s) (hc : Core edge first s)
    (hmove : Move planner clusterRanks edge first s s') (hplanner : s'.planner = s.planner) :
    Pending planner clusterRanks s' := by
  refine ⟨by rw [hplanner]; exact h.fresh, ?_⟩
  rw [hplanner]
  intro hreceived hindex message hmessage
  rcases h.offered hreceived hindex message hmessage with hin | hhandled
  · by_cases hgone : message ∈ s'.proposals
    · exact .inl hgone
    · simp only [State.proposals, hplanner, List.mem_append, not_or] at hin hgone
      exact .inr (handled_of_front hc hmove (hin.resolve_right hgone.2) hgone.1)
  · exact .inr (handled_move hc hmove hhandled)

theorem move (h : Pending planner clusterRanks s) (hinv : Inv planner clusterRanks edge first s)
    (hmove : Move planner clusterRanks edge first s s') : Pending planner clusterRanks s' := by
  have hc := hinv.core
  have hmove' := hmove
  cases hmove
  case receiveStart T rest hidle hfront =>
    refine ⟨h.fresh, fun hreceived hindex message hmessage => ?_⟩
    simp only [firstRound_handleStartMessage] at hmessage
    exact (h.offered hidle hindex message hmessage).imp id (handled_move hc hmove')
  case receive => exact ⟨h.fresh, fun hreceived => by simp at hreceived⟩
  case handle =>
    refine ⟨fun pass hpass _ => (Option.some.inj hpass).symm, fun _ hindex => ?_⟩
    exact absurd rfl (hindex Pass.start rfl)
  case push pass message rest hrunning hfront =>
    have hne : pass.index ≠ 0 := by
      intro hzero
      rw [h.fresh pass hrunning hzero] at hfront
      simp [Pass.start] at hfront
    refine ⟨fun pass' hpass' hzero => ?_, fun hreceived _ message' hmessage => ?_⟩
    · obtain rfl := Option.some.inj hpass'
      exact absurd hzero hne
    · have hindex : ∀ pass', s.planner.runningPlanner = some pass' → pass'.index ≠ 0 := by
        intro pass' hpass'
        obtain rfl := Option.some.inj (hrunning.symm.trans hpass')
        exact hne
      rcases h.offered hreceived hindex message' hmessage with hin | hhandled
      · left
        simp only [State.proposals, hrunning, hfront] at hin ⊢
        simpa using hin
      · exact .inr (handled_move hc hmove' hhandled)
  case advance pass hrunning hfront =>
    refine ⟨fun pass' hnext hzero => ?_, fun hreceived _ message hmessage => ?_⟩
    · have : pass'.index ≠ 0 := by
        simp only at hnext
        cases planner with
        | simple =>
            obtain ⟨-, rfl⟩ := Pass.next_simple hnext
            exact one_ne_zero
        | rankBased =>
            obtain ⟨state, -, -, -, rfl⟩ := Pass.next_rankBased hnext
            exact Nat.succ_ne_zero _
      exact absurd hzero this
    · by_cases hzero : pass.index = 0
      · have hstop : s.planner.stopPlanningNeeded = false := by
          rw [hinv.stop]
          simpa using hreceived
        obtain rfl := h.fresh pass hrunning hzero
        left
        simp only [firstRound] at hmessage
        simp only [State.proposals, hstop, List.mem_append]
        cases hnext : Pass.start.next planner clusterRanks s.planner.transactionStates false with
        | none => simp [hnext] at hmessage
        | some pass' =>
            right
            simpa [hnext] using hmessage
      · have hindex : ∀ pass', s.planner.runningPlanner = some pass' → pass'.index ≠ 0 := by
          intro pass' hpass'
          obtain rfl := Option.some.inj (hrunning.symm.trans hpass')
          exact hzero
        rcases h.offered hreceived hindex message hmessage with hin | hhandled
        · left
          simp only [State.proposals, hrunning, hfront, List.append_nil] at hin
          exact List.mem_append_left _ hin
        · exact .inr (handled_move hc hmove' hhandled)
  all_goals exact h.of_planner_eq hc hmove' rfl

end Pending

theorem Reachable.pending (h : Reachable planner clusterRanks edge first s) :
    Pending planner clusterRanks s := by
  induction h with
  | refl =>
      refine ⟨by simp [State.init], fun _ _ message hmessage => ?_⟩
      cases planner <;>
        simp [State.init, firstRound, Pass.next, Pass.start, simplePlanner] at hmessage
  | tail hreach hmove ih => exact ih.move (Reachable.inv hreach) hmove

structure Quiescent (s : State) : Prop where
  executorMessages : s.executorMessages = []
  plannerMessages : s.plannerMessages = []
  received : s.planner.received = none
  runningPlanner : s.planner.runningPlanner = none
  phase : ∀ T c phase, s.phase T c = some phase → phase = .finished

/-- Where nothing moves any more, the oldest transaction has not been committed. -/
theorem Reachable.oldest_open (h : Reachable planner clusterRanks edge first s)
    (hquiet : Quiescent s) : s.oldest ∉ s.committed := by
  intro hcommitted
  have hinv := h.inv
  have hq := hinv.core.queues
  have hT : s.oldest ∈ s.transactions := by
    obtain ⟨-, -, hbefore | hin | hwaits⟩ := hq.committed _ hcommitted
    · exact absurd hbefore (lt_irrefl _)
    · exact hin
    · simp [hquiet.executorMessages] at hwaits
  have hexact : Exact clusterRanks s s.planner.transactionStates := by
    have hview := hinv.view
    simpa [State.unhandled, hquiet.received, hquiet.plannerMessages, Replica.Lags] using hview
  obtain ⟨state, hstate, hdescribes⟩ := hexact.exists_state le_rfl (hq.transactions _ hT).2.1
  have hnow : state.now = ∅ := by
    refine Finset.eq_empty_of_forall_notMem fun c hc => ?_
    obtain ⟨phase, hphase, hrunning⟩ := (hdescribes.now c).mp hc
    simp [hquiet.phase _ _ _ hphase, Phase.isRunning] at hrunning
  obtain ⟨rest, hrest⟩ : ∃ rest, s.planner.transactionStates = state :: rest := by
    cases hstates : s.planner.transactionStates with
    | nil => simp [hstates] at hstate
    | cons head rest => exact ⟨rest, by simp_all⟩
  have hhandled : ∀ message ∈ firstRound planner clusterRanks s.planner.transactionStates,
      s.Handled message := by
    intro message hmessage
    refine (h.pending.offered hquiet.received ?_ message hmessage).resolve_left ?_
    · simp [hquiet.runningPlanner]
    · simp [State.proposals, hquiet.executorMessages, hquiet.runningPlanner]
  rw [hrest] at hhandled
  rcases firstRound_offers planner rest
    (hdescribes.initialized.mpr hT) hdescribes.counted hnow with hfinalize | ⟨c, hc, hstart⟩
  · have hdone := hhandled _ hfinalize
    rw [hdescribes.transactionId] at hdone
    exact lt_irrefl _ hdone
  · have hdone := hhandled _ hstart
    rw [hdescribes.transactionId] at hdone
    rcases hdone with hbefore | hupdating
    · exact lt_irrefl _ hbefore
    · obtain ⟨phase, hphase⟩ := Option.ne_none_iff_exists'.mp
        ((hinv.core.tasks.updatings _ _).mp hupdating).2
      have hwaiting := ((hdescribes.future c).mp hc).2.2
      simp [hphase, hquiet.phase _ _ _ hphase] at hwaiting

end Prf.Protocol
