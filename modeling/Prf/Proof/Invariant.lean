import Prf.Proof.PlannerView

/-!
# The invariant of the protocol

What the planners propose from an exact view may be acted on, now or later; with that, every
reachable state satisfies the core of the invariant, and the planner's view lags behind it by the
messages in its queue.
-/

namespace Prf.Protocol

variable {planner : Planner} {clusterRanks : ID → Rank} {edge : ID → ID → Prop} {first : ID}
  {s s' : State} {states : List TransactionState}

/-! ## What a planner proposes -/

def IsProposalOf (states : List TransactionState) (message : ExecutorMessage) : Prop :=
  ∃ i state, states[i]? = some state ∧ state.initialized = true ∧
    ((∃ c ∈ state.future, message = .startUpdateCluster state.transactionId c) ∨
      (i = 0 ∧ state.future = ∅ ∧ state.now = ∅ ∧
        message = .finalizeTransaction state.transactionId))

theorem isProposalOf_simplePlanner {message : ExecutorMessage}
    (h : message ∈ simplePlanner clusterRanks states) : IsProposalOf states message := by
  cases states with
  | nil => simp [simplePlanner] at h
  | cons state rest =>
      refine ⟨0, state, rfl, ?_⟩
      rw [simplePlanner] at h
      split at h
      · simp at h
      · rename_i hinitialized
        refine ⟨by simpa using hinitialized, ?_⟩
        split at h
        · rename_i hempty
          exact .inr ⟨rfl, hempty.2, hempty.1, by simpa using h⟩
        · split at h
          · cases hhead : state.targetRanks.toList.head? with
            | none => simp [hhead] at h
            | some entry =>
                simp only [hhead, List.mem_map, Option.mem_toList] at h
                obtain ⟨c, hc, rfl⟩ := h
                exact .inl ⟨c, by simpa using List.mem_of_find?_eq_some hc, rfl⟩
          · simp at h

variable (clusterRanks) in
theorem visitFuture_messages (T : ID) (acc : RankLocals × List ExecutorMessage) (c : ID) :
    (visitFuture clusterRanks T acc c).2 = acc.2 ∨
      (visitFuture clusterRanks T acc c).2 = acc.2 ++ [.startUpdateCluster T c] := by
  rw [visitFuture]
  split
  · exact .inl rfl
  · generalize (if (clusterRanks c).value < acc.1.targetRank then
      RankLocals.mk (clusterRanks c).value ∅ else acc.1) = loc
    by_cases hc : c ∈ loc.usedClusters
    · exact .inl (by simp [hc])
    · exact .inr (by simp [hc])

theorem mem_foldl_visitFuture {T : ID} {message : ExecutorMessage} (futures : List ID)
    (acc : RankLocals × List ExecutorMessage)
    (h : message ∈ (futures.foldl (visitFuture clusterRanks T) acc).2) :
    message ∈ acc.2 ∨ ∃ c ∈ futures, message = .startUpdateCluster T c := by
  induction futures generalizing acc with
  | nil => exact .inl h
  | cons c futures ih =>
      rcases ih _ h with hin | ⟨d, hd, hmessage⟩
      · rcases visitFuture_messages clusterRanks T acc c with heq | heq
        · exact .inl (heq ▸ hin)
        · rw [heq, List.mem_append, List.mem_singleton] at hin
          rcases hin with hold | hnew
          · exact .inl hold
          · exact .inr ⟨c, by simp, hnew⟩
      · exact .inr ⟨d, by simp [hd], hmessage⟩

theorem mem_visitTransaction {canFinish : Bool} {loc : RankLocals} {state : TransactionState}
    {message : ExecutorMessage}
    (h : message ∈ (visitTransaction clusterRanks canFinish loc state).2) :
    (∃ c ∈ state.future, message = .startUpdateCluster state.transactionId c) ∨
      (canFinish = true ∧ state.future = ∅ ∧ state.now = ∅ ∧
        message = .finalizeTransaction state.transactionId) := by
  rw [visitTransaction] at h
  rcases List.mem_append.mp h with hin | hin
  · rcases mem_foldl_visitFuture _ _ hin with hnil | ⟨c, hc, hmessage⟩
    · simp at hnil
    · exact .inl ⟨c, by simpa using hc, hmessage⟩
  · split at hin
    · rename_i hclosed
      exact .inr ⟨hclosed.1, hclosed.2.1, hclosed.2.2, by simpa using hin⟩
    · simp at hin

theorem isProposalOf_next {pass pass' : Pass} {stop : Bool} {message : ExecutorMessage}
    (hnext : pass.next planner clusterRanks states stop = some pass')
    (h : message ∈ pass'.pushes) : IsProposalOf states message := by
  cases planner with
  | simple =>
      obtain ⟨-, rfl⟩ := Pass.next_simple hnext
      exact isProposalOf_simplePlanner h
  | rankBased =>
      obtain ⟨state, hstate, -, hinitialized, rfl⟩ := Pass.next_rankBased hnext
      refine ⟨pass.index, state, hstate, hinitialized, ?_⟩
      rcases mem_visitTransaction h with hstart | ⟨hfirst, hclosed⟩
      · exact .inl hstart
      · exact .inr ⟨by simpa using hfirst, hclosed⟩

theorem handleStartMessage_append (T : ID) (states : List TransactionState) :
    ∃ more, handleStartMessage T states = states ++ more := by
  rw [handleStartMessage]
  cases hback : states.getLast? with
  | none => exact ⟨_, by rw [List.getLast?_eq_none_iff.mp hback, List.nil_append]⟩
  | some back => exact ⟨_, rfl⟩

theorem Describes.finished {T : ID} {state : TransactionState}
    (h : Describes clusterRanks s T state) (hT : T ∈ s.transactions)
    (hfuture : state.future = ∅) (hnow : state.now = ∅) :
    ∀ c ∈ s.keys T, s.phase T c = some .finished := by
  have hidle : ∀ c, ¬ s.Running T c := by
    intro c hrunning
    have hin := (h.now c).mpr hrunning
    simp [hnow] at hin
  have hfutures : ∀ c, s.futures T c = ∅ := by
    intro c
    have hc := hidle c
    rw [running_iff] at hc
    rw [State.futures]
    grind [Phase.futures]
  intro c hc
  by_contra hphase
  have hwaiting : s.Waiting T c := by
    refine ⟨⟨hc, by simp [hfutures]⟩, ?_⟩
    have := hidle c
    rw [running_iff] at this
    grind
  have hin := (h.future c).mpr ⟨hT, hwaiting⟩
  simp [hfuture] at hin

/-- What a planner with an exact view proposes may be acted on. -/
theorem Exact.proposal (h : Exact clusterRanks s states) (hc : Core edge first s)
    {message : ExecutorMessage} (hmessage : IsProposalOf states message) :
    s.Proposal first message := by
  obtain ⟨i, state, hstate, hinitialized, ⟨c, hfuture, rfl⟩ | ⟨rfl, hfuture, hnow, rfl⟩⟩ := hmessage
  · have hdescribes := h.2 i state hstate
    obtain ⟨hT, hwaiting⟩ := (hdescribes.future c).mp hfuture
    rw [hdescribes.transactionId]
    exact ⟨.inr hT, hwaiting.1⟩
  · have hdescribes := h.2 0 state hstate
    have hT := hdescribes.initialized.mp hinitialized
    rw [hdescribes.transactionId]
    exact ⟨hc.queues.first_le, .inr ⟨rfl, hT, hdescribes.finished hT hfuture hnow⟩⟩

/-! ## The invariant -/

def CoreMove (planner : Planner) (clusterRanks : ID → Rank) (edge : ID → ID → Prop) (first : ID)
    (s s' : State) : Prop :=
  Core edge first s ∧ Move planner clusterRanks edge first s s'

structure Inv (planner : Planner) (clusterRanks : ID → Rank) (edge : ID → ID → Prop) (first : ID)
    (s : State) : Prop where
  core : Core edge first s
  stop : s.planner.stopPlanningNeeded = s.planner.received.isSome
  view : Replica.Lags (CoreMove planner clusterRanks edge first) (handleMessage clusterRanks)
    (Exact clusterRanks) s s.unhandled s.planner.transactionStates

theorem Core.announced (h : Core edge first s) {T c : ID} {phase : Phase}
    (htask : s.phase T c = some phase) : s.Announced T c := by
  refine ⟨(h.tasks.phase_key T c phase htask).1, fun c' hc' => ?_⟩
  simp [(h.tasks.futures_key T c' c hc').2.1] at htask

/-- A move keeps the view of the planner behind the messages, whatever is remembered of the moves. -/
theorem Core.view_move {step : State → State → Prop} (h : Core edge first s)
    (hview : Replica.Lags step (handleMessage clusterRanks) (Exact clusterRanks) s s.unhandled
      s.planner.transactionStates)
    (hstep : step s s') (hmove : Move planner clusterRanks edge first s s') :
    Replica.Lags step (handleMessage clusterRanks) (Exact clusterRanks) s' s'.unhandled
      s'.planner.transactionStates := by
  have hq := h.queues
  have ht := h.tasks
  have hpush : ∀ message, s'.unhandled = s.unhandled ++ [message] →
      s'.planner.transactionStates = s.planner.transactionStates →
      (∀ states, Exact clusterRanks s states →
        ∃ states', handleMessage clusterRanks states message = some states' ∧
          Exact clusterRanks s' states') →
      Replica.Lags step (handleMessage clusterRanks) (Exact clusterRanks) s' s'.unhandled
        s'.planner.transactionStates := by
    intro message hunhandled hstates hexact
    rw [hunhandled, hstates]
    exact hview.push hstep hexact
  have hpop : ∀ message, s.unhandled = message :: s'.unhandled →
      handleMessage clusterRanks s.planner.transactionStates message =
        some s'.planner.transactionStates →
      (∀ states, Exact clusterRanks s states → Exact clusterRanks s' states) →
      Replica.Lags step (handleMessage clusterRanks) (Exact clusterRanks) s' s'.unhandled
        s'.planner.transactionStates := by
    intro message hunhandled hhandled hexact
    rw [hunhandled] at hview
    obtain ⟨states, hstates, hrest⟩ := hview.pop
    obtain rfl := Option.some.inj (hhandled.symm.trans hstates)
    exact hrest.keep hstep hexact
  cases hmove
  case handleRegister T rest hfront =>
    apply hpush (.startTransaction T) (by simp [State.unhandled]) rfl
    exact fun states hexact => hexact.start h hfront rfl rfl rfl rfl rfl
  case handleExecute T rest hfront =>
    obtain ⟨-, hwaits, hle⟩ := hq.execute_waits T (by simp [hfront])
    apply hpush _ (by simp [State.unhandled]; rfl) rfl
    intro states hexact
    refine hexact.update hle (hq.execute_front hfront) rfl rfl ?_ ?_
    · intro T' hne
      refine ⟨?_, fun c => ?_, fun c => ?_⟩
      · simp [hne]
      · rfl
      · rfl
    · exact fun state hstate => hstate.execute hwaits (ht.phase_none_of_waits hwaits hle) rfl rfl rfl
  case finalize T rest hfront hrunning =>
    apply hpush (.finishTransaction T) (by simp [State.unhandled]) rfl
    have hT := hq.finalize_oldest h.offers hfront hrunning
    exact fun states hexact =>
      hexact.finish hT (hq.transactions T hrunning).2.1 rfl rfl rfl rfl rfl
  case announce T c htask =>
    have hT := hq.transactions T (ht.running htask (by simp))
    apply hpush _ (by simp [State.unhandled]; rfl) rfl
    intro states hexact
    refine hexact.update hT.1 hT.2.1 rfl rfl ?_ ?_
    · exact fun T' hne => same_of_setPhase rfl rfl rfl hne
    · exact fun state hstate => hstate.announce ht (h.announced htask) htask rfl rfl rfl
  case finish T c futures htask =>
    have hT := hq.transactions T (ht.running htask (by simp))
    apply hpush _ (by simp [State.unhandled]; rfl) rfl
    intro states hexact
    refine hexact.update hT.1 hT.2.1 rfl rfl ?_ ?_
    · exact fun T' hne => same_of_setPhase rfl rfl rfl hne
    · exact fun state hstate => hstate.finish ht htask rfl rfl rfl
  case receiveStart T rest hidle hfront =>
    apply hpop (.startTransaction T) (by simp [State.unhandled, hidle, hfront]) rfl
    exact fun states hexact => hexact.of_eq rfl rfl rfl rfl rfl
  case receive message rest hidle hfront hrefresh =>
    have hunhandled : s.unhandled = message :: rest := by simp [State.unhandled, hidle, hfront]
    rw [hunhandled] at hview
    exact hview.keep hstep fun states hexact => hexact.of_eq rfl rfl rfl rfl rfl
  case handle message states hreceived hended hhandled =>
    apply hpop message (by simp [State.unhandled, hreceived]) hhandled
    exact fun states hexact => hexact.of_eq rfl rfl rfl rfl rfl
  case register =>
    refine hview.keep hstep fun states hexact => hexact.of_congr rfl rfl fun T hle hlt => ?_
    have hne : T ≠ s.next := (lt_of_lt_of_le hlt hq.registered_le).ne
    refine ⟨.rfl, fun c _ => ?_, fun c => .rfl⟩
    simp [State.Waiting, State.Announced, State.futures, Function.update_of_ne hne]
  case send T targets hopen =>
    refine hview.keep hstep fun states hexact => hexact.of_congr rfl rfl fun T' hle hlt => ?_
    refine ⟨.rfl, fun c hT' => ?_, fun c => .rfl⟩
    have hne : T' ≠ T := fun heq => (hq.open_waits hopen).1 (heq ▸ hT')
    simp [State.Waiting, State.Announced, State.futures, Function.update_of_ne hne]
  case start T c rest hfront hrunning hfresh =>
    have hnone : s.phase T c = none := by
      have := ht.updatings T c
      grind
    refine hview.keep hstep fun states hexact => hexact.of_congr rfl rfl fun T' hle hlt => ?_
    refine ⟨.rfl, fun d _ => ?_, fun d => ?_⟩
    · simp only [State.Waiting, State.Announced, State.futures, setPhase]
      grind [Phase.futures]
    · simp only [running_iff, setPhase]
      grind
  case generate T c htask =>
    have hkey := (ht.phase_key T c _ htask).1
    refine hview.keep hstep fun states hexact => hexact.of_congr rfl rfl fun T' hle hlt => ?_
    refine ⟨.rfl, fun d _ => ?_, fun d => ?_⟩
    · simp only [State.Waiting, State.Announced, State.futures, setPhase, Function.update_apply]
      grind [Phase.futures]
    · simp only [running_iff, setPhase]
      grind
  case collect T c targets htask hedges =>
    have hkey := (ht.phase_key T c _ htask).1
    refine hview.keep hstep fun states hexact => hexact.of_congr rfl rfl fun T' hle hlt => ?_
    refine ⟨.rfl, fun d _ => ?_, fun d => ?_⟩
    · simp only [State.Waiting, State.Announced, State.futures, setPhase, Function.update_apply]
      grind [Phase.futures]
    · simp only [running_iff, setPhase]
      grind
  case buffer T c futures htask =>
    refine hview.keep hstep fun states hexact => hexact.of_congr rfl rfl fun T' hle hlt => ?_
    refine ⟨.rfl, fun d _ => ?_, fun d => ?_⟩
    · simp only [State.Waiting, State.Announced, State.futures, setPhase]
      grind [Phase.futures]
    · simp only [running_iff, setPhase]
      grind
  all_goals exact hview.keep hstep fun states hexact => hexact.of_eq rfl rfl rfl rfl rfl

namespace Inv

theorem of_past (h : Inv planner clusterRanks edge first s) {R : State → Prop}
    (hexact : ∀ past, Core edge first past →
      Exact clusterRanks past s.planner.transactionStates → R past)
    (hstable : ∀ s s', Core edge first s → Move planner clusterRanks edge first s s' → R s → R s') :
    R s := by
  obtain ⟨past, hpast, hview⟩ := h.view.past
  have hcore : Core edge first past := by
    rcases hpast.cases_head with rfl | ⟨_, hmove, _⟩
    · exact h.core
    · exact hmove.1
  exact Replica.stable_of_past (P := R) (fun _ _ hmove => hstable _ _ hmove.1 hmove.2) hpast
    (hexact past hcore hview)

theorem proposal (h : Inv planner clusterRanks edge first s) {message : ExecutorMessage}
    (hmessage : IsProposalOf s.planner.transactionStates message) : s.Proposal first message :=
  h.of_past (fun _ hcore hexact => hexact.proposal hcore hmessage)
    fun _ _ hcore hmove ht => hcore.proposal_move hmove ht

theorem offers_move (h : Inv planner clusterRanks edge first s)
    (hmove : Move planner clusterRanks edge first s s') : Offers first s' := by
  have ho := h.core.offers
  have hstart : ∀ T c, .startUpdateCluster T c ∈ s.executorMessages → s'.Offered T c :=
    fun T c hin => h.core.offered_move hmove (ho.start T c hin)
  have hfinalize : ∀ T, .finalizeTransaction T ∈ s.executorMessages → s'.Closed first T :=
    fun T hin => h.core.closed_move hmove (ho.finalize T hin)
  have hpushed : ∀ pass, s.planner.runningPlanner = some pass →
      ∀ message ∈ pass.pushes, s'.Proposal first message :=
    fun pass hpass message hin => h.core.proposal_move hmove (ho.pushed pass hpass message hin)
  have hmove' := hmove
  cases hmove
  case register | commit =>
    exact ⟨fun T c hin => hstart T c (by simpa using hin), fun T hin => hfinalize T (by simpa using hin),
      hpushed⟩
  case push pass message rest hrunning hfront =>
    have hmessage := hpushed pass hrunning message (by simp [hfront])
    refine ⟨fun T c hin => ?_, fun T hin => ?_, ?_⟩
    · rcases List.mem_append.mp hin with hin | hin
      · exact hstart T c hin
      · rw [← List.mem_singleton.mp hin] at hmessage
        exact hmessage
    · rcases List.mem_append.mp hin with hin | hin
      · exact hfinalize T hin
      · rw [← List.mem_singleton.mp hin] at hmessage
        exact hmessage
    · intro pass' hpass' message' hin
      obtain rfl := Option.some.inj hpass'
      exact hpushed pass hrunning message' (by simp [hfront, hin])
  case advance pass hrunning hfront =>
    refine ⟨hstart, hfinalize, fun pass' hnext message hin => ?_⟩
    exact h.core.proposal_move hmove' (h.proposal (isProposalOf_next hnext hin))
  case handle =>
    refine ⟨hstart, hfinalize, fun pass' hpass' message hin => ?_⟩
    obtain rfl := Option.some.inj hpass'
    simp [Pass.start] at hin
  case handleRegister hfront | handleExecute hfront =>
    exact ⟨fun T c hin => hstart T c (by simp [hfront, hin]),
      fun T hin => hfinalize T (by simp [hfront, hin]), hpushed⟩
  case skipStart hfront _ | start hfront _ _ | skipFinalize hfront _ | finalize hfront _ =>
    exact ⟨fun T c hin => hstart T c (by simp [hfront, hin]),
      fun T hin => hfinalize T (by simp [hfront, hin]), hpushed⟩
  all_goals exact ⟨hstart, hfinalize, hpushed⟩

theorem stop_move (h : Inv planner clusterRanks edge first s)
    (hmove : Move planner clusterRanks edge first s s') :
    s'.planner.stopPlanningNeeded = s'.planner.received.isSome := by
  cases hmove
  case receive => rfl
  case handle => rfl
  all_goals exact h.stop

theorem view_move (h : Inv planner clusterRanks edge first s)
    (hmove : Move planner clusterRanks edge first s s') :
    Replica.Lags (CoreMove planner clusterRanks edge first) (handleMessage clusterRanks)
      (Exact clusterRanks) s' s'.unhandled s'.planner.transactionStates :=
  h.core.view_move h.view ⟨h.core, hmove⟩ hmove

theorem move (h : Inv planner clusterRanks edge first s)
    (hmove : Move planner clusterRanks edge first s s') :
    Inv planner clusterRanks edge first s' where
  core :=
    { queues := h.core.queues.move h.core.offers hmove
      tasks := h.core.tasks.move h.core.queues h.core.offers hmove
      offers := h.offers_move hmove }
  stop := h.stop_move hmove
  view := h.view_move hmove

theorem init : Inv planner clusterRanks edge first (State.init first) where
  core :=
    { queues := by constructor <;> simp [State.init]
      tasks := by constructor <;> simp [State.init, State.futures]
      offers := by constructor <;> simp [State.init] }
  stop := rfl
  view := by
    refine ⟨?_, fun i state hstate => ?_⟩
    · simp [State.init]
    · simp [State.init] at hstate

end Inv

def Reachable (planner : Planner) (clusterRanks : ID → Rank) (edge : ID → ID → Prop) (first : ID)
    (s : State) : Prop :=
  Relation.ReflTransGen (Move planner clusterRanks edge first) (State.init first) s

theorem Reachable.inv (h : Reachable planner clusterRanks edge first s) :
    Inv planner clusterRanks edge first s := by
  induction h with
  | refl => exact Inv.init
  | tail _ hmove ih => exact ih.move hmove

theorem Reachable.frozen (h : Reachable planner clusterRanks edge first s) {T : ID}
    (hlt : T < s.oldest)
    (hlater : Relation.ReflTransGen (Move planner clusterRanks edge first) s s') :
    T < s'.oldest ∧ s'.keys T = s.keys T ∧ s'.phase T = s.phase T := by
  induction hlater with
  | refl => exact ⟨hlt, rfl, rfl⟩
  | tail hpast hmove ih =>
      obtain ⟨hlt', hkeys, hphase⟩ := ih
      have hcore := (Reachable.inv (h.trans hpast)).core
      obtain ⟨hlt'', hkeys', hphase'⟩ := hcore.frozen_move hmove hlt'
      exact ⟨hlt'', hkeys'.trans hkeys, hphase'.trans hphase⟩

end Prf.Protocol
