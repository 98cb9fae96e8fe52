import Prf.Proof.Scheduling

/-!
# Sequential mode

`simple_planner` looks at the oldest transaction only, and starts nothing while it sees something
run. It sees a task late, so several of its calls may propose while one is running; they all propose
the same cluster, since what waits does not change until the planner has heard of the task, and the
`Executor` takes the first of these proposals only.
-/

namespace Prf

namespace Protocol

variable {clusterRanks : ID → Rank} {edge : ID → ID → Prop} {first : ID} {s s' : State}
  {states : List TransactionState} {P : ID → Prop} {T c d : ID}

/-! ## The choice -/

def IsChoice (clusterRanks : ID → Rank) (P : ID → Prop) (c : ID) : Prop :=
  P c ∧ ∀ d, P d → (clusterRanks c).value < (clusterRanks d).value ∨
    (clusterRanks c).value = (clusterRanks d).value ∧ c ≤ d

theorem IsChoice.unique (hc : IsChoice clusterRanks P c) (hd : IsChoice clusterRanks P d) : c = d := by
  have hle := hc.2 d hd.1
  have hge := hd.2 c hc.1
  lia

theorem IsChoice.congr {Q : ID → Prop} (hPQ : ∀ d, Q d ↔ P d) (h : IsChoice clusterRanks P c) :
    IsChoice clusterRanks Q c :=
  ⟨(hPQ c).mpr h.1, fun d hd => h.2 d ((hPQ d).mp hd)⟩

theorem simplePlanner_start {state : TransactionState} {rest : List TransactionState}
    (hcounted : state.RanksCounted clusterRanks)
    (h : .startUpdateCluster T c ∈ simplePlanner clusterRanks (state :: rest)) :
    state.initialized = true ∧ T = state.transactionId ∧ state.now = ∅ ∧
      IsChoice clusterRanks (· ∈ state.future) c := by
  rw [simplePlanner] at h
  split at h
  · simp at h
  rename_i hinitialized
  split at h
  · simp at h
  split at h
  · rename_i hnow
    cases hhead : state.targetRanks.toList.head? with
    | none => simp [hhead] at h
    | some entry =>
        obtain ⟨rank, count⟩ := entry
        simp only [hhead, List.mem_map, Option.mem_toList,
          ExecutorMessage.startUpdateCluster.injEq] at h
        obtain ⟨d, hd, rfl, rfl⟩ := h
        obtain ⟨hrank, before, after, hsplit, hbefore⟩ := List.find?_eq_some_iff_append.mp hd
        have hmem : d ∈ state.future := by simpa using List.mem_of_find?_eq_some hd
        refine ⟨by simpa using hinitialized, rfl, hnow, hmem, fun e he => ?_⟩
        have hleast := (OrderedMap.head?_toList_eq_some hhead).2 (clusterRanks e).value
          ((hcounted.mem_iff _).mpr ⟨e, Finset.mem_union_left _ he, rfl⟩)
        have hrank' : (clusterRanks d).value = rank := by simpa using hrank
        rcases hleast.lt_or_eq with hlt | heq
        · exact .inl (hrank' ▸ hlt)
        · refine .inr ⟨hrank'.trans heq, ?_⟩
          -- the clusters of that rank are gone through in ascending order
          have hsorted := ascending_pairwise state.future
          have hin : e ∈ before ++ d :: after := hsplit ▸ mem_ascending.mpr he
          rw [hsplit, List.pairwise_append, List.pairwise_cons] at hsorted
          rcases List.mem_append.mp hin with hin | hin
          · exact absurd heq.symm (by simpa using hbefore e hin)
          · rcases List.mem_cons.mp hin with rfl | hin
            · exact le_rfl
            · exact (hsorted.2.1.1 e hin).le
  · simp at h

/-! ## The invariant -/

/-- The `Executor` has accepted the task, and it has not pushed its last message. -/
def State.InFlight (s : State) (T c : ID) : Prop :=
  s.phase T c ≠ none ∧ s.phase T c ≠ some .finished

/-- The `Executor` will skip the proposal, or it is the one that may be acted on now. -/
def State.Chosen (clusterRanks : ID → Rank) (s : State) (T c : ID) : Prop :=
  T < s.oldest ∨ s.phase T c ≠ none ∨
    T = s.oldest ∧ T ∈ s.transactions ∧ (∀ d, ¬ s.Running T d) ∧
      IsChoice clusterRanks (s.Waiting T) c

structure Sequential (clusterRanks : ID → Rank) (s : State) : Prop where
  task_le : ∀ T c, s.phase T c ≠ none → T ≤ s.oldest
  unique : ∀ T c d, s.InFlight T c → s.InFlight T d → c = d
  queued : ∀ T c, s.phase T c = some .queued → IsChoice clusterRanks (s.Waiting T) c
  start : ∀ T c, .startUpdateCluster T c ∈ s.proposals → s.Chosen clusterRanks T c

theorem Exact.chosen (h : Exact clusterRanks s states)
    (hin : .startUpdateCluster T c ∈ simplePlanner clusterRanks states) :
    s.Chosen clusterRanks T c := by
  cases states with
  | nil => simp [simplePlanner] at hin
  | cons state rest =>
      have hdescribes := h.2 0 state rfl
      obtain ⟨hinitialized, rfl, hnow, hchoice⟩ := simplePlanner_start hdescribes.counted hin
      have hT := hdescribes.initialized.mp hinitialized
      rw [hdescribes.transactionId]
      refine .inr (.inr ⟨rfl, hT, fun d hrunning => ?_, hchoice.congr fun d => ?_⟩)
      · have hin := (hdescribes.now d).mpr hrunning
        simp [hnow] at hin
      · exact ((hdescribes.future d).trans (and_iff_right hT)).symm

theorem Core.inFlight_oldest (h : Core edge first s) (hs : Sequential clusterRanks s)
    (hflight : s.InFlight T c) : T = s.oldest ∧ T ∈ s.transactions := by
  obtain ⟨phase, htask⟩ := Option.ne_none_iff_exists'.mp hflight.1
  have hT : T ∈ s.transactions :=
    h.tasks.running htask fun heq => hflight.2 (by rw [htask, heq])
  exact ⟨le_antisymm (hs.task_le T c hflight.1) (h.queues.transactions T hT).1, hT⟩

theorem phase_move {planner : Planner} (hmove : Move planner clusterRanks edge first s s') :
    s'.phase = s.phase ∨
      (∃ T c rest, s.executorMessages = .startUpdateCluster T c :: rest ∧ T ∈ s.transactions ∧
        c ∉ s.updatings T ∧ s'.keys = s.keys ∧ s'.phase = setPhase s.phase T c .queued) ∨
      ∃ T c phase next, s.phase T c = some phase ∧ phase ≠ .finished ∧ next ≠ .queued ∧
        s'.phase = setPhase s.phase T c next := by
  cases hmove
  case start T c rest hfront hrunning hfresh =>
    exact .inr (.inl ⟨T, c, rest, hfront, hrunning, hfresh, rfl, rfl⟩)
  case announce T c htask | generate T c htask | collect T c _ htask _ | buffer T c _ htask |
      finish T c _ htask =>
    exact .inr (.inr ⟨T, c, _, _, htask, by simp, by simp, rfl⟩)
  all_goals exact .inl rfl

theorem State.InFlight.of_phase {phase : Phase} (htask : s.phase T c = some phase)
    (hphase : phase ≠ .finished) : s.InFlight T c := by
  simp [State.InFlight, htask, hphase]

theorem started_move {planner : Planner} (hmove : Move planner clusterRanks edge first s s')
    (hstarted : s.phase T c ≠ none) : s'.phase T c ≠ none := by
  obtain heq | ⟨T', c', _, _, _, _, _, heq⟩ | ⟨T', c', _, _, _, _, _, heq⟩ := phase_move hmove
  · rwa [heq]
  all_goals
    rw [heq, setPhase]
    split
    · simp
    · exact hstarted

theorem Sequential.start_front (h : Sequential clusterRanks s) (hc : Core edge first s)
    {rest : List ExecutorMessage} (hfront : s.executorMessages = .startUpdateCluster T c :: rest)
    (hrunning : T ∈ s.transactions) (hfresh : c ∉ s.updatings T) :
    T = s.oldest ∧ s.phase T c = none ∧ IsChoice clusterRanks (s.Waiting T) c ∧
      ∀ d, ¬ s.InFlight T d := by
  have hnone : s.phase T c = none := by
    have := hc.tasks.updatings T c
    grind
  have hchosen := h.start T c (by simp [State.proposals, hfront])
  rcases hchosen with hlt | hphase | ⟨hT, -, hidle, hchoice⟩
  · exact absurd hlt (not_lt.mpr (hc.queues.transactions T hrunning).1)
  · exact absurd hnone hphase
  · refine ⟨hT, hnone, hchoice, fun d hflight => ?_⟩
    by_cases hqueued : s.phase T d = some .queued
    · obtain rfl := hchoice.unique (h.queued T d hqueued)
      simp [hnone] at hqueued
    · exact hidle d (running_iff.mpr ⟨hflight.1, hqueued, hflight.2⟩)

theorem Core.waiting_move (h : Core edge first s)
    (hmove : Move .simple clusterRanks edge first s s') (hT : T ∈ s.transactions)
    (hidle : ∀ d, ¬ s.Running T d) (hphase : s'.phase T = s.phase T) (d : ID) :
    s'.Waiting T d ↔ s.Waiting T d := by
  suffices hkeys : s'.keys T = s.keys T by
    simp only [State.Waiting, State.Announced, State.futures, hphase, hkeys]
  cases hmove
  case register =>
    have hlt := (h.queues.transactions T hT).2.1.trans_le h.queues.registered_le
    exact Function.update_of_ne hlt.ne _ _
  case send T' targets hopen =>
    refine Function.update_of_ne ?_ _ _
    rintro rfl
    exact (h.queues.open_waits hopen).1 hT
  case generate T' c' htask | collect T' c' _ htask _ =>
    refine Function.update_of_ne ?_ _ _
    rintro rfl
    exact hidle c' ⟨_, htask, rfl⟩
  all_goals rfl

theorem Sequential.chosen_move (h : Sequential clusterRanks s) (hc : Core edge first s)
    (hmove : Move .simple clusterRanks edge first s s') (hchosen : s.Chosen clusterRanks T c) :
    s'.Chosen clusterRanks T c := by
  rcases hchosen with hlt | hphase | ⟨hT, hrunning, hidle, hchoice⟩
  · exact .inl (hc.frozen_move hmove hlt).1
  · exact .inr (.inl (started_move hmove hphase))
  have hkeep : s'.phase T = s.phase T → s'.oldest = s.oldest → T ∈ s'.transactions →
      s'.Chosen clusterRanks T c := by
    intro hphase holdest hrunning'
    refine .inr (.inr ⟨hT.trans holdest.symm, hrunning', fun d => ?_, ?_⟩)
    · simpa only [State.Running, hphase] using hidle d
    · exact hchoice.congr (hc.waiting_move hmove hrunning hidle hphase)
  have hbusy : ∀ {T' c' phase}, s.phase T' c' = some phase → phase.isRunning = true → False := by
    intro T' c' phase htask hphase
    have hflight : s.InFlight T' c' := .of_phase htask (by rintro rfl; cases hphase)
    obtain rfl : T' = T := (hc.inFlight_oldest h hflight).1.trans hT.symm
    exact hidle c' ⟨phase, htask, hphase⟩
  have hmove' := hmove
  cases hmove
  case finalize => exact .inl (hT ▸ Nat.lt_succ_self _)
  case start T' c' rest hfront hrun hfresh =>
    obtain ⟨hT', -, hchoice', -⟩ := h.start_front hc hfront hrun hfresh
    obtain rfl : T' = T := hT'.trans hT.symm
    obtain rfl := hchoice.unique hchoice'
    exact .inr (.inl (by simp [setPhase]))
  case announce T' c' htask =>
    obtain rfl : T' = T := (hc.inFlight_oldest h (.of_phase htask (by simp))).1.trans hT.symm
    obtain rfl := hchoice.unique (h.queued T' c' htask)
    exact .inr (.inl (by simp [setPhase]))
  case generate htask | collect htask _ | buffer htask | finish htask => exact (hbusy htask rfl).elim
  case handleExecute => exact hkeep rfl rfl (Finset.mem_insert_of_mem hrunning)
  all_goals exact hkeep rfl rfl hrunning

def SequentialMove (clusterRanks : ID → Rank) (edge : ID → ID → Prop) (first : ID)
    (s s' : State) : Prop :=
  Core edge first s ∧ Sequential clusterRanks s ∧ Move .simple clusterRanks edge first s s'

def State.SequentialView (clusterRanks : ID → Rank) (edge : ID → ID → Prop) (first : ID)
    (s : State) : Prop :=
  Replica.Lags (SequentialMove clusterRanks edge first) (handleMessage clusterRanks)
    (Exact clusterRanks) s s.unhandled s.planner.transactionStates

/-- A proposal of a planner that sees the past is chosen in the present. -/
theorem State.SequentialView.chosen_next (h : s.SequentialView clusterRanks edge first) {pass pass' : Pass}
    (hnext : pass.next .simple clusterRanks s.planner.transactionStates
      s.planner.stopPlanningNeeded = some pass')
    (hin : .startUpdateCluster T c ∈ pass'.pushes) : s.Chosen clusterRanks T c := by
  obtain ⟨-, rfl⟩ := Pass.next_simple hnext
  obtain ⟨past, hpast, hexact⟩ := h.past
  exact Replica.stable_of_past (P := fun s => s.Chosen clusterRanks T c)
    (fun _ _ hstep hchosen => hstep.2.1.chosen_move hstep.1 hstep.2.2 hchosen) hpast
    (hexact.chosen hin)

theorem oldest_le_move {planner : Planner} (hmove : Move planner clusterRanks edge first s s') :
    s.oldest ≤ s'.oldest := by
  cases hmove
  case finalize => exact Nat.le_succ _
  all_goals exact le_rfl

theorem Sequential.task_le_move (h : Sequential clusterRanks s) (hc : Core edge first s)
    (hmove : Move .simple clusterRanks edge first s s') (T c : ID) (hphase : s'.phase T c ≠ none) :
    T ≤ s'.oldest := by
  refine le_trans ?_ (oldest_le_move hmove)
  obtain heq | ⟨T', c', rest, hfront, hrunning, hfresh, -, heq⟩ | ⟨T', c', phase, _, htask, _, _, heq⟩ :=
    phase_move hmove
  · exact h.task_le T c (heq ▸ hphase)
  · by_cases hsame : T = T' ∧ c = c'
    · exact hsame.1 ▸ (h.start_front hc hfront hrunning hfresh).1.le
    · rw [heq, setPhase, if_neg hsame] at hphase
      exact h.task_le T c hphase
  · by_cases hsame : T = T' ∧ c = c'
    · obtain ⟨rfl, rfl⟩ := hsame
      exact h.task_le T c (by simp [htask])
    · rw [heq, setPhase, if_neg hsame] at hphase
      exact h.task_le T c hphase

theorem Sequential.unique_move (h : Sequential clusterRanks s) (hc : Core edge first s)
    (hmove : Move .simple clusterRanks edge first s s') (T c d : ID) (hflight : s'.InFlight T c)
    (hflight' : s'.InFlight T d) : c = d := by
  obtain heq | ⟨T', e, rest, hfront, hrunning, hfresh, -, heq⟩ | ⟨T', e, phase, _, htask, hphase, _, heq⟩ :=
    phase_move hmove
  · simp only [State.InFlight, heq] at hflight hflight'
    exact h.unique T c d hflight hflight'
  · obtain ⟨hT', -, -, hidle⟩ := h.start_front hc hfront hrunning hfresh
    have honly : ∀ c, s'.InFlight T c → c = e := by
      intro c hflight
      by_contra hne
      rw [State.InFlight, heq, setPhase_of_ne _ _ fun _ => hne] at hflight
      obtain rfl : T = T' := (hc.inFlight_oldest h hflight).1.trans hT'.symm
      exact hidle c hflight
    exact (honly c hflight).trans (honly d hflight').symm
  · have hbefore : ∀ c, s'.InFlight T c → s.InFlight T c := by
      intro c hflight
      by_cases hsame : T = T' ∧ c = e
      · obtain ⟨rfl, rfl⟩ := hsame
        exact .of_phase htask hphase
      · rwa [State.InFlight, heq, setPhase, if_neg hsame] at hflight
    exact h.unique T c d (hbefore c hflight) (hbefore d hflight')

theorem Sequential.queued_move (h : Sequential clusterRanks s) (hc : Core edge first s)
    (hmove : Move .simple clusterRanks edge first s s') (T c : ID)
    (hqueued : s'.phase T c = some .queued) : IsChoice clusterRanks (s'.Waiting T) c := by
  obtain heq | ⟨T', c', rest, hfront, hrunning, hfresh, hkeys, heq⟩ |
    ⟨T', c', phase, next, htask, hphase, hnext, heq⟩ := phase_move hmove
  · rw [heq] at hqueued
    have hflight : s.InFlight T c := .of_phase hqueued (by simp)
    have hidle : ∀ d, ¬ s.Running T d := by
      intro d hrun
      obtain ⟨hsome, hnot, hunfinished⟩ := running_iff.mp hrun
      obtain rfl := h.unique T c d hflight ⟨hsome, hunfinished⟩
      exact hnot hqueued
    exact (h.queued T c hqueued).congr
      (hc.waiting_move hmove (hc.inFlight_oldest h hflight).2 hidle (congrFun heq T))
  · obtain ⟨hT', hnone, hchoice, hidle⟩ := h.start_front hc hfront hrunning hfresh
    by_cases hsame : T = T' ∧ c = c'
    · obtain ⟨rfl, rfl⟩ := hsame
      refine hchoice.congr fun d => ?_
      simp only [State.Waiting, State.Announced, State.futures, hkeys, heq, setPhase]
      grind [Phase.futures]
    · rw [heq, setPhase, if_neg hsame] at hqueued
      have hflight : s.InFlight T c := .of_phase hqueued (by simp)
      obtain rfl : T = T' := (hc.inFlight_oldest h hflight).1.trans hT'.symm
      exact (hidle c hflight).elim
  · by_cases hsame : T = T' ∧ c = c'
    · rw [heq, setPhase, if_pos hsame] at hqueued
      exact absurd (Option.some.inj hqueued) hnext
    · rw [heq, setPhase, if_neg hsame] at hqueued
      have hflight : s.InFlight T c := .of_phase hqueued (by simp)
      have hflight' : s.InFlight T' c' := .of_phase htask hphase
      obtain rfl : T = T' :=
        (hc.inFlight_oldest h hflight).1.trans (hc.inFlight_oldest h hflight').1.symm
      exact absurd ⟨rfl, h.unique T c c' hflight hflight'⟩ hsame

theorem Sequential.move (h : Sequential clusterRanks s) (hc : Core edge first s)
    (hview : s.SequentialView clusterRanks edge first)
    (hmove : Move .simple clusterRanks edge first s s') : Sequential clusterRanks s' where
  task_le := h.task_le_move hc hmove
  unique := h.unique_move hc hmove
  queued := h.queued_move hc hmove
  start := by
    intro T c hin
    rcases start_proposals_move hmove hin with hold | ⟨pass, pass', -, -, hnext, hpushed⟩
    · exact h.chosen_move hc hmove (h.start T c hold)
    · exact h.chosen_move hc hmove (hview.chosen_next hnext hpushed)

theorem Reachable.sequential (h : Reachable .simple clusterRanks edge first s) :
    Sequential clusterRanks s := by
  suffices Sequential clusterRanks s ∧ s.SequentialView clusterRanks edge first from this.1
  induction h with
  | refl =>
      refine ⟨⟨?_, ?_, ?_, ?_⟩, ⟨?_, fun i state hstate => ?_⟩⟩
      · simp [State.init]
      · simp [State.init, State.InFlight]
      · simp [State.init]
      · simp [State.init, State.proposals]
      · simp [State.init]
      · simp [State.init] at hstate
  | tail hreach hmove ih =>
      have hcore := (Reachable.inv hreach).core
      exact ⟨ih.1.move hcore ih.2 hmove, hcore.view_move ih.2 ⟨hcore, ih.1, hmove⟩ hmove⟩

end Protocol

/-! ## The composed system -/

namespace State

variable {ι V : Type} [DecidableEq ι] {G : Graph ι V} {first : ID} {s : State ι V}
  {actions : List (Action ι V)}

/-- Sequential mode is serial: at most one task is accepted and has not pushed its last message, and
the tasks of a transaction are accepted once all older transactions are finalised. -/
theorem simple_serial (hrun : run G .simple (State.init G first) actions = some s) :
    (∀ (i j : ℕ) (task task' : Task ι V), s.tasks[i]? = some task → s.tasks[j]? = some task' →
      task.phase ≠ .finished → task'.phase ≠ .finished → i = j) ∧
      ∀ task ∈ s.tasks, ∀ T, first ≤ T → T < task.transactionId → T ∈ s.finalized := by
  obtain ⟨registered, oldest, hsim⟩ := simulated_of_run hrun
  have hsequential := Protocol.Reachable.sequential hsim.reachable
  have hnodup := hsim.wellFormed.tasks_nodup
  have hphase : ∀ task ∈ s.tasks, (s.abstract registered oldest).phase task.transactionId
      task.clusterId = some task.phase.abstract := by
    intro task htask
    simp [abstract, phaseOf_of_mem hnodup htask]
  refine ⟨fun i j task task' hi hj hrunning hrunning' => ?_, fun task htask T hfirst hlt => ?_⟩
  · have hflight : ∀ {task : Task ι V}, task ∈ s.tasks → task.phase ≠ .finished →
        (s.abstract registered oldest).InFlight task.transactionId task.clusterId := by
      intro task htask hrunning
      refine .of_phase (hphase task htask) fun hfinished => hrunning ?_
      cases hcase : task.phase <;> simp [hcase, TaskPhase.abstract] at hfinished
      rfl
    have hflight₁ := hflight (List.mem_of_getElem? hi) hrunning
    have hflight₂ := hflight (List.mem_of_getElem? hj) hrunning'
    have hT : task.transactionId = task'.transactionId :=
      (hsim.inv.core.inFlight_oldest hsequential hflight₁).1.trans
        (hsim.inv.core.inFlight_oldest hsequential hflight₂).1.symm
    have hc := hsequential.unique _ _ _ hflight₁ (hT ▸ hflight₂)
    have hlt := (List.getElem?_eq_some_iff.mp hi).1
    refine (List.getElem?_inj (by simpa using hlt) hnodup).mp ?_
    simp [hi, hj, Task.key, hT, hc]
  · have hle := hsequential.task_le _ _ (by rw [hphase task htask]; simp)
    exact hsim.mem_finalized.mpr ⟨hfirst, hlt.trans_le hle⟩

/-- `sinkMapHold` in sequential mode, when the cluster of the `hold` is about to be updated. -/
def sinkMapHoldSimple : State (Fin 3) ℕ :=
  (run sinkMapHold .simple (State.init sinkMapHold 0)
    (played sinkMapHold .simple twoSends 50)).getD (State.init sinkMapHold 0)

theorem simple_serial_sinkMapHold :
    sinkMapHoldSimple.tasks.length = 2 ∧
      (∀ (i j : ℕ) (task task' : Task (Fin 3) ℕ), sinkMapHoldSimple.tasks[i]? = some task →
        sinkMapHoldSimple.tasks[j]? = some task' → task.phase ≠ .finished →
        task'.phase ≠ .finished → i = j) ∧
      ∀ task ∈ sinkMapHoldSimple.tasks, ∀ T, 0 ≤ T → T < task.transactionId →
        T ∈ sinkMapHoldSimple.finalized := by
  have hrun : run sinkMapHold .simple (State.init sinkMapHold 0)
      (played sinkMapHold .simple twoSends 50) = some sinkMapHoldSimple := by
    obtain ⟨s, hs⟩ := Option.isSome_iff_exists.mp (show (run sinkMapHold .simple
      (State.init sinkMapHold 0) (played sinkMapHold .simple twoSends 50)).isSome by decide +kernel)
    rw [sinkMapHoldSimple, hs, Option.getD_some]
  exact ⟨by decide +kernel, simple_serial hrun⟩

end State

end Prf
