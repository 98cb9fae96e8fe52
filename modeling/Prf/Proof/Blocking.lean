import Prf.Proof.Scheduling
import Prf.Proof.Sessions

/-!
# Who waits for whom

Whatever the user threads do through `Transaction` and `JoinHandler` is a run of the composed system
in which every open transaction belongs to one thread. A program that keeps no handlers cannot run
ahead of the updates, and none of its threads is stuck as long as handlers stay on their threads.
-/

namespace Prf

open State

variable {θ ι V : Type} [DecidableEq ι] {G : Graph ι V} {planner : Planner} {first : ID}

/-! ## Runs of the composed system -/

namespace State

variable {s s' : State ι V}

theorem exists_action_of_step (h : Step G planner s s') :
    ∃ action, step G planner s action = some s' := by
  cases h
  case register => exact ⟨.register, rfl⟩
  case afterBuildHook hfront hopen => exact ⟨.afterBuildHook, by simp [step, hfront, hopen]⟩
  case send T x value hopen huser hsink =>
    exact ⟨.send T x value, by simp [step, hopen, huser, hsink]⟩
  case commit T hopen hbuilt => exact ⟨.commit T, if_pos ⟨hopen, hbuilt⟩⟩
  case handleRegister hfront | handleExecute hfront =>
    exact ⟨.executor, by simp [step, hfront, handleExecutorMessage]⟩
  case skipStart hfront hskipped =>
    refine ⟨.executor, ?_⟩
    rcases hskipped with hended | hstarted
    · simp [step, hfront, handleExecutorMessage, hended]
    · simp [step, hfront, handleExecutorMessage, hstarted]
  case start hfront hrunning hfresh =>
    exact ⟨.executor, by simp [step, hfront, handleExecutorMessage, hrunning, hfresh]⟩
  case skipFinalize hfront hskipped =>
    exact ⟨.executor, by simp [step, hfront, handleExecutorMessage, hskipped]⟩
  case finalize hfront hrunning hfinalized =>
    exact ⟨.executor, by simp [step, hfront, handleExecutorMessage, hrunning, hfinalized]⟩
  case announce i T c hi | generate i T c hi | buffer i T c futures hooks hi
      | finish i T c futures hi =>
    exact ⟨.task i, by simp [step, hi, runTask, setPhase, pushPlanner]⟩
  case update i T c sub sub' r x rest store hi hfront hupdate =>
    exact ⟨.task i, by simp [step, hi, runTask, hfront, hupdate, setPhase]⟩
  case collect i T c sub hi hfront =>
    exact ⟨.task i, by simp [step, hi, runTask, hfront, setPhase]⟩
  case receiveStart hidle hfront =>
    exact ⟨.plannerReceive, by simp [step, hidle, hfront, receivePlannerMessage,
      PlannerMessage.needRefresh, handleMessage]⟩
  case receive hidle hfront hrefresh =>
    exact ⟨.plannerReceive, by simp [step, hidle, hfront, receivePlannerMessage, hrefresh]⟩
  case handle hreceived hended hhandled =>
    exact ⟨.plannerHandle, by simp [step, hreceived, hended, handlePlannerMessage, hhandled]⟩
  case push hrunning hfront | advance hrunning hfront =>
    exact ⟨.plannerPass, by simp [step, hrunning, runPlanner, hfront]⟩

theorem exists_run_of_steps (h : Relation.ReflTransGen (Step G planner) s s') :
    ∃ actions, run G planner s actions = some s' := by
  induction h using Relation.ReflTransGen.head_induction_on with
  | refl => exact ⟨[], rfl⟩
  | head hstep _ ih =>
      obtain ⟨action, haction⟩ := exists_action_of_step hstep
      obtain ⟨actions, hactions⟩ := ih
      exact ⟨action :: actions, by rw [run, haction]; exact hactions⟩

end State

namespace Session

/-! ## A session

The user threads do what is fixed, each time until none of the threads of the program can move. -/

/-- The steps of a session in which the user threads take the given steps one list after the other,
each followed by at most `fuel` moves of the threads of the program. -/
def played [DecidableEq θ] (G : Graph ι V) (planner : Planner) (fuel : ℕ) :
    List (List (UserAction θ ι V)) → Session θ ι V → List (UserAction θ ι V)
  | [], _ => []
  | users :: rest, s =>
      match run G planner s users with
      | none => users
      | some s =>
          let moves := (State.turns G planner fuel s.state).map UserAction.internal
          users ++ moves ++ (run G planner s moves).elim [] (played G planner fuel rest)

/-- A sink and a `hold` of it, each in a cluster of its own. -/
def sinkHold : Graph Bool ℕ :=
  Graph.ofProgram [false, true] (fun x => bif x then .hold 0 false else .streamSink) Bool.toNat
    Bool.toNat (fun _ => .zero) Rank.ofNat Bool.toNat (by decide) (by decide) (by decide) (by decide)

/-- A thread builds the program and begins a transaction; the other one sends in a later transaction
and waits for it. -/
def twoThreads : List (UserAction Bool Bool ℕ) :=
  played sinkHold .rankBased 100
    [[.build false, .afterBuildHook false, .endBuild false],
      [.wake false, .construct false, .construct true, .send true false 7, .destruct true 0]]
    (init sinkHold 0)

/-- The end of that session. -/
def atTwoThreads : Session Bool Bool ℕ :=
  (run sinkHold .rankBased (init sinkHold 0) twoThreads).getD (init sinkHold 0)

theorem run_twoThreads :
    run sinkHold .rankBased (init sinkHold 0) twoThreads = some atTwoThreads := by
  have hsome : (run sinkHold .rankBased (init sinkHold 0) twoThreads).isSome := by
    decide +kernel
  obtain ⟨s, hs⟩ := Option.isSome_iff_exists.mp hsome
  rw [atTwoThreads, hs, Option.getD_some]

variable {s : Session θ ι V}

/-! ## Owners -/

theorem Inv.committed_of_done (h : Inv planner G first s) {T : ID} (hT : T ∈ s.alreadyDone) :
    T ∈ s.state.committed := by
  obtain ⟨registered, hsim⟩ := h.reached.simulated
  obtain ⟨hfirst, hlt⟩ := hsim.mem_finalized.mp ((h.alreadyDone T).mp hT)
  exact hsim.inv.core.queues.finalized T hfirst hlt

theorem Inv.le_of_committed (h : Inv planner G first s) {T : ID} (hT : T ∈ s.state.committed) :
    first ≤ T := by
  obtain ⟨registered, hsim⟩ := h.reached.simulated
  exact (hsim.inv.core.queues.committed T hT).1

theorem Inv.lt_of_committed (h : Inv planner G first s) {T : ID} (hT : T ∈ s.state.committed) :
    T < s.state.nextTransactionId := by
  obtain ⟨registered, hsim⟩ := h.reached.simulated
  exact (hsim.inv.core.queues.committed T hT).2.1

/-- An open transaction is the current transaction of a thread that has not committed it. -/
theorem Inv.exists_owner (h : Inv planner G first s) {T : ID} (hopen : s.state.IsOpen T) :
    ∃ t, (s.thread t).currentTransaction = some T := by
  obtain ⟨t, hwatches⟩ := h.watched T (h.fresh.1 ▸ hopen.1) hopen.2.1
    fun hdone => hopen.2.2 (h.committed_of_done hdone)
  refine ⟨t, hwatches.resolve_right fun hhandler => ?_⟩
  exact hopen.2.2 ((h.thread t).handlers T hhandler)

variable [DecidableEq θ]

/-- What the user threads do through the objects of the library is a run of the composed system, and
every open transaction belongs to exactly one thread, which has not committed it. -/
theorem owns {actions : List (UserAction θ ι V)}
    (hrun : run G planner (init G first) actions = some s) :
    (∃ actions', State.run G planner (State.init G first) actions' = some s.state) ∧
      ∀ T, s.state.IsOpen T → ∃! t, (s.thread t).currentTransaction = some T := by
  have hinv := inv_of_run Inv.init hrun
  refine ⟨exists_run_of_steps hinv.reached, fun T hopen => ?_⟩
  obtain ⟨t, ht⟩ := hinv.exists_owner hopen
  exact ⟨t, ht, fun u hu => hinv.distinct u t T hu ht⟩

theorem owns_twoThreads :
    (∃ actions, State.run sinkHold .rankBased (State.init sinkHold 0) actions =
        some atTwoThreads.state) ∧
      ∀ T, atTwoThreads.state.IsOpen T →
        ∃! t, (atTwoThreads.thread t).currentTransaction = some T :=
  owns run_twoThreads

/-! ## Waits -/

/-- The handlers of a thread are older than its current transaction, also the one it waits for. -/
structure Older (u : UserThread ι V) : Prop where
  lt : ∀ T T', u.currentTransaction = some T → some T' ∈ u.handlers → T' < T
  joins : ∀ T, u.point = .joins T → some T ∈ u.handlers

omit [DecidableEq ι] [DecidableEq θ] in
theorem Older.mono {u u' : UserThread ι V} (h : Older u)
    (hcurrent : ∀ T, u'.currentTransaction = some T → u.currentTransaction = some T)
    (hhandlers : ∀ T, some T ∈ u'.handlers → some T ∈ u.handlers)
    (hjoins : ∀ T, u'.point ≠ .joins T) : Older u' :=
  ⟨fun T T' hT hT' => h.lt T T' (hcurrent T hT) (hhandlers T' hT'),
    fun T hT => absurd hT (hjoins T)⟩

omit [DecidableEq ι] in
theorem older_update (h : ∀ t, Older (s.thread t)) {t : θ} {u : UserThread ι V} (hu : Older u)
    (t' : θ) : Older (Function.update s.thread t u t') := by
  rw [Function.update_apply]
  split
  · exact hu
  · exact h t'

omit [DecidableEq ι] in
/-- `~Transaction` up to its wait keeps the handlers. -/
theorem older_destruct (h : ∀ t, Older (s.thread t)) {t : θ} {index : ℕ} {s' : Session θ ι V}
    (hpoint : ∀ T, (s.thread t).point ≠ .joins T) (hstep : s.destruct t index = some s') :
    ∀ t, Older (s'.thread t) := by
  simp only [Session.destruct] at hstep
  split at hstep
  · cases hstep
  · obtain rfl := Option.some.inj hstep
    exact older_update h ((h t).mono (fun _ hT => hT) (fun _ hT => hT) hpoint)
  · obtain rfl := Option.some.inj hstep
    exact older_update h ((h t).mono (fun _ hT => hT) (fun _ hT => hT) (by simp))

theorem older_stepFree (hinv : Inv planner G first s) (h : ∀ t, Older (s.thread t)) {t : θ}
    {action : UserAction θ ι V} {s' : Session θ ι V} (hactor : action.actor = some t)
    (hfree : (s.thread t).point = .free) (hlocal : action.isLocal) (hstep : s.stepFree G action = some s') : ∀ t, Older (s'.thread t) := by
  have hbegins : ∀ {u : UserThread ι V}, u.currentTransaction = some s.state.nextTransactionId →
      u.handlers = (s.thread t).handlers → (∀ T, u.point ≠ .joins T) → Older u := by
    refine fun hT hhandlers hpoint => ⟨fun T T' hT' hin => ?_, fun T heq => absurd heq (hpoint T)⟩
    obtain rfl := Option.some.inj (hT.symm.trans hT')
    exact hinv.lt_of_committed ((hinv.thread t).handlers T' (hhandlers ▸ hin))
  have hsame : ∀ {u : UserThread ι V}, u.currentTransaction = (s.thread t).currentTransaction →
      (∀ T, some T ∈ u.handlers → some T ∈ (s.thread t).handlers) → (∀ T, u.point ≠ .joins T) →
      Older u :=
    fun hT hhandlers hpoint => (h t).mono (fun T hT' => hT ▸ hT') hhandlers hpoint
  cases action with
  | afterBuildHook | endBuild | sendInside | endSend | wake | internal => cases hactor
  | build t =>
      obtain rfl := Option.some.inj hactor
      rw [Session.stepFree, Option.ite_none_right_eq_some] at hstep
      obtain rfl := Option.some.inj hstep.2
      exact older_update h (hbegins rfl rfl (by simp))
  | construct t =>
      obtain rfl := Option.some.inj hactor
      rw [Session.stepFree, Option.ite_none_right_eq_some] at hstep
      obtain ⟨-, hstep⟩ := hstep
      split at hstep
      · obtain rfl := Option.some.inj hstep
        exact older_update h (hbegins rfl rfl (by simp))
      · obtain rfl := Option.some.inj hstep
        exact older_update h (hsame rfl (fun _ hT => hT) (by simp [hfree]))
  | send t x value =>
      obtain rfl := Option.some.inj hactor
      rw [Session.stepFree, Option.ite_none_right_eq_some] at hstep
      obtain ⟨-, hstep⟩ := hstep
      split at hstep
      · obtain rfl := Option.some.inj hstep
        exact older_update h (hbegins rfl rfl (by simp))
      · obtain rfl := Option.some.inj hstep
        exact older_update h (hsame rfl (fun _ hT => hT) (by simp))
  | destruct t index =>
      obtain rfl := Option.some.inj hactor
      exact older_destruct h (by simp [hfree]) hstep
  | getJoinHandler t index =>
      obtain rfl := Option.some.inj hactor
      simp only [Session.stepFree] at hstep
      split at hstep
      · obtain rfl := Option.some.inj hstep
        refine older_update h ⟨fun T T' hT _ => ?_, fun T hT => ?_⟩
        · simp [UserThread.handedOver] at hT
        · simp [UserThread.handedOver, hfree] at hT
      · cases hstep
  | join t index =>
      obtain rfl := Option.some.inj hactor
      simp only [Session.stepFree] at hstep
      split at hstep
      · cases hstep
      · obtain rfl := Option.some.inj hstep
        exact h
      · rename_i T hindex
        obtain rfl := Option.some.inj hstep
        refine older_update h ⟨(h t).lt, fun T' hT' => ?_⟩
        obtain rfl := UserPoint.joins.inj hT'
        exact List.mem_of_getElem? hindex
  | drop t index =>
      obtain rfl := Option.some.inj hactor
      simp only [Session.stepFree] at hstep
      split at hstep
      · cases hstep
      · obtain rfl := Option.some.inj hstep
        exact older_update h (hsame rfl (fun T hT => List.mem_of_mem_eraseIdx hT) (by simp [hfree]))
      · obtain rfl := Option.some.inj hstep
        exact older_update h (hsame rfl (fun _ hT => hT) (by simp))
  | move t index u =>
      obtain rfl := Option.some.inj hactor
      obtain rfl : t = u := by simpa [UserAction.isLocal] using hlocal
      simp only [Session.stepFree] at hstep
      split at hstep
      · cases hstep
      · rename_i message hindex
        obtain rfl := Option.some.inj hstep
        simp only [Session.setThread, Function.update_self, Function.update_idem]
        refine older_update h (hsame rfl (fun T hT => ?_) (by simp [hfree]))
        rcases List.mem_append.mp hT with hin | hin
        · exact (List.mem_or_eq_of_mem_set hin).resolve_right (by simp)
        · exact List.mem_of_getElem? (List.mem_singleton.mp hin ▸ hindex)

theorem older_step (hinv : Inv planner G first s) (h : ∀ t, Older (s.thread t))
    {action : UserAction θ ι V} {s' : Session θ ι V}
    (hlocal : action.isLocal)
    (hstep : Session.step G planner s action = some s') : ∀ t, Older (s'.thread t) := by
  have hmono : ∀ {t : θ} {point : UserPoint ι V}, (∀ T, point ≠ .joins T) →
      Older { s.thread t with point := point } :=
    fun hpoint => (h _).mono (fun _ hT => hT) (fun _ hT => hT) hpoint
  rw [Session.step.eq_def] at hstep
  split at hstep
  · rw [Option.ite_none_right_eq_some] at hstep
    obtain ⟨state, -, rfl⟩ := Option.map_eq_some_iff.mp hstep.2
    exact h
  split at hstep
  · rename_i t hactor
    rw [Option.ite_none_right_eq_some] at hstep
    exact older_stepFree hinv h hactor (UserPoint.eq_free hstep.1) hlocal hstep.2
  cases action with
  | build | construct | send | destruct | getJoinHandler | join | drop | move | internal => cases hstep
  | afterBuildHook t =>
      simp only [Session.stepInside] at hstep
      split at hstep
      · obtain rfl := Option.some.inj hstep
        exact h
      · cases hstep
  | endBuild t | sendInside t =>
      simp only [Session.stepInside] at hstep
      split at hstep
      · obtain rfl := Option.some.inj hstep
        exact older_update h (hmono (by simp))
      · cases hstep
  | endSend t =>
      simp only [Session.stepInside] at hstep
      split at hstep
      · rename_i hpoint
        exact older_destruct h (by simp [hpoint]) hstep
      · cases hstep
  | wake t =>
      simp only [Session.stepInside] at hstep
      split at hstep
      · rename_i T hawaits
        rw [Option.ite_none_right_eq_some] at hstep
        obtain rfl := Option.some.inj hstep.2
        have hfree := UserThread.woken_point (u := s.thread t) (by simp [hawaits])
        exact older_update h ((h t).mono (fun T => UserThread.woken_currentTransaction)
          (fun T => UserThread.mem_handlers_of_woken) (by simp [hfree]))
      · cases hstep

theorem older_of_run (hinv : Inv planner G first s) (h : ∀ t, Older (s.thread t))
    {actions : List (UserAction θ ι V)} {s' : Session θ ι V}
    (hlocal : ∀ action ∈ actions, action.isLocal)
    (hrun : run G planner s actions = some s') : ∀ t, Older (s'.thread t) := by
  induction actions generalizing s with
  | nil =>
      obtain rfl := Option.some.inj hrun
      exact h
  | cons action actions ih =>
      rw [run, Option.bind_eq_some_iff] at hrun
      obtain ⟨s₁, hs₁, hrest⟩ := hrun
      obtain ⟨haction, hlocal⟩ := List.forall_mem_cons.mp hlocal
      exact ih (hinv.step hs₁) (older_step hinv h haction hs₁) hlocal hrest

/-- If no handler leaves its thread, then at rest a thread that waits for a transaction waits for
another thread that holds one and is not waiting itself. -/
theorem not_deadlocked {actions : List (UserAction θ ι V)}
    (hlocal : ∀ action ∈ actions, action.isLocal)
    (hrun : run G planner (init G first) actions = some s) (hrest : AtRest G planner s.state)
    {t : θ} (hblocked : s.Blocked t) :
    ∃ u T, (s.thread u).currentTransaction = some T ∧ s.state.IsOpen T ∧ ¬ s.Blocked u := by
  have hinv := inv_of_run Inv.init hrun
  have holder := older_of_run Inv.init (fun t => ⟨by simp [init], by simp [init]⟩) hlocal hrun
  obtain ⟨T, hawaits, hdone⟩ := hblocked
  -- The oldest transaction that has not been committed.
  have hexists : ∃ T₀, first ≤ T₀ ∧ T₀ ∉ s.state.committed := ⟨_, hinv.fresh.2⟩
  classical
  obtain ⟨hfirst, hcommitted⟩ := Nat.find_spec hexists
  set T₀ := Nat.find hexists
  have hdone_of_lt : ∀ {T'}, first ≤ T' → T' < T₀ → T' ∈ s.alreadyDone := by
    intro T' hle hlt
    rw [hinv.alreadyDone, hinv.reached.mem_finalized_of_atRest hrest hle]
    intro T'' hle' hlt'
    by_contra hnot
    exact Nat.find_min hexists (lt_of_le_of_lt hlt' hlt) ⟨hle', hnot⟩
  have hin := (hinv.thread t).awaits T hawaits
  have hle : T₀ ≤ T := not_lt.mp fun hlt => hdone (hdone_of_lt (hinv.le_of_committed hin) hlt)
  have hopen : s.state.IsOpen T₀ :=
    ⟨hinv.fresh.1 ▸ hfirst, lt_of_le_of_lt hle (hinv.lt_of_committed hin), hcommitted⟩
  obtain ⟨u, hu⟩ := hinv.exists_owner hopen
  refine ⟨u, T₀, hu, hopen, ?_⟩
  rintro ⟨T', hawaits', hdone'⟩
  have hin' := (hinv.thread u).awaits T' hawaits'
  have hne : T' ≠ T₀ := by
    rintro rfl
    exact hcommitted hin'
  have hnot : some T' ∉ (s.thread u).handlers := by
    intro hhandler
    have hlt := (holder u).lt T₀ T' hu hhandler
    exact hdone' (hdone_of_lt (hinv.le_of_committed hin') hlt)
  cases hpoint : (s.thread u).point with
  | free | invokesHooks | sends | sent => simp [hpoint, UserPoint.awaits] at hawaits'
  | initializes T'' =>
      obtain rfl : T'' = T' := by simpa [hpoint, UserPoint.awaits] using hawaits'
      have hT'' := ((hinv.thread u).initializes T'' hpoint).1
      exact hne (Option.some.inj (hT''.symm.trans hu))
  | destructs index T'' =>
      obtain rfl : T'' = T' := by simpa [hpoint, UserPoint.awaits] using hawaits'
      have hindex := (hinv.thread u).destructs index T'' hpoint
      have hT'' := (hinv.thread u).objects T'' (List.mem_of_getElem? hindex)
      exact hne (Option.some.inj (hT''.symm.trans hu))
  | joins T'' =>
      obtain rfl : T'' = T' := by simpa [hpoint, UserPoint.awaits] using hawaits'
      exact hnot ((holder u).joins T'' hpoint)
  | drops index T'' =>
      obtain rfl : T'' = T' := by simpa [hpoint, UserPoint.awaits] using hawaits'
      exact hnot (List.mem_of_getElem? ((hinv.thread u).drops index T'' hpoint))

/-- One thread waits for a transaction that comes after the one the other thread holds. -/
theorem not_deadlocked_twoThreads :
    ∃ u T, (atTwoThreads.thread u).currentTransaction = some T ∧ atTwoThreads.state.IsOpen T ∧
      ¬ atTwoThreads.Blocked u :=
  not_deadlocked (t := true) (by decide +kernel) run_twoThreads
    (State.atRest_of_internalActions (by decide +kernel)) ⟨2, by decide +kernel, by decide +kernel⟩

/-- A thread joins the transaction that comes after the one it holds itself. -/
def movedHandler : List (UserAction Bool Bool ℕ) :=
  played sinkHold .rankBased 100
    [[.build false, .afterBuildHook false, .endBuild false],
      [.wake false, .construct false, .construct true, .send true false 7, .getJoinHandler true 0,
        .move true 0 false, .join false 0]]
    (init sinkHold 0)

def atMovedHandler : Session Bool Bool ℕ :=
  (run sinkHold .rankBased (init sinkHold 0) movedHandler).getD (init sinkHold 0)

theorem deadlocked_movedHandler :
    run sinkHold .rankBased (init sinkHold 0) movedHandler = some atMovedHandler ∧
      AtRest sinkHold .rankBased atMovedHandler.state ∧ atMovedHandler.Blocked false ∧
      ∀ u T, (atMovedHandler.thread u).currentTransaction = some T → atMovedHandler.Blocked u := by
  have hblocked : atMovedHandler.Blocked false := ⟨2, by decide +kernel, by decide +kernel⟩
  refine ⟨?_, State.atRest_of_internalActions (by decide +kernel), hblocked, fun u T hT => ?_⟩
  · have hsome : (run sinkHold .rankBased (init sinkHold 0) movedHandler).isSome := by
      decide +kernel
    obtain ⟨s, hs⟩ := Option.isSome_iff_exists.mp hsome
    rw [atMovedHandler, hs, Option.getD_some]
  · cases u with
    | false => exact hblocked
    | true =>
        have hnone : (atMovedHandler.thread true).currentTransaction = none := by decide +kernel
        simp [hnone] at hT

/-! ## Backpressure -/

/-- The transactions that wait for their turn or are being executed are no more than the threads and
the handlers they keep. -/
theorem card_unfinished_le [Fintype θ] {actions : List (UserAction θ ι V)}
    (hrun : run G planner (init G first) actions = some s) :
    {T ∈ Finset.Ico first s.state.nextTransactionId | T ∉ s.state.finalized}.card ≤
      Fintype.card θ + ∑ t, (s.thread t).handlers.countP Option.isSome := by
  have hinv := inv_of_run Inv.init hrun
  classical
  let kept : θ → Finset ID := fun t =>
    (s.thread t).currentTransaction.toFinset ∪ (s.thread t).handlers.reduceOption.toFinset
  have hkept : ∀ t, (kept t).card ≤ 1 + (s.thread t).handlers.countP Option.isSome := by
    intro t
    refine (Finset.card_union_le _ _).trans (Nat.add_le_add ?_ ?_)
    · cases (s.thread t).currentTransaction <;> simp
    · refine (List.toFinset_card_le _).trans ?_
      rw [List.reduceOption_length_eq, List.countP_eq_length_filter]
  calc {T ∈ Finset.Ico first s.state.nextTransactionId | T ∉ s.state.finalized}.card
      ≤ (Finset.univ.biUnion kept).card := by
        refine Finset.card_le_card fun T hT => ?_
        simp only [Finset.mem_filter, Finset.mem_Ico] at hT
        obtain ⟨⟨hle, hlt⟩, hunfinished⟩ := hT
        obtain ⟨t, hwatches⟩ := hinv.watched T hle hlt fun hdone =>
          hunfinished ((hinv.alreadyDone T).mp hdone)
        refine Finset.mem_biUnion.mpr ⟨t, Finset.mem_univ t, Finset.mem_union.mpr ?_⟩
        rcases hwatches with hT | hT
        · exact .inl (by simp [hT])
        · exact .inr (by simpa [List.reduceOption_mem_iff] using hT)
    _ ≤ ∑ t, (kept t).card := Finset.card_biUnion_le
    _ ≤ ∑ t, (1 + (s.thread t).handlers.countP Option.isSome) := Finset.sum_le_sum fun t _ => hkept t
    _ = Fintype.card θ + ∑ t, (s.thread t).handlers.countP Option.isSome := by
        rw [Finset.sum_add_distrib, Finset.sum_const, Finset.card_univ, smul_eq_mul, mul_one]

theorem card_unfinished_le_twoThreads :
    {T ∈ Finset.Ico 0 atTwoThreads.state.nextTransactionId |
        T ∉ atTwoThreads.state.finalized}.card ≤
      Fintype.card Bool + ∑ t, (atTwoThreads.thread t).handlers.countP Option.isSome :=
  card_unfinished_le run_twoThreads

end Session

end Prf
