import Prf.Library.Termination
import Prf.Proof.Requests
import Prf.Proof.Rounds

/-!
# The threads of the program come to rest

As long as the user threads do nothing, every move of the protocol brings the program closer to a
state in which nothing moves. What goes down is, in this order: the work on the transactions, the
messages to the planner, the rounds of the running pass, and the proposals on their way. An `update`
of a value is not noticed by the protocol; it goes down in the multiset order of the pending values.
-/

namespace Prf.Protocol

variable {planner : Planner} {clusterRanks : ID → Rank} {edge : ID → ID → Prop} {first : ID}
  {s s' : State} {K : Finset ID}

/-! ## The measure -/

/-- The moves a task has still to make. A target whose task has not been started has all of them to
make. -/
def movesLeft : Option Phase → ℕ
  | none => 6
  | some .queued => 5
  | some .announced => 4
  | some .executing => 3
  | some (.registered _) => 2
  | some (.buffered _) => 1
  | some .finished => 0

def isRequest : ExecutorMessage → Bool
  | .registerTransaction _ => true
  | .transactionExecute _ => true
  | _ => false

namespace State

def work (K : Finset ID) (s : State) : ℕ :=
  s.executorMessages.countP isRequest + (s.next - s.oldest) +
    ∑ task ∈ Finset.Ico s.oldest s.next ×ˢ K, movesLeft (s.phase task.1 task.2)

def unread (s : State) : ℕ :=
  2 * s.plannerMessages.length + s.planner.received.toList.length

/-- The rounds before the running planner returns. -/
def rounds (s : State) : ℕ :=
  s.planner.runningPlanner.elim 0 fun pass =>
    max 1 s.planner.transactionStates.length - pass.index + 1

def mail (s : State) : ℕ :=
  2 * (s.planner.runningPlanner.elim [] Pass.pushes).length + s.executorMessages.length

/-- How far the program is from a state in which nothing moves. -/
def measure (K : Finset ID) (s : State) : ℕ ×ₗ ℕ ×ₗ ℕ ×ₗ ℕ :=
  toLex (s.work K, toLex (s.unread, toLex (s.rounds, s.mail)))

theorem measure_lt_of_work (h : s'.work K < s.work K) : s'.measure K < s.measure K :=
  Prod.Lex.toLex_lt_toLex.mpr (.inl h)

theorem measure_lt_of_unread (hwork : s'.work K = s.work K) (h : s'.unread < s.unread) :
    s'.measure K < s.measure K :=
  Prod.Lex.toLex_lt_toLex.mpr (.inr ⟨hwork, Prod.Lex.toLex_lt_toLex.mpr (.inl h)⟩)

theorem measure_lt_of_rounds (hwork : s'.work K = s.work K) (hunread : s'.unread = s.unread)
    (h : s'.rounds < s.rounds) : s'.measure K < s.measure K :=
  Prod.Lex.toLex_lt_toLex.mpr (.inr ⟨hwork, Prod.Lex.toLex_lt_toLex.mpr
    (.inr ⟨hunread, Prod.Lex.toLex_lt_toLex.mpr (.inl h)⟩)⟩)

theorem measure_lt_of_mail (hwork : s'.work K = s.work K) (hunread : s'.unread = s.unread)
    (hrounds : s'.rounds = s.rounds) (h : s'.mail < s.mail) : s'.measure K < s.measure K :=
  Prod.Lex.toLex_lt_toLex.mpr (.inr ⟨hwork, Prod.Lex.toLex_lt_toLex.mpr
    (.inr ⟨hunread, Prod.Lex.toLex_lt_toLex.mpr (.inr ⟨hrounds, h⟩)⟩)⟩)

theorem work_setPhase_lt {T c : ID} {phase : Phase} (hT : T ∈ Finset.Ico s.oldest s.next)
    (hc : c ∈ K) (hless : movesLeft (some phase) < movesLeft (s.phase T c))
    (hmessages : s'.executorMessages.countP isRequest = s.executorMessages.countP isRequest)
    (holdest : s'.oldest = s.oldest) (hnext : s'.next = s.next)
    (hphase : s'.phase = setPhase s.phase T c phase) : s'.work K < s.work K := by
  rw [work, work, hmessages, holdest, hnext, hphase]
  refine Nat.add_lt_add_left ?_ _
  refine Finset.sum_lt_sum (fun task _ => ?_) ⟨(T, c), by simpa using ⟨by simpa using hT, hc⟩, ?_⟩
  · rw [setPhase]
    split
    · rename_i heq
      rw [heq.1, heq.2]
      exact hless.le
    · exact le_rfl
  · simpa [setPhase] using hless

end State

/-! ## Every move goes down -/

structure TargetsIn (K : Finset ID) (edge : ID → ID → Prop) (s : State) : Prop where
  keys : ∀ T, s.oldest ≤ T → T < s.next → s.keys T ⊆ K
  edges : ∀ c d, edge c d → d ∈ K

structure UsersIdle (s s' : State) : Prop where
  next : s'.next = s.next
  committed : s'.committed = s.committed
  keys : ∀ T, T ∉ s.committed → s'.keys T = s.keys T

namespace TargetsIn

theorem task (h : TargetsIn K edge s) (hc : Core edge first s) {T c : ID} {phase : Phase}
    (htask : s.phase T c = some phase) (hphase : phase ≠ .finished) :
    T ∈ Finset.Ico s.oldest s.next ∧ c ∈ K := by
  have hrunning := hc.tasks.running htask hphase
  obtain ⟨hle, hlt, -⟩ := hc.queues.transactions T hrunning
  have hnext := lt_of_lt_of_le hlt hc.queues.registered_le
  exact ⟨Finset.mem_Ico.mpr ⟨hle, hnext⟩, h.keys T hle hnext (hc.tasks.phase_key T c _ htask).1⟩

theorem move (h : TargetsIn K edge s) (hc : Core edge first s)
    (hmove : Move planner clusterRanks edge first s s') (hidle : UsersIdle s s') :
    TargetsIn K edge s' := by
  refine ⟨fun T hle hlt => ?_, h.edges⟩
  have hkeys := h.keys T
  cases hmove
  case register => exact absurd hidle.next (Nat.succ_ne_self _)
  case send T' targets hopen =>
    have hsame := hidle.keys T' hopen.2.2
    simp only [Function.update_self] at hsame
    simp only [hsame, Function.update_eq_self]
    exact hkeys hle hlt
  case finalize => exact hkeys (Nat.le_of_succ_le hle) hlt
  case generate T' c htask =>
    have hc := (h.task hc htask (by simp)).2
    simp only [Function.update_apply]
    split
    · rename_i heq
      exact Finset.insert_subset hc (heq ▸ hkeys hle hlt)
    · exact hkeys hle hlt
  case collect T' c targets htask hedges =>
    simp only [Function.update_apply]
    split
    · rename_i heq
      exact Finset.union_subset (heq ▸ hkeys hle hlt) fun d hd => h.edges c d (hedges d hd)
    · exact hkeys hle hlt
  all_goals exact hkeys hle hlt

end TargetsIn

theorem rounds_next {pass : Pass} {states : List TransactionState} {stop : Bool} :
    (pass.next planner clusterRanks states stop).elim 0
        (fun pass => max 1 states.length - pass.index + 1) <
      max 1 states.length - pass.index + 1 := by
  cases hnext : pass.next planner clusterRanks states stop with
  | none => exact Nat.succ_pos _
  | some pass' =>
      cases planner with
      | simple =>
          obtain ⟨hzero, rfl⟩ := Pass.next_simple hnext
          simp only [Option.elim_some, hzero]
          lia
      | rankBased =>
          obtain ⟨state, hstate, -, -, rfl⟩ := Pass.next_rankBased hnext
          have hlt := (List.getElem?_eq_some_iff.mp hstate).1
          simp only [Option.elim_some]
          lia

/-- A move goes down as long as the user threads do nothing, or it changes nothing. -/
theorem Core.measure_lt (hc : Core edge first s) (hin : TargetsIn K edge s)
    (hmove : Move planner clusterRanks edge first s s') (hidle : UsersIdle s s') :
    s'.measure K < s.measure K ∨ s' = s := by
  have hrunning := @TargetsIn.task edge first s K hin hc
  cases hmove
  case register => exact absurd hidle.next (Nat.succ_ne_self _)
  case send T targets hopen =>
    have hsame := hidle.keys T hopen.2.2
    simp only [Function.update_self] at hsame
    right
    rw [hsame, Function.update_eq_self]
  case commit T hopen =>
    exact absurd (hidle.committed ▸ Finset.mem_insert_self T s.committed) hopen.2.2
  case handleRegister hfront | handleExecute hfront =>
    left
    apply State.measure_lt_of_work
    simp only [State.work, hfront]
    rw [List.countP_cons_of_pos (by rfl)]
    lia
  case start T c rest hfront hrunning' hfresh =>
    left
    have hkey := (hc.offers.start T c (by simp [hfront])).2.1
    obtain ⟨hle, hlt, -⟩ := hc.queues.transactions T hrunning'
    have hnext := lt_of_lt_of_le hlt hc.queues.registered_le
    have hnone : s.phase T c = none := by
      have hupdatings := hc.tasks.updatings T c
      tauto
    refine State.measure_lt_of_work (State.work_setPhase_lt (Finset.mem_Ico.mpr ⟨hle, hnext⟩)
      (hin.keys T hle hnext hkey) ?_ ?_ rfl rfl rfl)
    · rw [hnone]
      decide
    · rw [hfront, List.countP_cons_of_neg (by simp [isRequest])]
  case finalize T rest hfront hrunning' =>
    left
    have hT := hc.queues.finalize_oldest hc.offers hfront hrunning'
    obtain ⟨-, hlt, -⟩ := hc.queues.transactions T hrunning'
    have hnext := lt_of_lt_of_le hlt hc.queues.registered_le
    apply State.measure_lt_of_work
    have hsum : ∑ task ∈ Finset.Ico (s.oldest + 1) s.next ×ˢ K, movesLeft (s.phase task.1 task.2) ≤
        ∑ task ∈ Finset.Ico s.oldest s.next ×ˢ K, movesLeft (s.phase task.1 task.2) :=
      Finset.sum_le_sum_of_subset (Finset.product_subset_product_left
        (Finset.Ico_subset_Ico_left (Nat.le_succ _)))
    simp only [State.work, hfront]
    rw [List.countP_cons_of_neg (by simp [isRequest])]
    lia
  case announce T c htask | generate T c htask | collect T c targets htask hedges
      | buffer T c futures htask | finish T c futures htask =>
    left
    obtain ⟨hT, hc⟩ := hrunning htask (by simp)
    refine State.measure_lt_of_work (State.work_setPhase_lt hT hc ?_ rfl rfl rfl rfl)
    rw [htask]
    simp [movesLeft]
  case receiveStart T rest hidle' hfront =>
    left
    refine State.measure_lt_of_unread rfl ?_
    simp only [State.unread, hfront, List.length_cons]
    lia
  case receive message rest hidle' hfront hrefresh =>
    left
    refine State.measure_lt_of_unread rfl ?_
    simp only [State.unread, hfront, hidle', List.length_cons, Option.toList_some, Option.toList_none]
    lia
  case handle message states hreceived hended hhandled =>
    left
    refine State.measure_lt_of_unread rfl ?_
    simp [State.unread, hreceived]
  case advance pass hrunning' hfront =>
    left
    refine State.measure_lt_of_rounds rfl rfl ?_
    simp only [State.rounds, hrunning', Option.elim_some]
    exact rounds_next
  case push pass message rest hrunning' hfront =>
    left
    have hmessage := hc.offers.front_proposal hrunning' hfront
    refine State.measure_lt_of_mail ?_ rfl ?_ ?_
    · simp only [State.work, List.countP_append]
      rw [List.countP_singleton, if_neg]
      · rfl
      · cases message <;> simp_all [State.Proposal, isRequest]
    · simp only [State.rounds, hrunning', Option.elim_some]
    · simp only [State.mail, hrunning', hfront, Option.elim_some, List.length_append,
        List.length_cons, List.length_nil]
      lia
  case skipStart hfront _ | skipFinalize hfront _ =>
    left
    refine State.measure_lt_of_mail ?_ rfl rfl ?_
    · simp only [State.work, hfront]
      rw [List.countP_cons_of_neg (by simp [isRequest])]
    · simp only [State.mail, hfront, List.length_cons]
      lia

end Prf.Protocol

namespace Prf

open Relation

variable {ι V : Type}

/-! ## The composed system -/

def Event.isTopSend : Event ι V → Bool
  | topSend _ _ _ => true
  | _ => false

def TaskPhase.pending : TaskPhase ι V → Multiset ι
  | executing sub => sub.targetsInsideCurrentCluster.val
  | _ => 0

theorem sum_map_eraseIdx {α M : Type*} [AddCommMonoid M] (f : α → M) {l : List α} {i : ℕ} {a : α}
    (hi : l[i]? = some a) : (l.map f).sum = ((l.eraseIdx i).map f).sum + f a := by
  obtain ⟨hlt, rfl⟩ := List.getElem?_eq_some_iff.mp hi
  have hperm := (List.getElem_cons_eraseIdx_perm hlt).map f
  rw [← hperm.sum_eq, List.map_cons, List.sum_cons, add_comm]

theorem sum_map_set {α M : Type*} [AddCommMonoid M] (f : α → M) {l : List α} {i : ℕ} {a : α}
    (hi : l[i]? = some a) (a' : α) :
    ((l.set i a').map f).sum = ((l.eraseIdx i).map f).sum + f a' := by
  obtain ⟨hlt, -⟩ := List.getElem?_eq_some_iff.mp hi
  have hperm := (List.set_perm_cons_eraseIdx hlt a').map f
  rw [hperm.sum_eq, List.map_cons, List.sum_cons, add_comm]

theorem Graph.wellFounded_feeds_clusters {G : Graph ι V} (hacyclic : ∀ c, G.ListensAcyclic c) :
    WellFounded fun y x => ∃ c, G.Feeds c x y := by
  have hacc : ∀ c x, G.clusterId x = c → Acc (fun y x => ∃ c, G.Feeds c x y) x := by
    intro c x
    induction x using (Graph.wellFounded_feeds (hacyclic c)).induction with
    | _ x ih =>
        rintro rfl
        refine ⟨x, ?_⟩
        rintro y ⟨c, hfeeds⟩
        obtain rfl := hfeeds.2.1
        exact ih y hfeeds hfeeds.2.2.1
  exact ⟨fun x => hacc _ x rfl⟩

namespace State

def usersPart (s : State ι V) : ID × Finset ID × List (ι × V) × ℕ :=
  (s.nextTransactionId, s.committed, s.afterBuildHooks, s.trace.countP Event.isTopSend)

def pending (s : State ι V) : Multiset ι :=
  (s.tasks.map fun task => task.phase.pending).sum

variable [DecidableEq ι] {G : Graph ι V} {planner : Planner} {s s' : State ι V}

theorem usersPart_handleExecutorMessage {message : ExecutorMessage}
    (h : s.handleExecutorMessage G message = some s') : s'.usersPart = s.usersPart := by
  cases message with
  | transactionExecute T | registerTransaction T =>
      obtain rfl := Option.some.inj h
      rfl
  | startUpdateCluster T c =>
      simp only [handleExecutorMessage] at h
      split at h
      · obtain rfl := Option.some.inj h
        rfl
      · split at h
        all_goals
          obtain rfl := Option.some.inj h
          rfl
  | finalizeTransaction T =>
      simp only [handleExecutorMessage] at h
      split at h
      · obtain rfl := Option.some.inj h
        rfl
      · split at h
        · cases h
        · rename_i store deliveries _
          obtain rfl := Option.some.inj h
          have hquiet : (deliveries.map (Event.deliver T)).countP Event.isTopSend = 0 := by
            simp [List.countP_eq_zero, Event.isTopSend]
          simp only [usersPart, List.countP_append, hquiet]
          rfl

theorem usersPart_runTask {i : ℕ} {task : Task ι V} (h : s.runTask G i task = some s') :
    s'.usersPart = s.usersPart := by
  obtain ⟨T, c, phase⟩ := task
  cases phase with
  | executing sub =>
      simp only [runTask] at h
      split at h
      · obtain rfl := Option.some.inj h
        rfl
      · rename_i r x rest hexec
        split at h
        · cases h
        · obtain rfl := Option.some.inj h
          have hquiet : (updateEvents G s.store T x).countP Event.isTopSend = 0 := by
            rw [List.countP_eq_zero]
            intro event hevent
            obtain rfl | ⟨value, rfl⟩ := mem_updateEvents hevent <;> simp [Event.isTopSend]
          simp only [usersPart, setPhase, List.countP_append, hquiet]
          rfl
  | finished => simp [runTask] at h
  | queued | announced | registered | buffered =>
      obtain rfl := Option.some.inj h
      rfl

theorem usersPart_of_internal {action : Action ι V} (h : step G planner s action = some s')
    (hinternal : action.isInternal) : s'.usersPart = s.usersPart := by
  cases action with
  | register | afterBuildHook | send | commit => cases hinternal
  | executor =>
      simp only [step] at h
      split at h
      · cases h
      · have hsame := usersPart_handleExecutorMessage h
        exact hsame
  | task i =>
      simp only [step] at h
      split at h
      · cases h
      · exact usersPart_runTask h
  | plannerReceive =>
      simp only [step] at h
      split at h
      · rw [receivePlannerMessage] at h
        split at h
        · obtain rfl := Option.some.inj h
          rfl
        · obtain ⟨states, -, rfl⟩ := Option.map_eq_some_iff.mp h
          rfl
      · cases h
  | plannerHandle =>
      simp only [step] at h
      split at h
      · obtain ⟨states, -, rfl⟩ := Option.map_eq_some_iff.mp h
        rfl
      · cases h
  | plannerPass =>
      simp only [step] at h
      split at h
      · cases h
      · obtain rfl := Option.some.inj h
        rw [runPlanner]
        split <;> rfl

theorem Updates.cutExpand (hwf : WellFormed G s) {T : ID} {x : ι} (h : Updates G s s' T x) :
    CutExpand (fun y x => ∃ c, G.Feeds c x y) s'.pending s.pending := by
  obtain ⟨i, c, sub, sub', r, rest, store, hi, hfront, hupdate, rfl⟩ := h
  have hsub := hwf.sub T c sub (phaseOf_of_getElem? hwf.tasks_nodup hi)
  obtain ⟨sent, hround⟩ : ∃ sent, G.UpdateRound x sent sub sub' := by
    rw [Graph.update_eq_updateBy 0] at hupdate
    cases hupdated : Graph.updateBy G.updaters 0 x s.store (sub.pop x rest) with
    | error e => simp [hupdated, Except.map] at hupdate
    | ok result =>
        obtain ⟨sent, store', sub''⟩ := result
        simp only [hupdated, Except.map, Except.ok.injEq, Prod.mk.injEq] at hupdate
        obtain ⟨rfl, rfl⟩ := hupdate
        exact ⟨sent, Graph.updateRound_of_updateBy hsub.wellQueued hfront hupdated⟩
  have hbefore := sum_map_eraseIdx (fun task : Task ι V => task.phase.pending) hi
  have hafter := sum_map_set (fun task : Task ι V => task.phase.pending) hi ⟨T, c, .executing sub'⟩
  rw [pending, pending, hbefore, hafter, cutExpand_add_left]
  obtain ⟨out, x', hless, hval⟩ := hround.cutExpand hsub.wellQueued hsub.updatingCluster
  exact ⟨out, x', fun y hy => ⟨c, hless y hy⟩, hval⟩

variable {first : ID} {registered oldest : ID} {K : Finset ID}

/-- A step of the threads of the program is noticed by the protocol, or it is an update. -/
theorem Simulated.internal_cases (hsim : Simulated planner G first s registered oldest)
    (hstep : Step G planner s s') (husers : s'.usersPart = s.usersPart) (registered' oldest' : ID) :
    Protocol.UsersIdle (s.abstract registered oldest) (s'.abstract registered' oldest') ∧
      (s'.abstract registered' oldest' ≠ s.abstract registered oldest ∨
        ∃ T x, Updates G s s' T x) := by
  simp only [usersPart, Prod.mk.injEq] at husers
  obtain ⟨hnext, hcommitted, hhooks, htrace⟩ := husers
  have hidle : (∀ T, T ∉ s.committed → s'.inner T = s.inner T) →
      Protocol.UsersIdle (s.abstract registered oldest) (s'.abstract registered' oldest') :=
    fun hinner => ⟨hnext, hcommitted, fun T hT => by simp only [abstract, hinner T hT]⟩
  have htask : ∀ {i T c phase phase'}, s.tasks[i]? = some ⟨T, c, phase⟩ →
      s'.tasks = s.tasks.set i ⟨T, c, phase'⟩ → phase'.abstract ≠ phase.abstract →
      s'.abstract registered' oldest' ≠ s.abstract registered oldest := by
    intro i T c phase phase' hi htasks hne heq
    have hafter := congrArg (fun a => a.phase T c) heq
    have hbefore : (s.abstract registered oldest).phase T c = some phase.abstract :=
      abstract_phase hsim.wellFormed hi
    simp only [hbefore] at hafter
    simp only [abstract, phaseOf_of_set hsim.wellFormed hi htasks, and_self, if_true, Option.map_some,
      Option.some.injEq] at hafter
    exact hne hafter
  have hother : ∀ {i : ℕ} {T c T' : ID} {phase : TaskPhase ι V}, s.tasks[i]? = some ⟨T, c, phase⟩ →
      T' ∉ s.committed → T' ≠ T := by
    rintro i T c T' phase hi hT' rfl
    exact hT' (hsim.inv.core.tasks.phase_key _ c _ (abstract_phase hsim.wellFormed hi)).2.1
  cases hstep
  case register => exact absurd hnext (Nat.succ_ne_self _)
  case afterBuildHook hfront hopen => simp [hfront] at hhooks
  case send => simp [topSend, Event.isTopSend] at htrace
  case commit T hopen hbuilt =>
    exact absurd (hcommitted ▸ Finset.mem_insert_self T s.committed) hopen.2.2
  case update hi hfront hupdate =>
    exact ⟨hidle fun _ _ => rfl, .inr ⟨_, _, _, _, _, _, _, _, _, hi, hfront, hupdate, rfl⟩⟩
  case generate i T c hi =>
    exact ⟨hidle fun T' hT' => Function.update_of_ne (hother hi hT') _ _,
      .inl (htask hi rfl (by simp [TaskPhase.abstract]))⟩
  case collect i T c sub hi hfront =>
    exact ⟨hidle fun T' hT' => Function.update_of_ne (hother hi hT') _ _,
      .inl (htask hi rfl (by simp [TaskPhase.abstract]))⟩
  case buffer hi | announce hi | finish hi =>
    exact ⟨hidle fun _ _ => rfl, .inl (htask hi rfl (by simp [TaskPhase.abstract]))⟩
  case handleRegister hfront | handleExecute hfront | skipStart hfront _ | start hfront _ _ |
      skipFinalize hfront _ | finalize hfront _ _ =>
    refine ⟨hidle fun _ _ => rfl, .inl fun heq => ?_⟩
    have := congrArg Protocol.State.executorMessages heq
    simp [abstract, hfront] at this
  case receiveStart hidle' hfront | receive hidle' hfront hrefresh =>
    refine ⟨hidle fun _ _ => rfl, .inl fun heq => ?_⟩
    have := congrArg Protocol.State.plannerMessages heq
    simp [abstract, hfront] at this
  case handle hreceived hended hhandled =>
    refine ⟨hidle fun _ _ => rfl, .inl fun heq => ?_⟩
    have := congrArg (fun a => a.planner.received) heq
    simp [abstract, hreceived] at this
  case push hrunning hfront =>
    refine ⟨hidle fun _ _ => rfl, .inl fun heq => ?_⟩
    have := congrArg Protocol.State.executorMessages heq
    simp [abstract] at this
  case advance pass hrunning hfront =>
    refine ⟨hidle fun _ _ => rfl, .inl fun heq => ?_⟩
    have hnext := congrArg (fun a => a.planner.runningPlanner) heq
    simp only [abstract, hrunning] at hnext
    have hless : (pass.next planner G.clusterRanks s.planner.transactionStates
        s.planner.stopPlanningNeeded).elim 0
          (fun pass => max 1 s.planner.transactionStates.length - pass.index + 1) < _ :=
      Protocol.rounds_next
    rw [hnext] at hless
    exact lt_irrefl _ hless

omit [DecidableEq ι] in
theorem exists_targetsIn (G : Graph ι V) (a : Protocol.State) : ∃ K, Protocol.TargetsIn K G.edge a := by
  have := G.finite
  refine ⟨(Finset.Ico a.oldest a.next).biUnion a.keys ∪ (Set.finite_range G.clusterId).toFinset,
    fun T hle hlt c hc => ?_, fun c d hedge => ?_⟩
  · refine Finset.mem_union_left _ (Finset.mem_biUnion.mpr ⟨T, ?_, hc⟩)
    exact Finset.mem_Ico.mpr ⟨hle, hlt⟩
  · obtain ⟨-, x, y, -, rfl, -⟩ := hedge
    exact Finset.mem_union_right _ (by simp)

theorem Reached.acc_internal (hacyclic : ∀ c, G.ListensAcyclic c) (h : Reached planner G first s) :
    Acc (Termination.Moves (step G planner) fun action => action.isInternal) s := by
  obtain ⟨registered, hsim⟩ := h.simulated
  obtain ⟨K, hin⟩ := exists_targetsIn G (s.abstract registered s.oldest)
  have hmeasure : WellFounded fun a' a : Protocol.State => a'.measure K < a.measure K :=
    InvImage.wf (Protocol.State.measure K) wellFounded_lt
  refine Termination.acc_of_simulates
    (fun s a => ∃ registered oldest, Simulated planner G first s registered oldest ∧
      a = s.abstract registered oldest ∧ Protocol.TargetsIn K G.edge a)
    (InvImage.wf pending (Graph.wellFounded_feeds_clusters hacyclic).cutExpand) ?_
    (hmeasure.apply (s.abstract registered s.oldest)) ⟨_, _, hsim, rfl, hin⟩
  rintro s a s' ⟨registered, oldest, hsim, rfl, hin⟩ ⟨action, hinternal, hstep⟩
  have husers := usersPart_of_internal hstep hinternal
  have hstep := step_of_eq hstep
  obtain ⟨registered', oldest', hsim', hmove⟩ := hsim.follows hstep
  obtain ⟨hidle, hnoticed⟩ := hsim.internal_cases hstep husers registered' oldest'
  have hunnoticed : s'.abstract registered' oldest' = s.abstract registered oldest →
      InvImage (CutExpand fun y x => ∃ c, G.Feeds c x y) pending s' s ∧
        ∃ registered' oldest', Simulated planner G first s' registered' oldest' ∧
          s.abstract registered oldest = s'.abstract registered' oldest' ∧
          Protocol.TargetsIn K G.edge (s.abstract registered oldest) := by
    intro heq
    obtain ⟨T, x, hupdates⟩ := hnoticed.resolve_left (absurd heq)
    exact ⟨hupdates.cutExpand hsim.wellFormed, _, _, hsim', heq.symm, hin⟩
  rcases hmove with hmove | heq
  · rcases hsim.inv.core.measure_lt hin hmove hidle with hless | heq
    · exact .inl ⟨_, hless, _, _, hsim', rfl, hin.move hsim.inv.core hmove hidle⟩
    · exact .inr (hunnoticed heq)
  · exact .inr (hunnoticed heq)

/-! ## At rest -/

/-- No thread of the program can move. -/
def AtRest (G : Graph ι V) (planner : Planner) (s : State ι V) : Prop :=
  ∀ action : Action ι V, action.isInternal → step G planner s action = none

theorem Reached.exists_handleExecutorMessage (h : Reached planner G first s)
    {message : ExecutorMessage} {rest : List ExecutorMessage}
    (hfront : s.executorMessages = message :: rest) :
    ∃ s', handleExecutorMessage G { s with executorMessages := rest } message = some s' := by
  cases message with
  | transactionExecute T | registerTransaction T => exact ⟨_, rfl⟩
  | startUpdateCluster T c =>
      simp only [handleExecutorMessage]
      split
      · exact ⟨_, rfl⟩
      · split <;> exact ⟨_, rfl⟩
  | finalizeTransaction T =>
      simp only [handleExecutorMessage]
      split
      · exact ⟨_, rfl⟩
      · rename_i hrunning
        obtain ⟨registered, hsim⟩ := h.simulated
        obtain rfl := hsim.finalize_oldest hfront (not_not.mp hrunning)
        have hstored : ∀ x ∈ (s.inner s.oldest).cleanups, (s.inner s.oldest).id ∈ s.store x := by
          intro x hx
          rw [hsim.mem_cleanups h.recorded hfront] at hx
          rw [hsim.wellFormed.inner_id]
          exact h.recorded.values.mem_of_sent le_rfl hx
        obtain ⟨result, hresult⟩ := G.exists_finalizeTransaction hstored
        rw [hresult]
        exact ⟨_, rfl⟩

theorem Reached.exists_runTask (h : Reached planner G first s) {i : ℕ} {task : Task ι V}
    (hi : s.tasks[i]? = some task) (hphase : task.phase ≠ .finished) :
    ∃ s', s.runTask G i task = some s' := by
  obtain ⟨T, c, phase⟩ := task
  cases phase with
  | finished => exact absurd rfl hphase
  | queued | announced | registered | buffered => exact ⟨_, rfl⟩
  | executing sub =>
      simp only [runTask]
      split
      · exact ⟨_, rfl⟩
      · rename_i r x rest hexec
        obtain ⟨registered, hsim⟩ := h.simulated
        obtain ⟨-, result, hresult⟩ := h.exists_update
          (phaseOf_of_getElem? hsim.wellFormed.tasks_nodup hi) hexec
        rw [hresult]
        exact ⟨_, rfl⟩

theorem Reached.exists_handlePlannerMessage (h : Reached planner G first s)
    {message : PlannerMessage} (hreceived : s.planner.received = some message) :
    ∃ s', s.handlePlannerMessage G message = some s' := by
  obtain ⟨registered, hsim⟩ := h.simulated
  have hview := hsim.inv.view
  have hunhandled : (s.abstract registered s.oldest).unhandled = message :: s.plannerMessages := by
    simp [Protocol.State.unhandled, abstract, hreceived]
  rw [hunhandled] at hview
  obtain ⟨states, hhandled, -⟩ := hview.pop
  simp only [abstract] at hhandled
  exact ⟨_, by rw [handlePlannerMessage, hhandled]; rfl⟩

omit [DecidableEq ι] in
theorem exists_receivePlannerMessage (s : State ι V) (message : PlannerMessage)
    (rest : List PlannerMessage) : ∃ s', s.receivePlannerMessage G message rest = some s' := by
  cases message <;>
    exact ⟨_, by simp only [receivePlannerMessage, PlannerMessage.needRefresh, handleMessage]; rfl⟩

/-- At rest the queues are empty, all tasks have finished, and the planner waits for messages. -/
theorem Reached.quiescent (h : Reached planner G first s) (hrest : AtRest G planner s)
    (registered : ID) : Protocol.Quiescent (s.abstract registered s.oldest) := by
  have hexecutor : s.executorMessages = [] := by
    cases hfront : s.executorMessages with
    | nil => rfl
    | cons message rest =>
        obtain ⟨s', hs'⟩ := h.exists_handleExecutorMessage hfront
        have hnone := hrest .executor rfl
        simp [step, hfront, hs'] at hnone
  have hpass : s.planner.runningPlanner = none := by
    cases hrunning : s.planner.runningPlanner with
    | none => rfl
    | some pass =>
        have hnone := hrest .plannerPass rfl
        simp [step, hrunning] at hnone
  have hreceived : s.planner.received = none := by
    cases hreceived : s.planner.received with
    | none => rfl
    | some message =>
        obtain ⟨s', hs'⟩ := h.exists_handlePlannerMessage hreceived
        have hnone := hrest .plannerHandle rfl
        simp [step, hreceived, hpass, hs'] at hnone
  have hplanner : s.plannerMessages = [] := by
    cases hfront : s.plannerMessages with
    | nil => rfl
    | cons message rest =>
        obtain ⟨s', hs'⟩ := s.exists_receivePlannerMessage (G := G) message rest
        have hnone := hrest .plannerReceive rfl
        simp [step, hreceived, hfront, hs'] at hnone
  refine ⟨hexecutor, hplanner, hreceived, hpass, fun T c phase hphase => ?_⟩
  simp only [abstract, Option.map_eq_some_iff] at hphase
  obtain ⟨taskPhase, htask, rfl⟩ := hphase
  obtain ⟨i, hi⟩ := List.mem_iff_getElem?.mp (exists_task_of_phaseOf htask)
  by_contra hne
  have hne : taskPhase ≠ .finished := by
    rintro rfl
    exact hne rfl
  obtain ⟨s', hs'⟩ := h.exists_runTask hi hne
  have hnone := hrest (.task i) rfl
  simp [step, hi, hs'] at hnone

theorem Reached.mem_finalized_of_atRest (h : Reached planner G first s) (hrest : AtRest G planner s)
    {T : ID} (hfirst : first ≤ T) :
    T ∈ s.finalized ↔ ∀ T', first ≤ T' → T' ≤ T → T' ∈ s.committed := by
  obtain ⟨registered, hsim⟩ := h.simulated
  have hqueues := hsim.inv.core.queues
  rw [hsim.mem_finalized]
  constructor
  · rintro ⟨-, hlt⟩ T' hfirst' hle
    exact hqueues.finalized T' hfirst' (lt_of_le_of_lt hle hlt)
  · intro hcommitted
    refine ⟨hfirst, not_le.mp fun hle => ?_⟩
    exact hsim.reachable.oldest_open (h.quiescent hrest registered)
      (hcommitted s.oldest hqueues.first_le hle)

/-! ## Runs of the threads of the program -/

theorem run_eq_foldlM (s : State ι V) (actions : List (Action ι V)) :
    run G planner s actions = actions.foldlM (step G planner) s := by
  induction actions generalizing s with
  | nil => rfl
  | cons action actions ih =>
      rw [run, List.foldlM_cons]
      exact congrArg _ (funext ih)

theorem usersPart_run {actions : List (Action ι V)} (h : run G planner s actions = some s')
    (hinternal : ∀ action ∈ actions, action.isInternal) : s'.usersPart = s.usersPart := by
  induction actions generalizing s with
  | nil =>
      obtain rfl := Option.some.inj h
      rfl
  | cons action actions ih =>
      obtain ⟨haction, hinternal⟩ := List.forall_mem_cons.mp hinternal
      rw [run, Option.bind_eq_some_iff] at h
      obtain ⟨t, ht, hrest⟩ := h
      exact (ih hrest hinternal).trans (usersPart_of_internal ht haction)

def internalActions (s : State ι V) : List (Action ι V) :=
  [.executor, .plannerReceive, .plannerHandle, .plannerPass] ++
    (List.range s.tasks.length).map Action.task

theorem mem_internalActions {action : Action ι V} (hinternal : action.isInternal)
    (h : step G planner s action = some s') : action ∈ s.internalActions := by
  cases action with
  | register | afterBuildHook | send | commit => cases hinternal
  | executor | plannerReceive | plannerHandle | plannerPass => simp [internalActions]
  | task i =>
      have hlt : i < s.tasks.length := by
        by_contra hge
        simp [step, List.getElem?_eq_none (not_lt.mp hge)] at h
      simp [internalActions, hlt]

theorem atRest_of_internalActions
    (h : ∀ action ∈ s.internalActions, (step G planner s action).isNone) : AtRest G planner s := by
  intro action hinternal
  by_contra hstep
  obtain ⟨s', hs'⟩ := Option.ne_none_iff_exists'.mp hstep
  have hnone := h action (mem_internalActions hinternal hs')
  rw [hs'] at hnone
  cases hnone

/-- However the threads of the program take turns, they come to rest after a bounded number of moves
if no value listens to itself inside a cluster; and at rest the transactions before the first one
that the user threads still hold are finalised. -/
theorem comes_to_rest (hacyclic : ∀ c, G.ListensAcyclic c) {actions : List (Action ι V)}
    (hrun : run G planner (State.init G first) actions = some s) :
    (∃ bound, ∀ actions' s', (∀ action ∈ actions', action.isInternal) →
        run G planner s actions' = some s' → actions'.length ≤ bound) ∧
      ∀ actions' s', (∀ action ∈ actions', action.isInternal) →
        run G planner s actions' = some s' → AtRest G planner s' →
        ∀ T, first ≤ T → (T ∈ s'.finalized ↔ ∀ T', first ≤ T' → T' ≤ T → T' ∈ s.committed) := by
  have hreach : Reached planner G first s := steps_of_run hrun
  constructor
  · obtain ⟨bound, hbound⟩ := Termination.exists_bound (hreach.acc_internal hacyclic)
      internalActions fun s action s' => mem_internalActions
    refine ⟨bound, fun actions' s' hinternal hrun' => ?_⟩
    rw [run_eq_foldlM] at hrun'
    exact hbound actions' hinternal s' hrun'
  · intro actions' s' hinternal hrun' hrest T hfirst
    have hreach' : Reached planner G first s' := hreach.trans (steps_of_run hrun')
    have husers := usersPart_run hrun' hinternal
    simp only [usersPart, Prod.mk.injEq] at husers
    rw [← husers.2.1]
    exact hreach'.mem_finalized_of_atRest hrest hfirst

theorem listensAcyclic_sinkMapHold (c : ID) : sinkMapHold.ListensAcyclic c := by
  have hlt : ∀ x y : Fin 3, x ∈ (sinkMapHold.primitive y).listenTo ∨
      x ∈ (sinkMapHold.primitive y).listenOverLoop → x.val < y.val := by
    decide
  exact Graph.listensAcyclic_of_lt Fin.val fun x y h => hlt x y h.1

theorem comes_to_rest_sinkMapHold :
    (∃ bound, ∀ actions s, (∀ action ∈ actions, action.isInternal) →
        run sinkMapHold .rankBased (sinkMapHoldAt 0) actions = some s → actions.length ≤ bound) ∧
      ∀ actions s, (∀ action ∈ actions, action.isInternal) →
        run sinkMapHold .rankBased (sinkMapHoldAt 0) actions = some s →
        AtRest sinkMapHold .rankBased s → ∀ T, 0 ≤ T →
        (T ∈ s.finalized ↔ ∀ T', 0 ≤ T' → T' ≤ T → T' ∈ (sinkMapHoldAt 0).committed) :=
  comes_to_rest listensAcyclic_sinkMapHold (run_sinkMapHoldAt 0 (by decide +kernel))

end State

end Prf
