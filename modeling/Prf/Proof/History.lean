import Prf.Proof.Evaluation

/-!
# What user code has sent

What the trace of a run shows to have been sent from outside the graph is what the user threads have
sent, and in the build transaction the initial values.
-/

namespace Prf

variable {ι V : Type} [DecidableEq ι] {G : Graph ι V}

namespace State

variable {planner : Planner} {first : ID} {s s' : State ι V} {registered T : ID} {x : ι}
  {actions : List (Action ι V)}

/-! ## What user threads send -/

theorem topSent_handleExecutorMessage {message : ExecutorMessage}
    (h : s.handleExecutorMessage G message = some s') :
    topSent s'.trace T x = topSent s.trace T x := by
  cases message with
  | transactionExecute T' =>
      obtain rfl := Option.some.inj h
      rfl
  | registerTransaction T' =>
      obtain rfl := Option.some.inj h
      rfl
  | startUpdateCluster T' c =>
      simp only [handleExecutorMessage] at h
      split at h
      · obtain rfl := Option.some.inj h
        rfl
      · split at h
        all_goals
          obtain rfl := Option.some.inj h
          rfl
  | finalizeTransaction T' =>
      simp only [handleExecutorMessage] at h
      split at h
      · obtain rfl := Option.some.inj h
        rfl
      · split at h
        · cases h
        · obtain rfl := Option.some.inj h
          exact topSent_finalize _ _ _ _ _ _

theorem topSent_runTask {i : ℕ} {task : Task ι V} (h : s.runTask G i task = some s') :
    topSent s'.trace T x = topSent s.trace T x := by
  obtain ⟨T', c, phase⟩ := task
  cases phase with
  | executing sub =>
      simp only [runTask] at h
      split at h
      · obtain rfl := Option.some.inj h
        rfl
      · split at h
        · cases h
        · obtain rfl := Option.some.inj h
          exact topSent_updateEvents _ _ _ _ _ _
  | finished => simp [runTask] at h
  | queued | announced | registered | buffered =>
      obtain rfl := Option.some.inj h
      rfl

omit [DecidableEq ι] in
theorem trace_receivePlannerMessage {message : PlannerMessage} {rest : List PlannerMessage}
    (h : s.receivePlannerMessage G message rest = some s') : s'.trace = s.trace := by
  rw [receivePlannerMessage] at h
  split at h
  · obtain rfl := Option.some.inj h
    rfl
  · obtain ⟨states, -, rfl⟩ := Option.map_eq_some_iff.mp h
    rfl

theorem topSent_step {action : Action ι V} (h : step G planner s action = some s')
    (hT : T ≠ s.buildTransaction) :
    topSent s'.trace T x = (action.sent? T x).or (topSent s.trace T x) := by
  cases action with
  | register =>
      obtain rfl := Option.some.inj h
      rfl
  | afterBuildHook =>
      simp only [step] at h
      split at h
      · cases h
      · simp only [Option.ite_none_right_eq_some, Option.some.injEq] at h
        obtain ⟨-, rfl⟩ := h
        exact (topSent_topSend _ _ _ _ _ _).trans (if_neg fun heq => hT heq.1.symm)
  | send T' y value =>
      simp only [step, Option.ite_none_right_eq_some, Option.some.injEq] at h
      obtain ⟨-, rfl⟩ := h
      rw [topSend, topSent_topSend, Action.sent?]
      split <;> simp
  | commit T' =>
      simp only [step, Option.ite_none_right_eq_some, Option.some.injEq] at h
      obtain ⟨-, rfl⟩ := h
      rfl
  | executor =>
      simp only [step] at h
      split at h
      · cases h
      · have hsame := topSent_handleExecutorMessage (T := T) (x := x) h
        exact hsame
  | task i =>
      simp only [step] at h
      split at h
      · cases h
      · exact topSent_runTask h
  | plannerReceive =>
      simp only [step] at h
      split at h
      · rw [trace_receivePlannerMessage h]
        rfl
      · cases h
  | plannerHandle =>
      simp only [step, handlePlannerMessage] at h
      split at h
      · obtain ⟨states, -, rfl⟩ := Option.map_eq_some_iff.mp h
        rfl
      · cases h
  | plannerPass =>
      simp only [step] at h
      split at h
      · cases h
      · obtain rfl := Option.some.inj h
        rw [runPlanner]
        split <;> rfl

theorem topSent_run (h : run G planner s actions = some s') (hT : T ≠ s.buildTransaction) :
    topSent s'.trace T x =
      (actions.filterMap (Action.sent? T x)).getLast?.or (topSent s.trace T x) := by
  induction actions generalizing s with
  | nil =>
      obtain rfl := Option.some.inj h
      rfl
  | cons action actions ih =>
      rw [run, Option.bind_eq_some_iff] at h
      obtain ⟨t, ht, hrest⟩ := h
      have hbuild : t.buildTransaction = s.buildTransaction := by
        cases step_of_eq ht <;> rfl
      calc topSent s'.trace T x
          = (actions.filterMap (Action.sent? T x)).getLast?.or (topSent t.trace T x) :=
            ih hrest (hbuild ▸ hT)
        _ = (Log.last (Action.sent? T x) actions).or
              ((action.sent? T x).or (topSent s.trace T x)) := by rw [topSent_step ht hT, Log.last]
        _ = (Log.last (Action.sent? T x) (action :: actions)).or (topSent s.trace T x) := by
            rw [Log.last_cons, Option.or_assoc]

/-! ## The initial values -/

def pendingInitial (s : State ι V) (x : ι) : Option V :=
  (s.afterBuildHooks.filterMap fun entry => if entry.1 = x then some entry.2 else none).getLast?

/-- The initial values are sent before the build transaction is committed. -/
structure Initialised (G : Graph ι V) (s : State ι V) : Prop where
  sent : ∀ x, (s.pendingInitial x).or (topSent s.trace s.buildTransaction x) =
    (G.primitive x).initialValue
  committed : s.buildTransaction ∈ s.committed → s.afterBuildHooks = []

theorem filterMap_single {nodes : List ι} (hnodup : nodes.Nodup) (hx : x ∈ nodes)
    (f : ι → Option V) :
    nodes.filterMap (fun y => if y = x then f y else none) = (f x).toList := by
  obtain ⟨before, after, rfl⟩ := List.append_of_mem hx
  rw [List.nodup_append, List.nodup_cons] at hnodup
  have hnone : ∀ part : List ι, x ∉ part →
      part.filterMap (fun y => if y = x then f y else none) = [] := by
    intro part hpart
    refine List.filterMap_eq_nil_iff.mpr fun y hy => if_neg ?_
    rintro rfl
    exact hpart hy
  rw [List.filterMap_append, List.filterMap_cons, if_pos rfl, hnone after hnodup.2.1.1,
    hnone before fun hin => hnodup.2.2 x hin x List.mem_cons_self rfl]
  cases f x <;> rfl

theorem initialised_init : Initialised G (State.init G first) where
  sent x := by
    have hpending : (State.init G first).pendingInitial x =
        ((G.primitive x).initialValue.toList).getLast? := by
      rw [← filterMap_single G.nodes_nodup (G.mem_nodes x) fun y => (G.primitive y).initialValue]
      rw [pendingInitial, State.init, Graph.afterBuildHooks, List.filterMap_filterMap]
      congr 2
      funext y
      cases (G.primitive y).initialValue <;> simp
    rw [hpending]
    cases (G.primitive x).initialValue <;> rfl
  committed := by simp [State.init]

theorem Initialised.of_silent (h : Initialised G s)
    (hbuild : s'.buildTransaction = s.buildTransaction)
    (hhooks : s'.afterBuildHooks = s.afterBuildHooks) (hcommitted : s'.committed = s.committed)
    (htop : ∀ x, topSent s'.trace s.buildTransaction x = topSent s.trace s.buildTransaction x) :
    Initialised G s' where
  sent x := by rw [pendingInitial, hhooks, hbuild, htop]; exact h.sent x
  committed hin := by
    rw [hhooks]
    exact h.committed (by rwa [← hbuild, ← hcommitted])

theorem Initialised.step (h : Initialised G s) (hstep : Step G planner s s') :
    Initialised G s' := by
  cases hstep
  case afterBuildHook y value rest hhooks hopen =>
    refine ⟨fun x => ?_, fun hin => absurd hin hopen.2.2⟩
    let observe : ι × V → Option V := fun entry => if entry.1 = x then some entry.2 else none
    have hbefore : s.pendingInitial x = (Log.last observe rest).or (observe (y, value)) := by
      rw [pendingInitial, hhooks]
      exact Log.last_cons observe (y, value) rest
    have htop : topSent (s.trace ++ [.topSend s.buildTransaction y value]) s.buildTransaction x =
        (observe (y, value)).or (topSent s.trace s.buildTransaction x) := by
      rw [topSent_topSend]
      by_cases heq : y = x <;> simp [observe, heq]
    calc (Log.last observe rest).or
          (topSent (s.trace ++ [.topSend s.buildTransaction y value]) s.buildTransaction x)
        = (s.pendingInitial x).or (topSent s.trace s.buildTransaction x) := by
          rw [htop, hbefore, Option.or_assoc]
      _ = (G.primitive x).initialValue := h.sent x
  case send T' y value hopen huser hsink =>
    refine h.of_silent rfl rfl rfl fun x => ?_
    exact (topSent_topSend _ _ _ _ _ _).trans (if_neg fun heq => huser heq.1)
  case commit T' hopen hbuilt =>
    refine ⟨h.sent, fun hin => ?_⟩
    rcases Finset.mem_insert.mp hin with heq | hin
    · exact hbuilt heq.symm
    · exact h.committed hin
  case update => exact h.of_silent rfl rfl rfl fun x => topSent_updateEvents _ _ _ _ _ _
  case finalize => exact h.of_silent rfl rfl rfl fun x => topSent_finalize _ _ _ _ _ _
  all_goals exact h.of_silent rfl rfl rfl fun _ => rfl

theorem Reached.initialised (h : Reached planner G first s) : Initialised G s := by
  induction h with
  | refl => exact initialised_init
  | tail _ hstep ih => exact ih.step hstep

theorem topSent_eq_sends (hrun : run G planner (State.init G first) actions = some s)
    (hT : T ∈ s.finalized) : topSent s.trace T = G.sends first actions T := by
  have hreach : Reached planner G first s := steps_of_run hrun
  obtain ⟨registered, hsim⟩ := hreach.simulated
  funext x
  rw [Graph.sends]
  split
  · rename_i hfirst
    obtain ⟨hle, hlt⟩ := hsim.mem_finalized.mp hT
    have hcommitted : s.buildTransaction ∈ s.committed := by
      rw [hsim.build]
      exact hsim.inv.core.queues.finalized first le_rfl (hfirst ▸ hlt)
    have hinitialised := hreach.initialised
    have hsent := hinitialised.sent x
    rw [pendingInitial, hinitialised.committed hcommitted, hsim.build] at hsent
    rw [hfirst, ← hsent]
    rfl
  · rename_i hne
    rw [topSent_run hrun hne]
    exact Option.or_none

end State

end Prf
