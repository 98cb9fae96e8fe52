import Prf.Proof.Isolation

/-!
# What stays stored

A finalisation removes the values of its transaction from the streams it has sent, and the older
values from the cells. A `GlobalCellLoop` is written by hooks, which register no cleanup, so nothing
is ever removed from it.
-/

namespace Prf

open Relation

variable {ι V : Type}

theorem Primitive.isGlobalCellLoop_of_isStream {p : Primitive ι V} (h : p.isCell = false) :
    p.isGlobalCellLoop = false := by
  cases p <;> simp_all [isCell, isGlobalCellLoop]

variable [DecidableEq ι] {G : Graph ι V}

namespace State

variable {planner : Planner} {first : ID} {s s' : State ι V} {registered T : ID}
  {actions : List (Action ι V)}

/-- No stream holds a value of a finalised transaction, and no cell those of two. -/
def Retains (G : Graph ι V) (s : State ι V) : Prop :=
  (∀ x, (G.primitive x).isCell = false → ∀ T ∈ s.store x, T ∉ s.finalized) ∧
    ∀ x, (G.primitive x).isCell = true → ∀ T ∈ s.store x, ∀ T' ∈ s.store x,
      T ∈ s.finalized → T' ∈ s.finalized → T = T'

/-- What is stored below the oldest unfinalised transaction, `GlobalCellLoop`s left out. -/
structure Refreshed (G : Graph ι V) (s : State ι V) : Prop where
  stream : ∀ x, (G.primitive x).isCell = false → ∀ T ∈ s.store x, s.oldest ≤ T
  cell : ∀ x, (G.primitive x).isGlobalCellLoop = false → ∀ T ∈ s.store x, ∀ T' ∈ s.store x,
    T < s.oldest → T' < s.oldest → T = T'

namespace Refreshed

omit [DecidableEq ι] in
theorem of_store (h : Refreshed G s) (holdest : s'.oldest = s.oldest)
    (hstore : ∀ x, (G.primitive x).isGlobalCellLoop = false →
      ∀ T ∈ s'.store x, T ∈ s.store x ∨ s.oldest ≤ T) : Refreshed G s' where
  stream x hx T hT := by
    rw [holdest]
    exact (hstore x (Primitive.isGlobalCellLoop_of_isStream hx) T hT).elim (h.stream x hx T) id
  cell x hx T hT T' hT' hlt hlt' := by
    rw [holdest] at hlt hlt'
    rcases hstore x hx T hT with hin | hle
    · rcases hstore x hx T' hT' with hin' | hle'
      · exact h.cell x hx T hin T' hin' hlt hlt'
      · exact absurd hlt' (not_lt.mpr hle')
    · exact absurd hlt (not_lt.mpr hle)

theorem send (h : Refreshed G s) {x : ι} {v : V} (hT : s.oldest ≤ T)
    (hstore : s'.store = Function.update s.store x ((s.store x).insert T v))
    (holdest : s'.oldest = s.oldest) : Refreshed G s' := by
  refine h.of_store holdest fun y _ T' hin => ?_
  rw [hstore] at hin
  by_cases hy : y = x
  · subst hy
    rw [Function.update_self, Std.ExtTreeMap.mem_insert] at hin
    refine hin.symm.imp id fun heq => ?_
    rw [Std.compare_eq_iff_eq] at heq
    exact heq ▸ hT
  · exact .inl (by rwa [Function.update_of_ne hy] at hin)

theorem finalize (h : Refreshed G s) {t : InnerTransaction ι V} {store : Store ι V}
    {deliveries : List (Delivery ι V)} (hid : t.id = s.oldest)
    (hcleanups : ∀ x, (G.primitive x).isGlobalCellLoop = false → s.oldest ∈ s.store x →
      x ∈ t.cleanups)
    (hfinalize : G.finalizeTransaction s.store t = .ok (store, deliveries))
    (hstore : s'.store = store) (holdest : s'.oldest = s.oldest + 1) : Refreshed G s' := by
  subst hstore
  obtain ⟨hrefresh, hsame, -, -⟩ := Graph.finalizeTransaction_spec hfinalize
  rw [hid] at hrefresh
  have hget : ∀ x, (G.primitive x).isGlobalCellLoop = false → ∀ T ∈ s'.store x, T ∈ s.store x ∧
      (x ∈ t.cleanups → if (G.primitive x).isCell then s.oldest ≤ T else T ≠ s.oldest) := by
    intro x hx T hT
    by_cases hin : x ∈ t.cleanups
    · rw [Graph.mem_refresh (hrefresh x hin)] at hT
      exact ⟨hT.1, fun _ => hT.2⟩
    · rw [hsame x hin] at hT
      exact ⟨hT, fun hin' => absurd hin' hin⟩
  constructor
  · intro x hx T hT
    have hglobal := Primitive.isGlobalCellLoop_of_isStream hx
    obtain ⟨hold, hrefreshed⟩ := hget x hglobal T hT
    have hle := h.stream x hx T hold
    have hne : T ≠ s.oldest := by
      rintro rfl
      have := hrefreshed (hcleanups x hglobal hold)
      simp [hx] at this
    rw [holdest]
    exact lt_of_le_of_ne hle hne.symm
  · intro x hx T hT T' hT' hlt hlt'
    rw [holdest] at hlt hlt'
    obtain ⟨hold, hrefreshed⟩ := hget x hx T hT
    obtain ⟨hold', hrefreshed'⟩ := hget x hx T' hT'
    by_cases hin : x ∈ t.cleanups
    · cases hcell : (G.primitive x).isCell with
      | true =>
          have hge := hrefreshed hin
          have hge' := hrefreshed' hin
          simp only [hcell, if_true] at hge hge'
          exact (le_antisymm (Nat.le_of_lt_succ hlt) hge).trans
            (le_antisymm hge' (Nat.le_of_lt_succ hlt'))
      | false =>
          have hne := hrefreshed hin
          have hge := h.stream x hcell T hold
          simp only [hcell, Bool.false_eq_true, if_false] at hne
          exact absurd (le_antisymm (Nat.le_of_lt_succ hlt) hge) hne
    · have hne : ∀ T ∈ s.store x, T ≠ s.oldest := by
        rintro T hT rfl
        exact hin (hcleanups x hx hT)
      exact h.cell x hx T hold T' hold' (lt_of_le_of_ne (Nat.le_of_lt_succ hlt) (hne T hold))
        (lt_of_le_of_ne (Nat.le_of_lt_succ hlt') (hne T' hold'))

theorem step (h : Refreshed G s) (hsim : Simulated planner G first s registered s.oldest)
    (hrecorded : Recorded G s) (hstep : Step G planner s s') : Refreshed G s' := by
  have hwf := hsim.wellFormed
  have hopen : ∀ T', s.IsOpen T' → s.oldest ≤ T' := fun T' h => (hsim.open_waits h).2
  cases hstep
  case afterBuildHook x value rest hhooks hisOpen =>
    refine h.send (x := x) (v := value) (hopen _ hisOpen) ?_
      (oldest_congr rfl (finalized_append rfl (by simp [Event.finalized?])))
    simp only [topSend, Graph.send_fst, hwf.inner_id]
  case send T' x value hisOpen huser hsink =>
    refine h.send (x := x) (v := value) (hopen _ hisOpen) ?_
      (oldest_congr rfl (finalized_append rfl (by simp [Event.finalized?])))
    simp only [topSend, Graph.send_fst, hwf.inner_id]
  case handleRegister T' rest hfront =>
    refine h.of_store rfl fun x hx T hT => .inl ?_
    have hcells : ∀ hook ∈ s.executor.beforeUpdateHooks, hook.cell ≠ x := by
      rintro hook hin rfl
      have := hrecorded.hooks.queued hook hin
      simp [hx] at this
    simpa only [Stored.applyHooks_of_ne _ hcells] using hT
  case finalize T' rest store deliveries hfront hrunning hfinalize =>
    obtain rfl := hsim.finalize_oldest hfront hrunning
    refine h.finalize (hwf.inner_id _) (fun x hx hin => ?_) hfinalize rfl (oldest_finalize rfl rfl)
    obtain ⟨value, hvalue⟩ := Option.isSome_iff_exists.mp
      (Std.ExtTreeMap.mem_iff_isSome_getElem?.mp hin)
    rw [hsim.mem_cleanups hrecorded hfront, hrecorded.values.stored x _ value hx hvalue]
    simp
  case update i T' c sub sub' r x rest store hi hfront hupdate =>
    have hphase := phaseOf_of_getElem? hwf.tasks_nodup hi
    have hT := (hsim.task_bounds hphase (by simp)).2.1
    have hid : (sub.pop x rest).id = T' := (hwf.sub T' c sub hphase).id
    have holdest : State.oldest { s with
        tasks := s.tasks.set i ⟨T', c, .executing sub'⟩
        store := store
        trace := s.trace ++ updateEvents G s.store T' x } = s.oldest :=
      oldest_congr rfl (finalized_append rfl (finalized?_updateEvents s.store T' x))
    rcases Graph.update_cases hupdate with ⟨hooks, hupd, rfl, -⟩ | ⟨value, hooks, hupd, rfl, -⟩
    · exact h.of_store holdest fun x _ T hT => .inl hT
    · refine h.send (T := T') (x := x) (v := value) hT ?_ holdest
      simp only [Graph.send_fst]
      exact congrArg (fun id => Function.update s.store x ((s.store x).insert id value)) hid
  all_goals exact h.of_store rfl fun x _ T hT => .inl hT

end Refreshed

theorem Reached.refreshed (h : Reached planner G first s) : Refreshed G s := by
  induction h with
  | refl => constructor <;> simp [State.init]
  | tail hreach hstep ih =>
      obtain ⟨registered, hsim⟩ := Reached.simulated hreach
      exact ih.step hsim (Reached.recorded hreach) hstep

/-! ## The entries of a `GlobalCellLoop` -/

omit [DecidableEq ι] in
theorem mem_hooks_of_lastHook {g : ι} {hooks : List (Hook ι V)} [DecidableEq ι] :
    (lastHook g hooks).isSome = true ↔ ∃ hook ∈ hooks, hook.cell = g := by
  rw [lastHook, List.getLast?_isSome, ne_eq, List.filterMap_eq_nil_iff]
  simp

/-- In the run, `T` has been registered while a hook for `g` waited. -/
def RegisteredWithHook (G : Graph ι V) (planner : Planner) (first : ID) (actions : List (Action ι V))
    (g : ι) (T : ID) : Prop :=
  ∃ before after s, actions = before ++ .executor :: after ∧
    run G planner (State.init G first) before = some s ∧
    s.executorMessages.head? = some (.registerTransaction T) ∧
    ∃ hook ∈ s.executor.beforeUpdateHooks, hook.cell = g

theorem executorMessages_runTask {i : ℕ} {task : Task ι V} (hstep : s.runTask G i task = some s') :
    s'.executorMessages = s.executorMessages := by
  obtain ⟨T, c, phase⟩ := task
  cases phase with
  | executing sub =>
      simp only [runTask] at hstep
      split at hstep
      · obtain rfl := Option.some.inj hstep
        rfl
      · split at hstep
        · cases hstep
        · obtain rfl := Option.some.inj hstep
          rfl
  | finished => cases hstep
  | queued | announced | registered | buffered =>
      obtain rfl := Option.some.inj hstep
      rfl

theorem length_executorMessages_le {action : Action ι V} (hne : action ≠ .executor)
    (hstep : State.step G planner s action = some s') :
    s.executorMessages.length ≤ s'.executorMessages.length := by
  cases action with
  | executor => exact absurd rfl hne
  | register =>
      obtain rfl := Option.some.inj hstep
      simp [State.register]
  | afterBuildHook =>
      simp only [State.step] at hstep
      split at hstep
      · cases hstep
      · split at hstep
        · obtain rfl := Option.some.inj hstep
          exact le_rfl
        · cases hstep
  | send T x value =>
      simp only [State.step, Option.ite_none_right_eq_some] at hstep
      obtain rfl := Option.some.inj hstep.2
      exact le_rfl
  | commit T =>
      simp only [State.step, Option.ite_none_right_eq_some] at hstep
      obtain rfl := Option.some.inj hstep.2
      simp [State.commit]
  | task i =>
      simp only [State.step] at hstep
      split at hstep
      · cases hstep
      · rw [executorMessages_runTask hstep]
  | plannerReceive =>
      simp only [State.step] at hstep
      split at hstep
      · rw [receivePlannerMessage] at hstep
        split at hstep
        · obtain rfl := Option.some.inj hstep
          exact le_rfl
        · obtain ⟨states, -, rfl⟩ := Option.map_eq_some_iff.mp hstep
          exact le_rfl
      · cases hstep
  | plannerHandle =>
      simp only [State.step] at hstep
      split at hstep
      · obtain ⟨states, -, rfl⟩ := Option.map_eq_some_iff.mp hstep
        exact le_rfl
      · cases hstep
  | plannerPass =>
      simp only [State.step] at hstep
      split at hstep
      · cases hstep
      · obtain rfl := Option.some.inj hstep
        rw [runPlanner]
        split
        · simp
        · exact le_rfl

theorem mem_store_step {g : ι} {action : Action ι V} (hreach : Reached planner G first s)
    (hglobal : (G.primitive g).isGlobalCellLoop = true)
    (hstep : State.step G planner s action = some s') (T : ID) :
    T ∈ s'.store g ↔ T ∈ s.store g ∨ action = .executor ∧
      s.executorMessages.head? = some (.registerTransaction T) ∧
        ∃ hook ∈ s.executor.beforeUpdateHooks, hook.cell = g := by
  obtain ⟨registered, hsim⟩ := hreach.simulated
  by_cases hregister : action = .executor ∧
      ∃ T', s.executorMessages.head? = some (.registerTransaction T')
  · obtain ⟨rfl, T', hhead⟩ := hregister
    obtain ⟨rest, hfront⟩ := List.head?_eq_some_iff.mp hhead
    rw [State.step, hfront] at hstep
    obtain rfl := Option.some.inj hstep
    rw [← mem_hooks_of_lastHook, hhead, Std.ExtTreeMap.mem_iff_isSome_getElem?,
      Std.ExtTreeMap.mem_iff_isSome_getElem?]
    simp only [applyHooks_getElem?, Option.some.injEq, ExecutorMessage.registerTransaction.injEq,
      true_and]
    by_cases hT : T = T'
    · simp [hT, or_comm]
    · simp [hT, Ne.symm hT]
  · have hsame : s'.store g = s.store g := by
      rcases hsim.global_cases hreach.recorded hglobal (step_of_eq hstep) with
        ⟨hstore, -, -⟩ | ⟨T', hstore, -, -⟩ | ⟨T', rest, hfront, hs'⟩
      · exact hstore
      · exact hstore
      · have hlength : s'.executorMessages.length < s.executorMessages.length := by
          rw [hs', hfront]
          exact Nat.lt_succ_self _
        have hexecutor : action = .executor := by
          by_contra hne
          exact absurd hlength (not_lt.mpr (length_executorMessages_le hne hstep))
        exact absurd ⟨hexecutor, T', by rw [hfront, List.head?_cons]⟩ hregister
    rw [hsame, iff_self_or]
    rintro ⟨hexecutor, hhead, -⟩
    exact absurd ⟨hexecutor, T, hhead⟩ hregister

/-- A `GlobalCellLoop` holds one entry for each registration that met a hook for it. -/
theorem mem_store_iff {g : ι} (hglobal : (G.primitive g).isGlobalCellLoop = true)
    (hrun : run G planner (State.init G first) actions = some s) (T : ID) :
    T ∈ s.store g ↔ RegisteredWithHook G planner first actions g T := by
  induction actions using List.reverseRecOn generalizing s with
  | nil =>
      obtain rfl := Option.some.inj hrun
      simp [State.init, RegisteredWithHook]
  | append_singleton actions action ih =>
      rw [run_append, Option.bind_eq_some_iff] at hrun
      obtain ⟨t, ht, hlast⟩ := hrun
      rw [run, Option.bind_eq_some_iff] at hlast
      obtain ⟨t', hstep, hend⟩ := hlast
      obtain rfl := Option.some.inj hend
      rw [mem_store_step (steps_of_run ht) hglobal hstep, ih ht]
      constructor
      · rintro (⟨before, after, u, rfl, hu, hhead, hhook⟩ | ⟨rfl, hhead, hhook⟩)
        · exact ⟨before, after ++ [action], u, by simp, hu, hhead, hhook⟩
        · exact ⟨actions, [], t, rfl, ht, hhead, hhook⟩
      · rintro ⟨before, after, u, heq, hu, hhead, hhook⟩
        rcases List.eq_nil_or_concat' after with rfl | ⟨front, last, rfl⟩
        · obtain ⟨rfl, hlast⟩ := List.append_inj' heq rfl
          obtain rfl : t = u := Option.some.inj (ht.symm.trans hu)
          exact .inr ⟨by simpa using hlast, hhead, hhook⟩
        · rw [← List.cons_append, ← List.append_assoc] at heq
          obtain ⟨rfl, -⟩ := List.append_inj' heq rfl
          exact .inl ⟨before, front, u, rfl, hu, hhead, hhook⟩

/-- Values do not pile up exactly as long as no `GlobalCellLoop` has been written at the registration
of two transactions that are finalised. -/
theorem retains_iff (hrun : run G planner (State.init G first) actions = some s) :
    Retains G s ↔ ∀ g, (G.primitive g).isGlobalCellLoop = true → ∀ T ∈ s.finalized,
      ∀ T' ∈ s.finalized, RegisteredWithHook G planner first actions g T →
        RegisteredWithHook G planner first actions g T' → T = T' := by
  have hreach : Reached planner G first s := steps_of_run hrun
  obtain ⟨registered, hsim⟩ := hreach.simulated
  have hrefreshed := hreach.refreshed
  constructor
  · rintro ⟨-, hcells⟩ g hglobal T hT T' hT' hwritten hwritten'
    have hcell : (G.primitive g).isCell = true := by
      by_contra hstream
      have := Primitive.isGlobalCellLoop_of_isStream (Bool.not_eq_true _ ▸ hstream)
      simp [this] at hglobal
    exact hcells g hcell T ((mem_store_iff hglobal hrun T).mpr hwritten) T'
      ((mem_store_iff hglobal hrun T').mpr hwritten') hT hT'
  · intro h
    refine ⟨fun x hx T hT hfinalized => ?_, fun x hx T hT T' hT' hfinalized hfinalized' => ?_⟩
    · exact absurd (hsim.mem_finalized.mp hfinalized).2 (not_lt.mpr (hrefreshed.stream x hx T hT))
    · cases hglobal : (G.primitive x).isGlobalCellLoop with
      | false =>
          exact hrefreshed.cell x hglobal T hT T' hT' (hsim.mem_finalized.mp hfinalized).2
            (hsim.mem_finalized.mp hfinalized').2
      | true =>
          exact h x hglobal T hfinalized T' hfinalized' ((mem_store_iff hglobal hrun T).mp hT)
            ((mem_store_iff hglobal hrun T').mp hT')

theorem retains_iff_sendOne :
    Retains runningSum (after runningSum .simple sendOne) ↔
      ∀ g, (runningSum.primitive g).isGlobalCellLoop = true →
        ∀ T ∈ (after runningSum .simple sendOne).finalized,
          ∀ T' ∈ (after runningSum .simple sendOne).finalized,
            RegisteredWithHook runningSum .simple 0 sendOne g T →
              RegisteredWithHook runningSum .simple 0 sendOne g T' → T = T' :=
  retains_iff (run_after (by decide +kernel))

/-- After the second send the loop holds what both transactions have read of it. -/
theorem not_retains_sendTwo :
    run runningSum .simple (State.init runningSum 0) sendTwo =
        some (after runningSum .simple sendTwo) ∧
      ¬ Retains runningSum (after runningSum .simple sendTwo) := by
  refine ⟨run_after (by decide +kernel), fun h => ?_⟩
  have hkeys : 1 ∈ (after runningSum .simple sendTwo).store 0 ∧
      2 ∈ (after runningSum .simple sendTwo).store 0 := by decide +kernel
  have hfinalized : (after runningSum .simple sendTwo).finalized = [0, 1, 2] := by decide +kernel
  have heq := h.2 0 rfl 1 hkeys.1 2 hkeys.2 (by simp [hfinalized]) (by simp [hfinalized])
  exact absurd heq (by decide)

end State

end Prf
