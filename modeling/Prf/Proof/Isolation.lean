import Prf.Proof.Requests

/-!
# What a `GlobalCellLoop` holds

Only the registration of a transaction writes to a `GlobalCellLoop`, under the id of that
transaction, and ids are registered in order. So what a transaction reads there is settled when it
is registered: the value of the last hook that the transactions finalised before have left.
-/

namespace Prf

open Relation

variable {ι V : Type} [DecidableEq ι]

def lastHook (g : ι) (hooks : List (Hook ι V)) : Option V :=
  (hooks.filterMap fun hook => if hook.cell = g then some hook.value else none).getLast?

theorem lastHook_append (g : ι) (hooks hooks' : List (Hook ι V)) :
    lastHook g (hooks ++ hooks') = (lastHook g hooks').or (lastHook g hooks) :=
  Log.last_append _ hooks hooks'

theorem lastHook_eq_none {g : ι} {hooks : List (Hook ι V)} (h : ∀ hook ∈ hooks, hook.cell ≠ g) :
    lastHook g hooks = none :=
  Log.last_eq_none fun hook hin => if_neg (h hook hin)

theorem applyHooks_getElem? (T : ID) (hooks : List (Hook ι V)) (store : Store ι V) (g : ι) (k : ID) :
    (State.applyHooks T hooks store g)[k]? =
      if k = T then (lastHook g hooks).or (store g)[k]? else (store g)[k]? := by
  induction hooks using List.reverseRecOn with
  | nil => simp [State.applyHooks, lastHook]
  | append_singleton hooks hook ih =>
      rw [State.applyHooks, List.foldl_append, List.foldl_cons, List.foldl_nil, lastHook_append]
      rw [State.applyHooks] at ih
      by_cases hcell : hook.cell = g
      · subst hcell
        rw [Function.update_self, Std.ExtTreeMap.getElem?_insert]
        by_cases hk : k = T
        · subst hk
          simp [lastHook]
        · have hne : ¬ compare T k = .eq := by simpa using fun h : T = k => hk h.symm
          rw [if_neg hne, ih, if_neg hk, if_neg hk]
      · rw [Function.update_of_ne (Ne.symm hcell), ih]
        have hnone : lastHook g [hook] = none := lastHook_eq_none (by simpa using hcell)
        rw [hnone, Option.none_or]

theorem floor?_applyHooks {T T' : ID} {hooks : List (Hook ι V)} {store : Store ι V} {g : ι}
    (hkeys : ∀ k ∈ store g, k < T') (hle : lastHook g hooks ≠ none → T' ≤ T) :
    OrderedMap.floor? (State.applyHooks T' hooks store g) T =
      (lastHook g hooks).or (OrderedMap.floor? (store g) T) := by
  have hget := applyHooks_getElem? T' hooks store g
  cases hlast : lastHook g hooks with
  | none =>
      simp only [hlast, Option.none_or, ite_self] at hget ⊢
      exact OrderedMap.floor?_congr fun k _ => hget k
  | some value =>
      simp only [hlast, Option.some_or] at hget ⊢
      refine OrderedMap.floor?_eq_of_getElem? (hle (by simp [hlast])) (k := T') ?_ fun k hlt _ => ?_
      · rw [hget, if_pos rfl]
      · rw [hget, if_neg hlt.ne']
        by_contra hsome
        have hk : k ∈ store g := by
          rw [Std.ExtTreeMap.mem_iff_isSome_getElem?]
          exact Option.isSome_iff_ne_none.mpr hsome
        exact absurd (hkeys k hk) (not_lt.mpr hlt.le)

variable {G : Graph ι V} {g : ι}

namespace State

variable {planner : Planner} {first : ID} {s s' : State ι V} {registered T : ID}

/-- The `Executor` has handled the registration. -/
def Registered (s : State ι V) (T : ID) : Prop :=
  T < s.nextTransactionId ∧ .registerTransaction T ∉ s.executorMessages

theorem Simulated.registered_step (hsim : Simulated planner G first s registered s.oldest)
    (hstep : Step G planner s s') (h : s.Registered T) : s'.Registered T := by
  obtain ⟨hnext, hmessage⟩ := h
  have hrest : ∀ {message rest}, s.executorMessages = message :: rest →
      .registerTransaction T ∉ rest := by
    intro message rest hfront hin
    exact hmessage (hfront ▸ List.mem_cons_of_mem _ hin)
  cases hstep
  case register =>
    refine ⟨hnext.trans (Nat.lt_succ_self _), ?_⟩
    simp only [State.register, List.mem_append, List.mem_singleton,
      ExecutorMessage.registerTransaction.injEq, not_or]
    exact ⟨hmessage, hnext.ne⟩
  case commit => exact ⟨hnext, by simpa [State.commit] using hmessage⟩
  case handleRegister hfront => exact ⟨hnext, hrest hfront⟩
  case handleExecute hfront => exact ⟨hnext, hrest hfront⟩
  case skipStart hfront _ => exact ⟨hnext, hrest hfront⟩
  case start hfront _ _ => exact ⟨hnext, hrest hfront⟩
  case skipFinalize hfront _ => exact ⟨hnext, hrest hfront⟩
  case finalize hfront _ _ => exact ⟨hnext, hrest hfront⟩
  case push pass message rest hrunning hfront =>
    refine ⟨hnext, ?_⟩
    have hproposal := hsim.inv.core.offers.front_proposal (s := s.abstract registered s.oldest)
      hrunning hfront
    simp only [List.mem_append, List.mem_singleton, not_or]
    refine ⟨hmessage, ?_⟩
    rintro rfl
    exact hproposal
  all_goals exact ⟨hnext, hmessage⟩

/-- The registration of a transaction writes to a `GlobalCellLoop`, a finalisation adds to the hooks
that wait, and no other step touches either. -/
theorem Simulated.global_cases (hsim : Simulated planner G first s registered s.oldest)
    (hrecorded : Recorded G s) (hglobal : (G.primitive g).isGlobalCellLoop = true)
    (hstep : Step G planner s s') :
    (s'.store g = s.store g ∧ s'.executor.beforeUpdateHooks = s.executor.beforeUpdateHooks ∧
        s'.finalized = s.finalized) ∨
      (∃ T, s'.store g = s.store g ∧ s'.executor.beforeUpdateHooks =
          s.executor.beforeUpdateHooks ++ s.executor.beforeUpdateHooksBuffers T ∧
        s'.finalized = s.finalized ++ [T]) ∨
      ∃ T rest, s.executorMessages = .registerTransaction T :: rest ∧
        s' = { s with
          executorMessages := rest
          store := applyHooks T s.executor.beforeUpdateHooks s.store
          executor := { s.executor with beforeUpdateHooks := [] }
          plannerMessages := s.plannerMessages ++ [.startTransaction T] } := by
  have hwf := hsim.wellFormed
  cases hstep
  case afterBuildHook x value rest hhooks hopen =>
    have hx := Stored.initialValue_global (hrecorded.values.afterBuild (x, value) (by simp [hhooks]))
    have hne : g ≠ x := fun heq => by simp [heq, hx] at hglobal
    refine .inl ⟨?_, rfl, finalized_append rfl (by simp [Event.finalized?])⟩
    simp [topSend, Graph.send_fst, Function.update_of_ne hne]
  case send T x value hopen huser hsink =>
    have hne : g ≠ x := by
      rintro rfl
      cases hprimitive : G.primitive g <;>
        simp_all [Primitive.isSink, Primitive.isGlobalCellLoop]
    refine .inl ⟨?_, rfl, finalized_append rfl (by simp [Event.finalized?])⟩
    simp [topSend, Graph.send_fst, Function.update_of_ne hne]
  case handleRegister T rest hfront => exact .inr (.inr ⟨T, rest, hfront, rfl⟩)
  case finalize T rest store deliveries hfront hrunning hfinalize =>
    obtain rfl := hsim.finalize_oldest hfront hrunning
    obtain ⟨-, hsame, -, -⟩ := Graph.finalizeTransaction_spec hfinalize
    refine .inr (.inl ⟨s.oldest, hsame g ?_, rfl, finalized_finalize rfl⟩)
    rw [hsim.mem_cleanups hrecorded hfront, not_not]
    exact hrecorded.values.global _ g hglobal
  case update i T c' sub sub' r x rest store hi hfront hupdate =>
    have hfinalized := finalized?_updateEvents (G := G) s.store T x
    rcases Graph.update_cases hupdate with ⟨hooks, hupd, rfl, -⟩ | ⟨value, hooks, hupd, rfl, -⟩
    · exact .inl ⟨rfl, rfl, finalized_append rfl hfinalized⟩
    · have hne : g ≠ x := by
        rintro rfl
        cases (updater_hooks hupd).1 hglobal
      refine .inl ⟨?_, rfl, finalized_append rfl hfinalized⟩
      simp [Graph.send_fst, Function.update_of_ne hne]
  all_goals exact .inl ⟨rfl, rfl, rfl⟩

/-! ## The hooks of a run -/

/-- The transactions a run finalises, each with the hooks it has collected by then. -/
def collectedHooks (G : Graph ι V) (planner : Planner) :
    State ι V → List (Action ι V) → List (ID × List (Hook ι V))
  | _, [] => []
  | s, action :: actions =>
      match step G planner s action with
      | none => []
      | some s' =>
          (s'.finalized.drop s.finalized.length).map
              (fun U => (U, s.executor.beforeUpdateHooksBuffers U)) ++
            collectedHooks G planner s' actions

/-- The value the last of the collected hooks writes to `g`. -/
def lastCollected (g : ι) (collected : List (ID × List (Hook ι V))) : Option V :=
  (collected.filterMap fun entry => lastHook g entry.2).getLast?

theorem lastCollected_append (g : ι) (collected collected' : List (ID × List (Hook ι V))) :
    lastCollected g (collected ++ collected') =
      (lastCollected g collected').or (lastCollected g collected) :=
  Log.last_append _ collected collected'

theorem lastCollected_singleton (g : ι) (U : ID) (hooks : List (Hook ι V)) :
    lastCollected g [(U, hooks)] = lastHook g hooks :=
  Log.last_singleton _ (U, hooks)

structure Written (g : ι) (s : State ι V) (collected : List (ID × List (Hook ι V))) : Prop where
  keys : ∀ T ∈ s.store g, s.Registered T
  ids : collected.map Prod.fst = s.finalized
  latest : ∀ T, (∀ k ∈ s.store g, k < T) →
    (lastHook g s.executor.beforeUpdateHooks).or (OrderedMap.floor? (s.store g) T) =
      lastCollected g collected

theorem written_init : Written g (State.init G first) [] where
  keys := by simp [State.init]
  ids := rfl
  latest T _ := by
    have hnone : OrderedMap.floor? (∅ : Map V) T = none :=
      OrderedMap.floor?_eq_none_iff.mpr fun k _ => by simp
    simp [State.init, lastHook, lastCollected, hnone]

omit [DecidableEq ι] in
/-- The `Executor` registers transactions in the order of their ids. -/
theorem Registered.lt_front (h : s.Registered T)
    (hsim : Simulated planner G first s registered s.oldest) {T' : ID} {rest : List ExecutorMessage}
    (hfront : s.executorMessages = .registerTransaction T' :: rest) : T < T' := by
  obtain ⟨hnext, hmessage⟩ := h
  have hqueues := hsim.inv.core.queues
  obtain ⟨rfl, hlt, htail⟩ := hqueues.register_front (s := s.abstract registered s.oldest) hfront
  by_contra hle
  rcases (not_lt.mp hle).eq_or_lt with heq | hlt'
  · exact hmessage (by simp [hfront, ← heq])
  · have hin : T ∈ rest.filterMap Protocol.registration? := by
      rw [htail, List.mem_range'_1]
      simp only [abstract] at hlt' hnext ⊢
      lia
    obtain ⟨message, hmem, hid⟩ := List.mem_filterMap.mp hin
    cases message <;> simp [Protocol.registration?] at hid
    subst hid
    exact hmessage (by simp [hfront, hmem])

omit [DecidableEq ι] in
theorem registered_front (hsim : Simulated planner G first s registered s.oldest) {T' : ID}
    {rest : List ExecutorMessage} (hfront : s.executorMessages = .registerTransaction T' :: rest) :
    T' < s.nextTransactionId ∧ .registerTransaction T' ∉ rest := by
  have hqueues := hsim.inv.core.queues
  obtain ⟨rfl, hlt, htail⟩ := hqueues.register_front (s := s.abstract registered s.oldest) hfront
  refine ⟨hlt, fun hin => ?_⟩
  have hmem : T' ∈ rest.filterMap Protocol.registration? := List.mem_filterMap.mpr ⟨_, hin, rfl⟩
  rw [htail, List.mem_range'_1] at hmem
  exact absurd hmem.1 (Nat.not_succ_le_self _)

namespace Written

variable {collected : List (ID × List (Hook ι V))}

theorem of_eq (h : Written g s collected) (hregistered : ∀ T, s.Registered T → s'.Registered T)
    (hstore : s'.store g = s.store g)
    (hqueue : s'.executor.beforeUpdateHooks = s.executor.beforeUpdateHooks)
    (hfinalized : s'.finalized = s.finalized) (f : ID → ID × List (Hook ι V)) :
    Written g s' (collected ++ (s'.finalized.drop s.finalized.length).map f) := by
  rw [hfinalized, List.drop_length, List.map_nil, List.append_nil]
  refine ⟨fun T hT => ?_, h.ids.trans hfinalized.symm, fun T hT => ?_⟩
  · rw [hstore] at hT
    exact hregistered T (h.keys T hT)
  · rw [hstore] at hT
    rw [hstore, hqueue]
    exact h.latest T hT

theorem register (h : Written g s collected)
    (hsim : Simulated planner G first s registered s.oldest) {T' : ID}
    {rest : List ExecutorMessage} (hfront : s.executorMessages = .registerTransaction T' :: rest)
    (hs' : s' = { s with
      executorMessages := rest
      store := applyHooks T' s.executor.beforeUpdateHooks s.store
      executor := { s.executor with beforeUpdateHooks := [] }
      plannerMessages := s.plannerMessages ++ [.startTransaction T'] })
    (hregistered : ∀ T, s.Registered T → s'.Registered T) : Written g s' collected := by
  have hget : ∀ k : ID, (s'.store g)[k]? =
      if k = T' then (lastHook g s.executor.beforeUpdateHooks).or (s.store g)[k]?
      else (s.store g)[k]? := by
    intro k
    rw [hs']
    exact applyHooks_getElem? T' _ s.store g k
  have hold : ∀ k, k ∈ s.store g → k ∈ s'.store g := by
    intro k hk
    rw [Std.ExtTreeMap.mem_iff_isSome_getElem?] at hk ⊢
    rw [hget]
    split
    · rw [Option.isSome_or, hk, Bool.or_true]
    · exact hk
  refine ⟨fun k hk => ?_, ?_, fun T hT => ?_⟩
  · by_cases heq : k = T'
    · obtain ⟨hnext, hmessage⟩ := registered_front hsim hfront
      rw [heq, hs']
      exact ⟨hnext, hmessage⟩
    · apply hregistered k
      apply h.keys
      rwa [Std.ExtTreeMap.mem_iff_isSome_getElem?, hget, if_neg heq,
        ← Std.ExtTreeMap.mem_iff_isSome_getElem?] at hk
  · rw [hs']
    exact h.ids
  · have hlatest := h.latest T fun k hk => hT k (hold k hk)
    have hempty : lastHook g s'.executor.beforeUpdateHooks = none := by
      rw [hs']
      rfl
    rw [hempty, Option.none_or, ← hlatest]
    have hstore : s'.store g = applyHooks T' s.executor.beforeUpdateHooks s.store g := by rw [hs']
    rw [hstore]
    refine floor?_applyHooks (fun k hk => (h.keys k hk).lt_front hsim hfront) fun hlast => ?_
    apply (hT T' _).le
    rw [Std.ExtTreeMap.mem_iff_isSome_getElem?, hget, if_pos rfl, Option.isSome_or,
      Option.isSome_iff_ne_none.mpr hlast, Bool.true_or]

theorem finalize (h : Written g s collected) {T' : ID}
    (hregistered : ∀ T, s.Registered T → s'.Registered T) (hstore : s'.store g = s.store g)
    (hqueue : s'.executor.beforeUpdateHooks =
      s.executor.beforeUpdateHooks ++ s.executor.beforeUpdateHooksBuffers T')
    (hfinalized : s'.finalized = s.finalized ++ [T']) :
    Written g s' (collected ++ (s'.finalized.drop s.finalized.length).map
      fun U => (U, s.executor.beforeUpdateHooksBuffers U)) := by
  rw [hfinalized, List.drop_left, List.map_singleton]
  refine ⟨fun T hT => ?_, ?_, fun T hT => ?_⟩
  · rw [hstore] at hT
    exact hregistered T (h.keys T hT)
  · rw [List.map_append, h.ids, hfinalized]
    rfl
  · rw [hstore] at hT
    rw [hstore, hqueue, lastHook_append, lastCollected_append, lastCollected_singleton,
      Option.or_assoc, h.latest T hT]

theorem step (h : Written g s collected) (hreach : Reached planner G first s)
    (hglobal : (G.primitive g).isGlobalCellLoop = true) (hstep : Step G planner s s') :
    Written g s' (collected ++ (s'.finalized.drop s.finalized.length).map
      fun U => (U, s.executor.beforeUpdateHooksBuffers U)) := by
  obtain ⟨registered, hsim⟩ := hreach.simulated
  have hregistered : ∀ T, s.Registered T → s'.Registered T :=
    fun T hT => hsim.registered_step hstep hT
  rcases hsim.global_cases hreach.recorded hglobal hstep with
    ⟨hstore, hqueue, hfinalized⟩ | ⟨T, hstore, hqueue, hfinalized⟩ | ⟨T, rest, hfront, hs'⟩
  · exact h.of_eq hregistered hstore hqueue hfinalized _
  · exact h.finalize hregistered hstore hqueue hfinalized
  · have hwritten := h.register hsim hfront hs' hregistered
    have hfinalized : s'.finalized = s.finalized := by rw [hs', finalized, finalized]
    rwa [hfinalized, List.drop_length, List.map_nil, List.append_nil]

end Written

theorem Written.run (hglobal : (G.primitive g).isGlobalCellLoop = true)
    {actions : List (Action ι V)} {collected : List (ID × List (Hook ι V))}
    (h : Written g s collected) (hreach : Reached planner G first s)
    (hrun : run G planner s actions = some s') :
    Written g s' (collected ++ collectedHooks G planner s actions) := by
  induction actions generalizing s collected with
  | nil =>
      obtain rfl := Option.some.inj hrun
      rwa [collectedHooks, List.append_nil]
  | cons action actions ih =>
      rw [State.run, Option.bind_eq_some_iff] at hrun
      obtain ⟨t, ht, hrest⟩ := hrun
      have hstep := step_of_eq ht
      have hrun := ih (h.step hreach hglobal hstep) (.tail hreach hstep) hrest
      rwa [collectedHooks, ht, ← List.append_assoc]

/-! ## Isolation -/

omit [DecidableEq ι] in
theorem sample_congr {store store' : Store ι V} {x : ι}
    (h : ∀ k ≤ T, (store x)[k]? = (store' x)[k]?) : G.sample store T x = G.sample store' T x := by
  rw [Graph.sample, Graph.sample]
  split
  · exact OrderedMap.floor?_congr h
  · exact h T le_rfl

/-- Once a transaction is registered, what it reads of a `GlobalCellLoop` does not change. -/
theorem sample_step (hreach : Reached planner G first s)
    (hglobal : (G.primitive g).isGlobalCellLoop = true) (hregistered : s.Registered T)
    (hstep : Step G planner s s') : G.sample s'.store T g = G.sample s.store T g := by
  obtain ⟨registered, hsim⟩ := hreach.simulated
  have hsame : s'.store g = s.store g → G.sample s'.store T g = G.sample s.store T g := by
    intro hstore
    apply sample_congr
    intro k _
    rw [hstore]
  rcases hsim.global_cases hreach.recorded hglobal hstep with
    ⟨hstore, -, -⟩ | ⟨T', hstore, -, -⟩ | ⟨T', rest, hfront, rfl⟩
  · exact hsame hstore
  · exact hsame hstore
  · refine sample_congr fun k hk => ?_
    have hne : k ≠ T' := (hk.trans_lt (hregistered.lt_front hsim hfront)).ne
    rw [applyHooks_getElem?, if_neg hne]

theorem sample_steps (hreach : Reached planner G first s)
    (hglobal : (G.primitive g).isGlobalCellLoop = true) (hregistered : s.Registered T)
    (hsteps : ReflTransGen (Step G planner) s s') :
    G.sample s'.store T g = G.sample s.store T g := by
  have hboth : s'.Registered T ∧ G.sample s'.store T g = G.sample s.store T g := by
    induction hsteps with
    | refl => exact ⟨hregistered, rfl⟩
    | tail hsteps hstep ih =>
        have hreach' := hreach.trans hsteps
        obtain ⟨registered, hsim⟩ := Reached.simulated hreach'
        exact ⟨hsim.registered_step hstep ih.1,
          (sample_step hreach' hglobal ih.1 hstep).trans ih.2⟩
  exact hboth.2

theorem Written.sample_register {collected : List (ID × List (Hook ι V))}
    (h : Written g s collected) (hglobal : (G.primitive g).isGlobalCellLoop = true)
    (hsim : Simulated planner G first s registered s.oldest) {rest : List ExecutorMessage}
    (hfront : s.executorMessages = .registerTransaction T :: rest) :
    G.sample (applyHooks T s.executor.beforeUpdateHooks s.store) T g = lastCollected g collected := by
  have hcell : (G.primitive g).isCell = true := by
    cases hprimitive : G.primitive g <;>
      simp_all [Primitive.isGlobalCellLoop, Primitive.isCell]
  have hkeys : ∀ k ∈ s.store g, k < T := fun k hk => (h.keys k hk).lt_front hsim hfront
  rw [Graph.sample, if_pos hcell, CellInternal.sample, floor?_applyHooks hkeys fun _ => le_rfl,
    h.latest T hkeys]

theorem Written.sample_run {collected : List (ID × List (Hook ι V))} (h : Written g s collected)
    (hglobal : (G.primitive g).isGlobalCellLoop = true) (hreach : Reached planner G first s)
    {actions : List (Action ι V)}
    (hregister : s.executorMessages.head? = some (.registerTransaction T))
    (hrun : State.run G planner s (.executor :: actions) = some s') :
    G.sample s'.store T g = lastCollected g collected := by
  obtain ⟨registered, hsim⟩ := hreach.simulated
  obtain ⟨rest, hfront⟩ := List.head?_eq_some_iff.mp hregister
  rw [State.run, Option.bind_eq_some_iff] at hrun
  obtain ⟨t, ht, hrest⟩ := hrun
  have hstep : Step G planner s t := step_of_eq ht
  have hregistered : t.Registered T := by
    rw [State.step, hfront] at ht
    obtain rfl := Option.some.inj ht
    exact registered_front hsim hfront
  calc G.sample s'.store T g = G.sample t.store T g :=
        sample_steps (.tail hreach hstep) hglobal hregistered (steps_of_run hrest)
    _ = lastCollected g collected := by
        rw [State.step, hfront] at ht
        obtain rfl := Option.some.inj ht
        exact h.sample_register hglobal hsim hfront

/-- Reads of a `GlobalCellLoop` are isolated: from its registration on, a transaction reads the value
of the last hook for it which the transactions finalised before that have collected, the youngest
that has one first; or nothing if none has one. -/
theorem globalCellLoop_isolated (hglobal : (G.primitive g).isGlobalCellLoop = true)
    {actions actions' : List (Action ι V)}
    (hrun : run G planner (State.init G first) actions = some s)
    (hregister : s.executorMessages.head? = some (.registerTransaction T))
    (hrun' : run G planner s (.executor :: actions') = some s') :
    (collectedHooks G planner (State.init G first) actions).map Prod.fst = s.finalized ∧
      s.finalized.Pairwise (· < ·) ∧
      G.sample s'.store T g =
        lastCollected g (collectedHooks G planner (State.init G first) actions) := by
  have hreach : Reached planner G first s := steps_of_run hrun
  obtain ⟨registered, hsim⟩ := hreach.simulated
  have hwritten : Written g s (collectedHooks G planner (State.init G first) actions) := by
    simpa using written_init.run hglobal .refl hrun
  refine ⟨hwritten.ids, ?_, hwritten.sample_run hglobal hreach hregister hrun'⟩
  rw [hsim.finalized]
  exact List.pairwise_lt_range'

/-! ## A run with feedback -/

theorem run_append (s : State ι V) (actions actions' : List (Action ι V)) :
    run G planner s (actions ++ actions') =
      (run G planner s actions).bind fun s => run G planner s actions' := by
  induction actions generalizing s with
  | nil => rfl
  | cons action actions ih =>
      rw [List.cons_append, run, run, Option.bind_assoc]
      congr 1
      funext t
      exact ih t

/-- User threads act, and the threads of the program take turns before they act again. -/
def sessions (G : Graph ι V) (planner : Planner) (fuel : ℕ) :
    State ι V → List (List (Action ι V)) → List (Action ι V)
  | _, [] => []
  | s, users :: rest =>
      let actions := users ++ (run G planner s users).elim [] (turns G planner fuel)
      actions ++ (run G planner s actions).elim [] fun s => sessions G planner fuel s rest

/-- The state a run of a program whose build transaction has id 0 ends in. -/
def after (G : Graph ι V) (planner : Planner) (actions : List (Action ι V)) : State ι V :=
  (run G planner (State.init G 0) actions).getD (State.init G 0)

theorem run_after {actions : List (Action ι V)}
    (h : (run G planner (State.init G 0) actions).isSome) :
    run G planner (State.init G 0) actions = some (after G planner actions) := by
  obtain ⟨s, hs⟩ := Option.isSome_iff_exists.mp h
  rw [after, hs, Option.getD_some]

theorem run_after_append {actions actions' : List (Action ι V)}
    (h : (run G planner (State.init G 0) (actions ++ actions')).isSome) :
    run G planner (after G planner actions) actions' =
      some (after G planner (actions ++ actions')) := by
  have hboth := run_after h
  rw [run_append, Option.bind_eq_some_iff] at hboth
  obtain ⟨s, hs, hrest⟩ := hboth
  have hlast : after G planner actions = s := by rw [after, hs, Option.getD_some]
  rw [hlast, hrest]

end State

/-- A `snapshot` of a sink and of a `GlobalCellLoop` in one cluster, a `map` of the sink in a second,
and in a third the `hold` of the two merged, to which the `GlobalCellLoop` is looped. -/
def feedbackLoop : Graph (Fin 6) ℕ :=
  Graph.ofProgram (List.finRange 6)
    ![.streamSink, .globalCellLoop (some 5), .snapshot (fun n ms => n + ms.sum) 0 [1],
      .streamMap id 0, .merge (· + ·) 2 3, .hold 0 4]
    Fin.val ![0, 1, 1, 2, 3, 3] ![.zero, .zero, Rank.ofNat 1, .zero, .zero, Rank.ofNat 1]
    (fun c => ([0, 1, 1, 2].map Rank.ofNat)[c]?.getD .zero) ![0, 0, 1, 0, 0, 0]
    (by decide) (by decide) (by decide) (by decide)

/-- The build transaction runs to its end, then a second is created. -/
def buildOnly : List (Action (Fin 6) ℕ) :=
  State.sessions feedbackLoop .simple 100 (State.init feedbackLoop 0)
    [[.register, .afterBuildHook, .commit 0]] ++ [.register]

/-- The build transaction, then one that sends 5, each up to its end; then a third is created. -/
def sendFive : List (Action (Fin 6) ℕ) :=
  State.sessions feedbackLoop .simple 100 (State.init feedbackLoop 0)
    [[.register, .afterBuildHook, .commit 0], [.register, .send 1 0 5, .commit 1]] ++ [.register]

/-- A `GlobalCellLoop` outside the cluster of the `snapshot` that samples it and of the `hold` it is
looped to, which keeps the sum of all that has been sent. -/
def runningSum : Graph (Fin 4) ℕ :=
  Graph.ofProgram (List.finRange 4)
    ![.globalCellLoop (some 3), .streamSink, .snapshot (fun n ms => n + ms.sum) 1 [0], .hold 0 2]
    Fin.val ![1, 0, 2, 2] ![.zero, .zero, .zero, Rank.ofNat 1]
    (fun c => if c = 2 then Rank.ofNat 1 else .zero) ![0, 0, 1, 0]
    (by decide) (by decide) (by decide) (by decide)

/-- The build transaction, and one that sends 1. -/
def sendOne : List (Action (Fin 4) ℕ) :=
  State.sessions runningSum .simple 100 (State.init runningSum 0)
    [[.register, .afterBuildHook, .commit 0], [.register, .send 1 1 1, .commit 1]]

/-- Then one that sends 2. -/
def sendTwo : List (Action (Fin 4) ℕ) :=
  State.sessions runningSum .simple 100 (State.init runningSum 0)
    [[.register, .afterBuildHook, .commit 0], [.register, .send 1 1 1, .commit 1],
      [.register, .send 2 1 2, .commit 2]]

namespace State

theorem globalCellLoop_isolated_sendFive :
    (collectedHooks feedbackLoop .simple (State.init feedbackLoop 0) sendFive).map Prod.fst =
        (after feedbackLoop .simple sendFive).finalized ∧
      (after feedbackLoop .simple sendFive).finalized.Pairwise (· < ·) ∧
      feedbackLoop.sample (after feedbackLoop .simple (sendFive ++ [.executor])).store 2 1 =
        lastCollected 1 (collectedHooks feedbackLoop .simple (State.init feedbackLoop 0) sendFive) :=
  globalCellLoop_isolated (g := (1 : Fin 6)) (T := 2) rfl (run_after (by decide +kernel))
    (by decide +kernel) (run_after_append (by decide +kernel))

end State

end Prf
