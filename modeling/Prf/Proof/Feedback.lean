import Prf.Proof.Isolation
import Prf.Source

/-!
# Feedback through a `GlobalCellLoop`

A `GlobalCellLoop` `g` looped to `c` is updated after `c` has been sent, and leaves a hook that writes
the value of `c` when the next transaction is registered. The request to update `g` is an ordinary
target of its cluster, although no link leads there from the cluster of `c`: it is lost when the
cluster has already taken its targets. Where that never happens, the last value sent to `c` arrives.
-/

namespace Prf

open Relation

variable {ι V : Type} [DecidableEq ι]

variable {G : Graph ι V} {g c : ι}

omit [DecidableEq ι] in
theorem listens_globalCellLoop (hloop : G.primitive g = .globalCellLoop (some c)) {x : ι} :
    x ∈ (G.primitive g).listens ↔ x = c := by
  simp [hloop, Primitive.listens, Primitive.listenTo, Primitive.listenOverLoop,
    Primitive.globalListen]

omit [DecidableEq ι] in
theorem updater_globalCellLoop (hloop : G.primitive g = .globalCellLoop (some c))
    {sample : ι → Option V} {res : Option V} {hooks : List (Hook ι V)}
    (h : (G.primitive g).updater g sample = .ok (res, hooks)) :
    ∃ value, sample c = some value ∧ res = none ∧ hooks = [⟨g, value⟩] := by
  cases hc : sample c with
  | none => simp [hloop, Primitive.updater, Primitive.unsafeSample, hc, bind, Except.bind] at h
  | some value =>
      simp only [hloop, Primitive.updater, Primitive.unsafeSample, hc, bind, Except.bind, pure,
        Except.pure, Except.ok.injEq, Prod.mk.injEq] at h
      exact ⟨value, rfl, h.1.symm, h.2.symm⟩

namespace State

variable {planner : Planner} {first : ID} {s s' : State ι V} {registered T : ID}

/-! ## From the send to the hook -/

/-- The value the hooks of `T` will write to `g`, as far as they have been collected. -/
def carried (G : Graph ι V) (g : ι) (s : State ι V) (T : ID) : Option V :=
  lastHook g (s.executor.beforeUpdateHooksBuffers T ++
    (s.phaseOf T (G.clusterId g)).elim [] TaskPhase.hooks)

structure Feeding (G : Graph ι V) (g c : ι) (s : State ι V) : Prop where
  home : ∀ T c' phase, s.phaseOf T c' = some phase →
    ∀ hook ∈ phase.hooks, G.clusterId hook.cell = c'
  hooked : ∀ T, s.carried G g T ≠ none → lastSent s.trace T c ≠ none
  current : ∀ T value, s.oldest ≤ T → lastSent s.trace T c = some value →
    s.Requested G g T ∨ s.carried G g T = some value

theorem caused_globalCellLoop (hloop : G.primitive g = .globalCellLoop (some c))
    (h : s.Caused G T g) : lastSent s.trace T c ≠ none := by
  obtain ⟨x, hlistens, hsent⟩ := h
  rwa [(listens_globalCellLoop hloop).mp hlistens] at hsent

theorem home_step (h : Feeding G g c s) (hsim : Simulated planner G first s registered s.oldest)
    (hstep : Step G planner s s') :
    ∀ T c' phase, s'.phaseOf T c' = some phase → ∀ hook ∈ phase.hooks, G.clusterId hook.cell = c' := by
  have hwf := hsim.wellFormed
  cases hstep
  case start T c rest hfront hrunning hfresh =>
    exact forall_phase_append h.home (hsim.phaseOf_none_of_fresh hrunning hfresh) rfl
      (by simp [TaskPhase.hooks])
  case announce hi => exact forall_phase_set hwf h.home hi rfl (by simp [TaskPhase.hooks])
  case generate i T c hi =>
    refine forall_phase_set hwf h.home hi rfl ?_
    rw [TaskPhase.hooks, (G.generateSubTransaction_snd_fields (s.inner T) c).2.2.2]
    simp
  case update i T c sub sub' r x rest store hi hfront hupdate =>
    have hphase := phaseOf_of_getElem? hwf.tasks_nodup hi
    have hsub := hwf.sub T c sub hphase
    have hx : G.clusterId x = c :=
      (hsub.wellQueued.inside x (hsub.wellQueued.mem_inside hfront)).trans hsub.updatingCluster
    have hhome := h.home T c _ hphase
    refine forall_phase_set hwf h.home hi rfl fun hook hhook => ?_
    rw [TaskPhase.hooks] at hhook
    rcases Graph.update_cases hupdate with ⟨hooks, hupd, -, rfl⟩ | ⟨value, hooks, hupd, -, rfl⟩
    · rcases List.mem_append.mp hhook with hin | hin
      · exact hhome hook hin
      · rw [((updater_hooks hupd).2 hook hin).1, hx]
    · rw [Graph.send_hooks] at hhook
      rcases List.mem_append.mp hhook with hin | hin
      · exact hhome hook hin
      · rw [((updater_hooks hupd).2 hook hin).1, hx]
  case collect i T c sub hi hfront =>
    have hhome := h.home T c _ (phaseOf_of_getElem? hwf.tasks_nodup hi)
    exact forall_phase_set hwf h.home hi rfl hhome
  case buffer hi => exact forall_phase_set hwf h.home hi rfl (by simp [TaskPhase.hooks])
  case finish hi => exact forall_phase_set hwf h.home hi rfl (by simp [TaskPhase.hooks])
  all_goals exact h.home

def Hooked (G : Graph ι V) (g c : ι) (s s' : State ι V) (T : ID) : Prop :=
  ∃ value, lastSent s.trace T c = some value ∧ s'.carried G g T = some value

theorem hooked_of_update (hrequests : Requests G s) (hloop : G.primitive g = .globalCellLoop (some c))
    (hsim : Simulated planner G first s registered s.oldest) (hvalues : Stored G s) {i : ℕ}
    {c' : ID} {sub sub' : InnerTransaction ι V} {r : ℕ} {rest : List (ℕ × ι)} {store : Store ι V}
    (hi : s.tasks[i]? = some ⟨T, c', .executing sub⟩) (hfront : sub.executor = (r, g) :: rest)
    (hupdate : G.update g s.store (sub.pop g rest) = .ok (store, sub'))
    (htasks : s'.tasks = s.tasks.set i ⟨T, c', .executing sub'⟩)
    (hexecutor : s'.executor = s.executor) : Hooked G g c s s' T := by
  have hwf := hsim.wellFormed
  have hphase : s.phaseOf T c' = some (.executing sub) := phaseOf_of_getElem? hwf.tasks_nodup hi
  have hsub := hwf.sub T c' sub hphase
  have hin := hsub.wellQueued.mem_inside hfront
  have hhome : G.clusterId g = c' := (hsub.wellQueued.inside g hin).trans hsub.updatingCluster
  obtain ⟨value, hvalue⟩ := Option.ne_none_iff_exists'.mp
    (caused_globalCellLoop hloop (hrequests.working T c' _ hphase sub rfl g (.inr hin)))
  have hsample := hvalues.sample_of_sent (hsim.task_bounds hphase (by simp)).2.1 hvalue
  refine ⟨value, hvalue, ?_⟩
  rcases Graph.update_cases hupdate with ⟨hooks, hupd, -, rfl⟩ | ⟨value', hooks, hupd, -, -⟩
  · obtain ⟨value', hvalue', -, rfl⟩ := updater_globalCellLoop hloop hupd
    have hid : (sub.pop g rest).id = T := hsub.id
    rw [hid, hsample] at hvalue'
    obtain rfl := Option.some.inj hvalue'
    rw [carried, phaseOf_of_set hwf hi htasks, if_pos ⟨rfl, hhome⟩, hexecutor]
    simp only [Option.elim_some, TaskPhase.hooks, Graph.withHooks]
    rw [← List.append_assoc, lastHook_append]
    simp [lastHook]
  · obtain ⟨-, -, hnone, -⟩ := updater_globalCellLoop hloop hupd
    cases hnone

theorem requested_step (hrequests : Requests G s) (hloop : G.primitive g = .globalCellLoop (some c))
    (hintime : s.InTime G g) (hsim : Simulated planner G first s registered s.oldest)
    (hvalues : Stored G s) (hstep : Step G planner s s') {T : ID} (hrequested : s.Requested G g T) :
    s'.Requested G g T ∨ Hooked G g c s s' T := by
  rcases hrequested.step hrequests hintime hsim hvalues hstep with hstill | hupdates
  · exact .inl hstill
  · obtain ⟨i, c', sub, sub', r, rest, store, hi, hfront, hupdate, rfl⟩ := hupdates
    exact .inr (hooked_of_update hrequests hloop hsim hvalues hi hfront hupdate rfl rfl)

omit [DecidableEq ι] in
theorem hooks_eq_of_set (hwf : WellFormed G s) {i : ℕ} {T' c' : ID} {phase phase' : TaskPhase ι V}
    (hi : s.tasks[i]? = some ⟨T', c', phase⟩) (htasks : s'.tasks = s.tasks.set i ⟨T', c', phase'⟩)
    (hhooks : phase'.hooks = phase.hooks) (T c : ID) :
    (s'.phaseOf T c).elim [] TaskPhase.hooks = (s.phaseOf T c).elim [] TaskPhase.hooks := by
  rw [phaseOf_of_set hwf hi htasks]
  split
  · rename_i heq
    obtain ⟨rfl, rfl⟩ := heq
    have hget := phaseOf_of_getElem? hwf.tasks_nodup hi
    simp only at hget
    rw [hget, Option.elim_some, Option.elim_some, hhooks]
  · rfl

theorem carried_step (h : Feeding G g c s) (hrequests : Requests G s)
    (hloop : G.primitive g = .globalCellLoop (some c))
    (hsim : Simulated planner G first s registered s.oldest) (hvalues : Stored G s)
    (hstep : Step G planner s s') (T : ID) :
    s'.carried G g T = s.carried G g T ∨ Hooked G g c s s' T ∨
      T < s'.oldest ∧ s'.carried G g T = none := by
  have hwf := hsim.wellFormed
  cases hstep
  case start T' c' rest hfront hrunning hfresh =>
    left
    have hnone := hsim.phaseOf_none_of_fresh hrunning hfresh
    rw [carried, phaseOf_append hnone .queued rfl]
    split
    · rename_i heq
      rw [carried, heq.1, heq.2, hnone]
      rfl
    · rfl
  case announce hi =>
    left
    rw [carried, hooks_eq_of_set hwf hi rfl (by simp [TaskPhase.hooks])]
    rfl
  case generate i T' c' hi =>
    left
    have hhooks := (G.generateSubTransaction_snd_fields (s.inner T') c').2.2.2
    rw [carried, hooks_eq_of_set hwf hi rfl (by rw [TaskPhase.hooks, hhooks]; rfl)]
    rfl
  case update i T' c' sub sub' r x rest store hi hfront hupdate =>
    by_cases hx : T = T' ∧ x = g
    · obtain ⟨rfl, rfl⟩ := hx
      exact .inr (.inl (hooked_of_update hrequests hloop hsim hvalues hi hfront hupdate rfl rfl))
    · left
      rw [carried, carried, phaseOf_of_set hwf hi rfl]
      split
      · rename_i heq
        obtain ⟨rfl, rfl⟩ := heq
        have hget := phaseOf_of_getElem? hwf.tasks_nodup hi
        simp only at hget
        have hsilent : ∀ hooks : List (Hook ι V), (∀ hook ∈ hooks, hook.cell = x) →
            lastHook g hooks = none :=
          fun hooks hhooks => lastHook_eq_none fun hook hin heq =>
            hx ⟨rfl, (hhooks hook hin).symm.trans heq⟩
        rw [hget]
        simp only [Option.elim_some, TaskPhase.hooks, lastHook_append]
        congr 1
        rcases Graph.update_cases hupdate with ⟨hooks, hupd, -, rfl⟩ | ⟨value, hooks, hupd, -, rfl⟩
        · have hcells := fun hook hin => ((updater_hooks hupd).2 hook hin).1
          simp only [Graph.withHooks, lastHook_append, hsilent hooks hcells, Option.none_or]
          rfl
        · have hcells := fun hook hin => ((updater_hooks hupd).2 hook hin).1
          simp only [Graph.send_hooks, Graph.withHooks, lastHook_append, hsilent hooks hcells,
            Option.none_or]
          rfl
      · rfl
  case collect hi hfront =>
    left
    rw [carried, hooks_eq_of_set hwf hi rfl (by simp [TaskPhase.hooks])]
    rfl
  case buffer i T' c' futures hooks hi =>
    left
    have hget := phaseOf_of_getElem? hwf.tasks_nodup hi
    simp only at hget
    have hhome := h.home T' c' _ hget
    rw [carried, carried, phaseOf_of_set hwf hi rfl]
    by_cases hT : T = T'
    · subst hT
      simp only [Function.update_self, true_and]
      split
      · rename_i hc
        rw [hc, hget]
        simp [TaskPhase.hooks]
      · rename_i hc
        have hsilent : lastHook g hooks = none :=
          lastHook_eq_none fun hook hin heq => hc (heq ▸ hhome hook hin)
        simp only [lastHook_append, hsilent, Option.none_or]
    · simp only [Function.update_of_ne hT]
      rw [if_neg fun heq => hT heq.1]
  case finish hi =>
    left
    rw [carried, hooks_eq_of_set hwf hi rfl (by simp [TaskPhase.hooks])]
    rfl
  case finalize T' rest store deliveries hfront hrunning hfinalize =>
    obtain rfl := hsim.finalize_oldest hfront hrunning
    by_cases hT : T = s.oldest
    · refine .inr (.inr ⟨?_, ?_⟩)
      · have hlt : T < s.oldest + 1 := hT ▸ Nat.lt_succ_self _
        apply hlt.trans_eq
        symm
        exact oldest_finalize rfl rfl
      · have hended : (s.phaseOf T (G.clusterId g)).elim [] TaskPhase.hooks = [] := by
          cases hphase : s.phaseOf T (G.clusterId g) with
          | none => rfl
          | some phase =>
              obtain rfl := hsim.finished hfront (hT ▸ hphase)
              rfl
        have hbuffers : Function.update s.executor.beforeUpdateHooksBuffers s.oldest [] T = [] := by
          rw [hT, Function.update_self]
        refine (congrArg (lastHook g) (congrArg₂ (· ++ ·) hbuffers hended)).trans ?_
        simp [lastHook]
    · left
      simp only [carried, Function.update_of_ne hT]
      rfl
  all_goals exact .inl rfl

theorem Feeding.step (h : Feeding G g c s) (hrequests : Requests G s) (hloop : G.primitive g = .globalCellLoop (some c))
    (htop : (G.primitive c).isSink = true ∨ (G.primitive c).initialValue ≠ none →
      G.clusterId g ≠ unmanagedClusterId)
    (hintime : s.InTime G g) (hsim : Simulated planner G first s registered s.oldest)
    (hvalues : Stored G s) (hstep : Step G planner s s') : Feeding G g c s' where
  home := home_step h hsim hstep
  hooked T hcarried := by
    rcases carried_step h hrequests hloop hsim hvalues hstep T with hsame | ⟨value, hvalue, -⟩ | ⟨-, hnone⟩
    · exact hstep.sent_mono (h.hooked T (hsame ▸ hcarried))
    · exact hstep.sent_mono (by simp [hvalue])
    · exact absurd hnone hcarried
  current T value hle hvalue := by
    have hlistens := (listens_globalCellLoop hloop).mpr rfl
    rcases requested_of_sent hlistens htop hsim hvalues hstep T with hsent | hrequested
    · rw [hsent] at hvalue
      have hhooked : Hooked G g c s s' T → s'.carried G g T = some value := by
        rintro ⟨value', hvalue', hcarried⟩
        rw [hcarried, ← hvalue', hvalue]
      rcases h.current T value (hstep.oldest_le.trans hle) hvalue with hrequested | hcarried
      · exact (requested_step hrequests hloop hintime hsim hvalues hstep hrequested).imp id hhooked
      · rcases carried_step h hrequests hloop hsim hvalues hstep T with hsame | hnew | ⟨hlt, -⟩
        · exact .inr (hsame.trans hcarried)
        · exact .inr (hhooked hnew)
        · exact absurd hlt (not_lt.mpr hle)
    · exact .inl hrequested

/-! ## Over a run -/

theorem Feeding.finalized (h : Feeding G g c s)
    (hsim : Simulated planner G first s registered s.oldest) {rest : List ExecutorMessage}
    (hfront : s.executorMessages = .finalizeTransaction s.oldest :: rest) :
    lastHook g (s.executor.beforeUpdateHooksBuffers s.oldest) = lastSent s.trace s.oldest c := by
  have hcarried : s.carried G g s.oldest =
      lastHook g (s.executor.beforeUpdateHooksBuffers s.oldest) := by
    rw [carried]
    cases hphase : s.phaseOf s.oldest (G.clusterId g) with
    | none => rw [Option.elim_none, List.append_nil]
    | some phase =>
        obtain rfl := hsim.finished hfront hphase
        simp [TaskPhase.hooks]
  rw [← hcarried]
  cases hsent : lastSent s.trace s.oldest c with
  | none =>
      by_contra hsome
      exact h.hooked _ hsome hsent
  | some value => exact (h.current _ value le_rfl hsent).resolve_left (hsim.not_requested hfront g)

theorem Simulated.finalized_cases (hsim : Simulated planner G first s registered s.oldest)
    (hstep : Step G planner s s') :
    s'.finalized = s.finalized ∨ ∃ rest, s.executorMessages = .finalizeTransaction s.oldest :: rest ∧
      s'.finalized = s.finalized ++ [s.oldest] ∧
      ∀ T x, lastSent s'.trace T x = lastSent s.trace T x := by
  cases hstep.writes with
  | nothing hsame => exact .inl (by rw [State.finalized, hsame, State.finalized])
  | send _ htrace => exact .inl (finalized_append htrace (by simp [Event.finalized?]))
  | update hupdates =>
      exact .inl (finalized_append hupdates.trace_eq (finalized?_updateEvents _ _ _))
  | finalize hfront hrunning _ htrace =>
      obtain rfl := hsim.finalize_oldest hfront hrunning
      refine .inr ⟨_, hfront, finalized_finalize htrace, fun T x => ?_⟩
      rw [htrace, lastSent_finalize]

/-- The hooks that finalised transactions have collected write the values of `c`. -/
def Faithful (g c : ι) (s : State ι V) (collected : List (ID × List (Hook ι V))) : Prop :=
  ∀ entry ∈ collected, lastHook g entry.2 = lastSent s.trace entry.1 c

theorem Faithful.step {collected : List (ID × List (Hook ι V))} (h : Faithful g c s collected)
    (hids : collected.map Prod.fst = s.finalized) (hfeeding : Feeding G g c s)
    (hsim : Simulated planner G first s registered s.oldest) (hstep : Step G planner s s') :
    Faithful g c s' (collected ++ (s'.finalized.drop s.finalized.length).map
      fun U => (U, s.executor.beforeUpdateHooksBuffers U)) := by
  intro entry hentry
  rcases List.mem_append.mp hentry with hin | hin
  · have hfinalized : entry.1 ∈ s.finalized := hids ▸ List.mem_map_of_mem hin
    rw [h entry hin, hsim.lastSent_step hstep (hsim.mem_finalized.mp hfinalized).2]
  · rcases hsim.finalized_cases hstep with hsame | ⟨rest, hfront, hnew, hsent⟩
    · simp [hsame] at hin
    · rw [hnew, List.drop_left, List.map_singleton, List.mem_singleton] at hin
      rw [hin, hsent]
      exact hfeeding.finalized hsim hfront

theorem feeding_init : Feeding G g c (State.init G first) where
  home := by simp [State.init, phaseOf]
  hooked T hcarried := by simp [State.init, carried, phaseOf, lastHook] at hcarried
  current T value _ hvalue := by simp [State.init, lastSent] at hvalue

theorem Faithful.run {actions : List (Action ι V)} {collected : List (ID × List (Hook ι V))}
    (hloop : G.primitive g = .globalCellLoop (some c))
    (htop : (G.primitive c).isSink = true ∨ (G.primitive c).initialValue ≠ none →
      G.clusterId g ≠ unmanagedClusterId)
    (h : Faithful g c s collected) (hwritten : Written g s collected) (hfeeding : Feeding G g c s)
    (hreach : Reached planner G first s) (hrun : State.run G planner s actions = some s')
    (hintime : ∀ actions₁ s₁, actions₁ <+: actions → State.run G planner s actions₁ = some s₁ →
      s₁.InTime G g) :
    Faithful g c s' (collected ++ collectedHooks G planner s actions) := by
  have hglobal : (G.primitive g).isGlobalCellLoop = true := by rw [hloop]; rfl
  induction actions generalizing s collected with
  | nil =>
      obtain rfl := Option.some.inj hrun
      rwa [collectedHooks, List.append_nil]
  | cons action actions ih =>
      rw [State.run, Option.bind_eq_some_iff] at hrun
      obtain ⟨t, ht, hrest⟩ := hrun
      have hstep := step_of_eq ht
      obtain ⟨registered, hsim⟩ := hreach.simulated
      have hnow : s.InTime G g := hintime [] s List.nil_prefix rfl
      have hlater : ∀ actions₁ s₁, actions₁ <+: actions → State.run G planner t actions₁ = some s₁ →
          s₁.InTime G g := by
        intro actions₁ s₁ hprefix hrun₁
        apply hintime (action :: actions₁) s₁ (List.prefix_cons_inj action |>.mpr hprefix)
        rw [State.run, ht, Option.bind_some, hrun₁]
      have hrun := ih (h.step hwritten.ids hfeeding hsim hstep)
        (hwritten.step hreach hglobal hstep)
        (hfeeding.step hreach.requests hloop htop hnow hsim hreach.recorded.values hstep)
        (.tail hreach hstep) hrest hlater
      rwa [collectedHooks, ht, ← List.append_assoc]

theorem Faithful.lastCollected_eq {collected : List (ID × List (Hook ι V))}
    (h : Faithful g c s collected) (hids : collected.map Prod.fst = s.finalized)
    (hsorted : s.finalized.Pairwise (· < ·)) {U : ID} {value : V} (hU : U ∈ s.finalized)
    (hsent : lastSent s.trace U c = some value)
    (hlast : ∀ U' ∈ s.finalized, U < U' → lastSent s.trace U' c = none) :
    lastCollected g collected = some value := by
  have hvalues : (collected.filterMap fun entry => lastHook g entry.2) =
      s.finalized.filterMap fun T => lastSent s.trace T c := by
    rw [← hids, List.filterMap_map]
    exact List.filterMap_congr h
  obtain ⟨older, younger, hsplit⟩ := List.append_of_mem hU
  rw [hsplit, List.pairwise_append, List.pairwise_cons] at hsorted
  have hnone : (younger.filterMap fun T => lastSent s.trace T c) = [] := by
    rw [List.filterMap_eq_nil_iff]
    intro U' hU'
    exact hlast U' (by simp [hsplit, hU']) (hsorted.2.1.1 U' hU')
  have hcons : ((U :: younger).filterMap fun T => lastSent s.trace T c) = [value] := by
    rw [List.filterMap_cons_some (b := value) (by exact hsent), hnone]
  rw [lastCollected, hvalues, hsplit, List.filterMap_append, hcons, List.getLast?_concat]

/-- Feedback is not lost where the requests for `g` come in time: the last value sent to `c` in a
transaction finalised before `T` is registered is what `T` reads of `g`. -/
theorem feedback_kept (hloop : G.primitive g = .globalCellLoop (some c))
    (htop : (G.primitive c).isSink = true ∨ (G.primitive c).initialValue ≠ none →
      G.clusterId g ≠ unmanagedClusterId)
    {actions actions' : List (Action ι V)}
    (hrun : run G planner (State.init G first) actions = some s)
    (hintime : ∀ actions₁ s₁, actions₁ <+: actions →
      run G planner (State.init G first) actions₁ = some s₁ → s₁.InTime G g)
    (hregister : s.executorMessages.head? = some (.registerTransaction T))
    (hrun' : run G planner s (.executor :: actions') = some s') {U : ID} {value : V}
    (hU : U ∈ s.finalized) (hsent : lastSent s.trace U c = some value)
    (hlast : ∀ U' ∈ s.finalized, U < U' → lastSent s.trace U' c = none) :
    G.sample s'.store T g = some value := by
  have hreach : Reached planner G first s := steps_of_run hrun
  have hglobal : (G.primitive g).isGlobalCellLoop = true := by rw [hloop]; rfl
  obtain ⟨registered, hsim⟩ := hreach.simulated
  have hwritten : Written g s (collectedHooks G planner (State.init G first) actions) := by
    simpa using written_init.run hglobal .refl hrun
  have hfaithful : Faithful g c s (collectedHooks G planner (State.init G first) actions) := by
    have hempty : Faithful g c (State.init G first) [] := by simp [Faithful]
    simpa using hempty.run hloop htop written_init feeding_init .refl hrun hintime
  have hsorted : s.finalized.Pairwise (· < ·) := by
    rw [hsim.finalized]
    exact List.pairwise_lt_range'
  rw [hwritten.sample_run hglobal hreach hregister hrun']
  exact hfaithful.lastCollected_eq hwritten.ids hsorted hU hsent hlast

theorem forall_initial_runs {P : State ι V → Prop} {actions : List (Action ι V)}
    (h : ∀ n ≤ actions.length, ∀ s₁ ∈ run G planner s (actions.take n), P s₁) :
    ∀ actions₁ s₁, actions₁ <+: actions → run G planner s actions₁ = some s₁ → P s₁ := by
  intro actions₁ s₁ hprefix hrun
  rw [List.prefix_iff_eq_take.mp hprefix] at hrun
  exact h _ hprefix.length_le s₁ hrun

theorem feedback_kept_buildOnly :
    feedbackLoop.sample (after feedbackLoop .simple (buildOnly ++ [.executor])).store 1 1 = some 0 :=
  feedback_kept (T := 1) (U := 0) (c := (5 : Fin 6)) rfl (by decide) (run_after (by decide +kernel))
    (forall_initial_runs (by decide +kernel)) (by decide +kernel) (run_after_append (by decide +kernel))
    (by decide +kernel) (by decide +kernel) (by decide +kernel)

end State

/-! ## A program that loses it -/

/-- The calls that write `feedbackLoop`, with a `Cluster` object for each of its three clusters. -/
def feedbackCalls : List (Call ℕ) :=
  [.make 0 .streamSink, .cluster "A", .make 1 (.globalCellLoop none),
    .make 2 (.snapshot (fun n ms => n + ms.sum) 0 [1]), .close 0,
    .cluster "C", .make 3 (.streamMap id 0), .close 1,
    .cluster "B", .make 4 (.merge (· + ·) 2 3), .make 5 (.hold 0 4), .close 2,
    .loop 1 5, .listen 2]

/-- The program these calls write. -/
def feedbackWritten : Source ℕ :=
  match Source.start.run feedbackCalls with
  | some (.ok s) => s
  | _ => .start

/-- What the build makes of it. -/
def feedbackBuilt : NodeManager :=
  match feedbackWritten.program.manager.build 10 with
  | some (.ok built) => built
  | _ => NodeManager.empty

theorem build_feedbackWritten :
    feedbackWritten.program.manager.build 10 = some (.ok feedbackBuilt) := by
  have hok : (match feedbackWritten.program.manager.build 10 with
      | some (.ok _) => true
      | _ => false) = true := by decide +kernel
  rw [feedbackBuilt]
  split at hok
  case h_1 built hbuilt => rw [hbuilt]
  case h_2 => cases hok

/-- The ids and ranks of `feedbackLoop` are those the build assigns. -/
theorem describes_feedbackLoop :
    feedbackWritten.Describes feedbackBuilt Fin.val feedbackLoop where
  nodes := by decide +kernel
  primitive x := by fin_cases x <;> rfl
  listners := by decide +kernel
  listeners := by decide +kernel
  clusterId := by decide +kernel
  inClusterRank := by decide +kernel
  clusterRanks := by
    have hranks : feedbackBuilt.clusterRanks = [0, 1, 1, 2].map Rank.ofNat := by decide +kernel
    intro c
    rw [hranks]
    rfl

namespace State

/-- The second transaction sends 10 to the `hold` and is finalised, and the third still reads 0: the
cluster of the `GlobalCellLoop` has already run when the `hold` asks for it. -/
theorem feedback_lost_sendFive :
    Source.start.run feedbackCalls = some (.ok feedbackWritten) ∧
      feedbackWritten.program.manager.build 10 = some (.ok feedbackBuilt) ∧
      feedbackWritten.Describes feedbackBuilt Fin.val feedbackLoop ∧
      feedbackLoop.primitive 1 = .globalCellLoop (some 5) ∧
      (∀ x y, x ∈ (feedbackLoop.primitive y).links →
        feedbackLoop.clusterId x ≠ feedbackLoop.clusterId y →
        (feedbackLoop.clusterRanks (feedbackLoop.clusterId x)).value <
          (feedbackLoop.clusterRanks (feedbackLoop.clusterId y)).value) ∧
      ¬ ∀ s s' T U value, run feedbackLoop .simple (State.init feedbackLoop 0) sendFive = some s →
        s.executorMessages.head? = some (.registerTransaction T) →
        run feedbackLoop .simple s [.executor] = some s' → U ∈ s.finalized →
        lastSent s.trace U 5 = some value →
        (∀ U' ∈ s.finalized, U < U' → lastSent s.trace U' 5 = none) →
        feedbackLoop.sample s'.store T 1 = some value := by
  refine ⟨rfl, build_feedbackWritten, describes_feedbackLoop, rfl, by decide, fun hclaim => ?_⟩
  have hread := hclaim _ _ 2 1 10 (run_after (by decide +kernel)) (by decide +kernel)
    (run_after_append (by decide +kernel)) (by decide +kernel) (by decide +kernel)
    (by decide +kernel)
  have hzero : feedbackLoop.sample
      (after feedbackLoop .simple (sendFive ++ [.executor])).store 2 1 = some 0 := by
    decide +kernel
  rw [hzero] at hread
  cases hread

end State

end Prf
