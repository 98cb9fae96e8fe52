import Prf.Meaning
import Prf.Proof.Delivery

/-!
# Where a request comes from, and where it goes

A value is a target of a transaction because something it listens to has been sent in that
transaction. What has been sent in an unfinalised transaction is stored, so an updater that is
called finds a value. The request stays on its way until then, unless it comes after its cluster has
taken its targets.
-/

namespace Prf

open Relation

variable {ι V : Type} [DecidableEq ι] {G : Graph ι V}

def TaskPhase.ended? : TaskPhase ι V → Option (InnerTransaction ι V)
  | executing sub => if sub.executor = [] then some sub else none
  | _ => none

def TaskPhase.taken : TaskPhase ι V → Bool
  | queued | announced => false
  | _ => true

namespace State

variable {planner : Planner} {first : ID} {s s' : State ι V} {registered T : ID}

theorem Step.trace_append (hstep : Step G planner s s') :
    ∃ events, s'.trace = s.trace ++ events := by
  cases hstep.writes with
  | nothing hsame => exact ⟨[], by rw [hsame, List.append_nil]⟩
  | send _ htrace => exact ⟨_, htrace⟩
  | update hupdates => exact ⟨_, hupdates.trace_eq⟩
  | finalize _ _ _ htrace => exact ⟨_, htrace.trans (List.append_assoc _ _ _)⟩

theorem Step.sent_mono (hstep : Step G planner s s') {x : ι}
    (h : lastSent s.trace T x ≠ none) : lastSent s'.trace T x ≠ none := by
  obtain ⟨events, htrace⟩ := hstep.trace_append
  rw [htrace, lastSent_append]
  cases hevents : lastSent events T x with
  | none => simpa using h
  | some value => simp

theorem Step.oldest_le (hstep : Step G planner s s') : s.oldest ≤ s'.oldest := by
  obtain ⟨events, htrace⟩ := hstep.trace_append
  rw [oldest, oldest, hstep.buildTransaction_eq, finalized, finalized, htrace, List.filterMap_append,
    List.length_append]
  lia

def Caused (G : Graph ι V) (s : State ι V) (T : ID) (y : ι) : Prop :=
  ∃ x ∈ (G.primitive y).listens, lastSent s.trace T x ≠ none

theorem Step.caused_mono (hstep : Step G planner s s') {y : ι} (h : s.Caused G T y) :
    s'.Caused G T y :=
  h.imp fun _ hx => ⟨hx.1, hstep.sent_mono hx.2⟩

def Targets (sub : InnerTransaction ι V) (y : ι) : Prop :=
  (∃ d, y ∈ sub.targetsOf d) ∨ y ∈ sub.targetsInsideCurrentCluster

structure Requests (G : Graph ι V) (s : State ι V) : Prop where
  target : ∀ T d y, y ∈ (s.inner T).targetsOf d → s.Caused G T y
  working : ∀ T c phase, s.phaseOf T c = some phase → ∀ sub, phase = .executing sub →
    ∀ y, Targets sub y → s.Caused G T y

omit [DecidableEq ι] in
theorem updated_isSome {store : Store ι V} {x : ι} {value : V} {hooks : List (Hook ι V)}
    (h : (G.primitive x).updater x (G.sample store T) = .ok (some value, hooks)) :
    (updated G store T x).isSome := by
  rw [updated, h]
  rfl

theorem targets_of_update {x y : ι} {sub sub' : InnerTransaction ι V} {rest : List (ℕ × ι)}
    {store store' : Store ι V} (hupdate : G.update x store (sub.pop x rest) = .ok (store', sub'))
    (hy : Targets sub' y) :
    Targets sub y ∨ x ∈ (G.primitive y).listens ∧ (updated G store sub.id x).isSome := by
  rcases Graph.update_cases hupdate with ⟨hooks, hupd, -, rfl⟩ | ⟨value, hooks, hupd, -, rfl⟩
  · exact .inl (hy.imp id Finset.mem_of_mem_erase)
  · rcases hy with ⟨d, hin⟩ | hin
    · rcases (Graph.mem_targetsOf_send G _ x y value store d).mp hin with hin | ⟨hlistens, -, -⟩
      · exact .inl (.inl ⟨d, hin⟩)
      · exact .inr ⟨hlistens, updated_isSome hupd⟩
    · rcases (Graph.mem_inside_send G _ x y value store).mp hin with hin | ⟨hlistens, -⟩
      · exact .inl (.inr (Finset.mem_of_mem_erase hin))
      · exact .inr ⟨hlistens, updated_isSome hupd⟩

namespace Requests

theorem target_topSend (h : Requests G s) (hstep : Step G planner s s') {T' : ID} {x : ι} {value : V}
    (hinner : s'.inner = Function.update s.inner T' (G.send x value s.store (s.inner T')).2)
    (htrace : s'.trace = s.trace ++ [.topSend T' x value]) (T d : ID) (y : ι)
    (hy : y ∈ (s'.inner T).targetsOf d) : s'.Caused G T y := by
  by_cases hT : T = T'
  · subst hT
    rw [hinner, Function.update_self] at hy
    rcases (Graph.mem_targetsOf_send G _ x y value s.store d).mp hy with hin | ⟨hlistens, -, -⟩
    · exact hstep.caused_mono (h.target T d y hin)
    · exact ⟨x, hlistens, by simp [htrace, lastSent_topSend]⟩
  · rw [hinner, Function.update_of_ne hT] at hy
    exact hstep.caused_mono (h.target T d y hy)

theorem target_step (h : Requests G s) (hsim : Simulated planner G first s registered s.oldest)
    (hstep : Step G planner s s') (T d : ID) (y : ι) (hy : y ∈ (s'.inner T).targetsOf d) :
    s'.Caused G T y := by
  have hwf := hsim.wellFormed
  have hold : y ∈ (s.inner T).targetsOf d → s'.Caused G T y :=
    fun hin => hstep.caused_mono (h.target T d y hin)
  cases id hstep
  case register =>
    apply hold
    by_cases hT : T = s.nextTransactionId
    · subst hT
      simp [State.register] at hy
    · simpa only [State.register, Function.update_of_ne hT] using hy
  case afterBuildHook => exact h.target_topSend hstep rfl rfl T d y hy
  case send => exact h.target_topSend hstep rfl rfl T d y hy
  case generate i T' c hi =>
    apply hold
    by_cases hT : T = T'
    · subst hT
      simpa only [Function.update_self, G.targetsOf_generateSubTransaction_fst] using hy
    · simpa only [Function.update_of_ne hT] using hy
  case collect i T' c sub hi hfront =>
    by_cases hT : T = T'
    · subst hT
      simp only [Function.update_self] at hy
      rcases (G.mem_targetsOf_registerExecutionResult _ _ _ _).mp hy with hin | hin
      · exact hold hin
      · exact h.working T c _ (phaseOf_of_getElem? hwf.tasks_nodup hi) sub rfl y (.inl ⟨d, hin⟩)
    · simp only [Function.update_of_ne hT] at hy
      exact hold hy
  all_goals exact hold hy

theorem working_step (h : Requests G s) (hsim : Simulated planner G first s registered s.oldest)
    (hstep : Step G planner s s') :
    ∀ T c phase, s'.phaseOf T c = some phase → ∀ sub, phase = .executing sub →
      ∀ y, Targets sub y → s'.Caused G T y := by
  have hwf := hsim.wellFormed
  have hold : ∀ T c phase, s.phaseOf T c = some phase → ∀ sub, phase = .executing sub →
      ∀ y, Targets sub y → s'.Caused G T y :=
    fun T c phase hphase sub hsub y hy => hstep.caused_mono (h.working T c phase hphase sub hsub y hy)
  cases id hstep
  case start T c rest hfront hrunning hfresh =>
    exact forall_phase_append hold (hsim.phaseOf_none_of_fresh hrunning hfresh) rfl (by simp)
  case announce hi => exact forall_phase_set hwf hold hi rfl (by simp)
  case generate i T c hi =>
    refine forall_phase_set hwf hold hi rfl fun sub hsub y hy => ?_
    obtain rfl := TaskPhase.executing.inj hsub
    apply hstep.caused_mono
    rcases hy with ⟨d, hin⟩ | hin
    · rw [(hwf.inner_wellQueued T).targetsOf_generateSubTransaction] at hin
      exact absurd hin (Finset.notMem_empty y)
    · exact h.target T c y ((G.mem_inside_generateSubTransaction _ _ _).mp hin).1
  case update i T c sub sub' r x rest store hi hfront hupdate =>
    have hphase := phaseOf_of_getElem? hwf.tasks_nodup hi
    have hid : sub.id = T := (hwf.sub T c sub hphase).id
    refine forall_phase_set hwf hold hi rfl fun sub'' hsub y hy => ?_
    obtain rfl := TaskPhase.executing.inj hsub
    rcases targets_of_update hupdate hy with hin | ⟨hlistens, hsome⟩
    · exact hold T c _ hphase sub rfl y hin
    · rw [hid] at hsome
      obtain ⟨value, hvalue⟩ := Option.isSome_iff_exists.mp hsome
      exact ⟨x, hlistens, by simp [lastSent_updateEvents, hvalue]⟩
  case collect hi hfront => exact forall_phase_set hwf hold hi rfl (by simp)
  case buffer hi => exact forall_phase_set hwf hold hi rfl (by simp)
  case finish hi => exact forall_phase_set hwf hold hi rfl (by simp)
  all_goals exact hold

end Requests

theorem requests_init : Requests G (State.init G first) where
  target T d y hy := by simp [State.init] at hy
  working := by simp [State.init, phaseOf]

theorem Reached.requests (h : Reached planner G first s) : Requests G s := by
  induction h with
  | refl => exact requests_init
  | tail hreach hstep ih =>
      obtain ⟨registered, hsim⟩ := Reached.simulated hreach
      exact ⟨ih.target_step hsim hstep, ih.working_step hsim hstep⟩

/-! ## A request on its way -/

variable {g x y : ι}

def Untaken (s : State ι V) (T c : ID) : Prop :=
  ∀ phase, s.phaseOf T c = some phase → phase.taken = false

/-- `g` will be updated in `T`. -/
def Requested (G : Graph ι V) (g : ι) (s : State ι V) (T : ID) : Prop :=
  g ∈ (s.inner T).targetsOf (G.clusterId g) ∧ s.Untaken T (G.clusterId g) ∨
    ∃ c sub, s.phaseOf T c = some (.executing sub) ∧
      (g ∈ sub.targetsOf (G.clusterId g) ∨ g ∈ sub.targetsInsideCurrentCluster)

/-- A task that is about to register a result with `g` among its targets comes before the cluster of
`g` has taken its targets. -/
def InTime (G : Graph ι V) (g : ι) (s : State ι V) : Prop :=
  ∀ task ∈ s.tasks, ∀ sub ∈ task.phase.ended?, g ∈ sub.targetsOf (G.clusterId g) →
    ∀ task' ∈ s.tasks, task'.transactionId = task.transactionId →
      task'.clusterId = G.clusterId g → task'.phase.taken = false

instance (G : Graph ι V) (g : ι) (s : State ι V) : Decidable (s.InTime G g) :=
  inferInstanceAs (Decidable (∀ task ∈ s.tasks, ∀ sub ∈ task.phase.ended?, _))

omit [DecidableEq ι] in
theorem InTime.untaken (h : InTime G g s) {c : ID} {sub : InnerTransaction ι V}
    (hphase : s.phaseOf T c = some (.executing sub)) (hend : sub.executor = [])
    (hg : g ∈ sub.targetsOf (G.clusterId g)) : s.Untaken T (G.clusterId g) := by
  intro phase hphase'
  refine h _ (exists_task_of_phaseOf hphase) sub ?_ hg _ (exists_task_of_phaseOf hphase') rfl rfl
  simp [TaskPhase.ended?, hend]

theorem requested_topSend (hlistens : y ∈ (G.primitive x).listens)
    (hsim : Simulated planner G first s registered s.oldest) (hopen : s.IsOpen T)
    (hcluster : G.clusterId x ≠ unmanagedClusterId) {value : V}
    (hinner : s'.inner = Function.update s.inner T (G.send y value s.store (s.inner T)).2)
    (htasks : s'.tasks = s.tasks) : s'.Requested G x T := by
  refine .inl ⟨?_, fun phase hphase => ?_⟩
  · rw [hinner, Function.update_self]
    refine (Graph.mem_targetsOf_send G _ y x value s.store _).mpr (.inr ⟨hlistens, rfl, ?_⟩)
    rwa [hsim.wellFormed.inner_cluster]
  · rw [phaseOf, htasks] at hphase
    have hnone := hsim.phaseOf_none_of_open hopen (G.clusterId x)
    rw [phaseOf, hphase] at hnone
    cases hnone

theorem requested_of_sent (hlistens : y ∈ (G.primitive x).listens)
    (htop : (G.primitive y).isSink = true ∨ (G.primitive y).initialValue ≠ none →
      G.clusterId x ≠ unmanagedClusterId)
    (hsim : Simulated planner G first s registered s.oldest) (hvalues : Stored G s)
    (hstep : Step G planner s s') (T : ID) :
    lastSent s'.trace T y = lastSent s.trace T y ∨ s'.Requested G x T := by
  have hwf := hsim.wellFormed
  cases hstep
  case afterBuildHook z value rest hhooks hopen =>
    by_cases heq : s.buildTransaction = T ∧ z = y
    · obtain ⟨rfl, rfl⟩ := heq
      have hentry : (z, value) ∈ G.afterBuildHooks := hvalues.afterBuild _ (by simp [hhooks])
      rw [Graph.afterBuildHooks, List.mem_filterMap] at hentry
      obtain ⟨w, -, hw⟩ := hentry
      obtain ⟨v, hv, heq⟩ := Option.map_eq_some_iff.mp hw
      obtain ⟨rfl, -⟩ := Prod.mk.inj heq
      exact .inr (requested_topSend hlistens hsim hopen (htop (.inr (by simp [hv]))) rfl rfl)
    · exact .inl ((lastSent_topSend _ _ _ _ _ _).trans (if_neg heq))
  case send T' z value hopen huser hsink =>
    by_cases heq : T' = T ∧ z = y
    · obtain ⟨rfl, rfl⟩ := heq
      exact .inr (requested_topSend hlistens hsim hopen (htop (.inl hsink)) rfl rfl)
    · exact .inl ((lastSent_topSend _ _ _ _ _ _).trans (if_neg heq))
  case update i T' c sub sub' r z rest store hi hfront hupdate =>
    have hsub := hwf.sub T' c sub (phaseOf_of_getElem? hwf.tasks_nodup hi)
    have hid : (sub.pop z rest).id = T' := hsub.id
    by_cases heq : T' = T ∧ z = y
    · obtain ⟨rfl, rfl⟩ := heq
      rcases Graph.update_cases hupdate with ⟨hooks, hupd, -, rfl⟩ | ⟨value, hooks, hupd, -, rfl⟩
      · left
        rw [hid] at hupd
        rw [lastSent_updateEvents, updated, hupd]
        simp
      · refine .inr (.inr ⟨c, (G.send z value s.store (Graph.withHooks (sub.pop z rest) hooks)).2,
          ?_, ?_⟩)
        · rw [phaseOf_of_set hwf hi rfl, if_pos ⟨rfl, rfl⟩]
        · by_cases hc : G.clusterId x = c
          · exact .inr ((Graph.mem_inside_send G _ z x value s.store).mpr
              (.inr ⟨hlistens, hc.trans hsub.updatingCluster.symm⟩))
          · refine .inl ((Graph.mem_targetsOf_send G _ z x value s.store _).mpr
              (.inr ⟨hlistens, rfl, fun h => hc (h.trans hsub.updatingCluster)⟩))
    · left
      rw [lastSent_updateEvents, if_neg heq]
  case finalize => exact .inl (lastSent_finalize _ _ _ _ _ _)
  all_goals exact .inl rfl

omit [DecidableEq ι] in
theorem Untaken.of_set {c : ID} (h : s.Untaken T c) (hwf : WellFormed G s) {i : ℕ} {T' c' : ID}
    {phase phase' : TaskPhase ι V} (hi : s.tasks[i]? = some ⟨T', c', phase⟩)
    (htasks : s'.tasks = s.tasks.set i ⟨T', c', phase'⟩)
    (huntaken : phase.taken = false → phase'.taken = false) : s'.Untaken T c := by
  intro found hfound
  rw [phaseOf_of_set hwf hi htasks] at hfound
  split at hfound
  · rename_i heq
    obtain ⟨rfl, rfl⟩ := heq
    exact Option.some.inj hfound ▸ huntaken (h phase (phaseOf_of_getElem? hwf.tasks_nodup hi))
  · exact h found hfound

omit [DecidableEq ι] in
theorem Requested.set_phase (h : s.Requested G g T) (hwf : WellFormed G s) {i : ℕ} {T' c' : ID}
    {phase phase' : TaskPhase ι V} (hi : s.tasks[i]? = some ⟨T', c', phase⟩)
    (htasks : s'.tasks = s.tasks.set i ⟨T', c', phase'⟩) (hinner : s'.inner = s.inner)
    (hphase : ∀ sub, phase ≠ .executing sub)
    (huntaken : phase.taken = false → phase'.taken = false) :
    s'.Requested G g T := by
  have hget := phaseOf_of_getElem? hwf.tasks_nodup hi
  rcases h with ⟨hin, hbefore⟩ | ⟨c, sub, hsub, hin⟩
  · exact .inl ⟨hinner ▸ hin, hbefore.of_set hwf hi htasks huntaken⟩
  · refine .inr ⟨c, sub, ?_, hin⟩
    rw [phaseOf_of_set hwf hi htasks]
    split
    · rename_i heq
      obtain ⟨rfl, rfl⟩ := heq
      exact absurd (Option.some.inj (hget.symm.trans hsub)) (hphase sub)
    · exact hsub

omit [DecidableEq ι] in
theorem Requested.of_inner (h : s.Requested G g T) (htasks : s'.tasks = s.tasks)
    (hinner : g ∈ (s.inner T).targetsOf (G.clusterId g) →
      g ∈ (s'.inner T).targetsOf (G.clusterId g)) : s'.Requested G g T := by
  have hphase : ∀ c, s'.phaseOf T c = s.phaseOf T c := fun c => by rw [phaseOf, htasks, phaseOf]
  rcases h with ⟨hin, hbefore⟩ | ⟨c, sub, hsub, hin⟩
  · exact .inl ⟨hinner hin, fun phase hfound => hbefore phase (hphase _ ▸ hfound)⟩
  · exact .inr ⟨c, sub, (hphase c).trans hsub, hin⟩

theorem Requested.topSend (h : s.Requested G g T) {T' : ID} {x : ι} {value : V}
    (htasks : s'.tasks = s.tasks)
    (hinner : s'.inner = Function.update s.inner T' (G.send x value s.store (s.inner T')).2) :
    s'.Requested G g T := by
  refine h.of_inner htasks fun hin => ?_
  rw [hinner]
  by_cases hT : T = T'
  · subst hT
    rw [Function.update_self]
    exact (Graph.mem_targetsOf_send G _ x g value s.store _).mpr (.inl hin)
  · rwa [Function.update_of_ne hT]

theorem Requested.generate (h : s.Requested G g T) (hwf : WellFormed G s) {i : ℕ} {T' c' : ID}
    (hi : s.tasks[i]? = some ⟨T', c', .announced⟩)
    (htasks : s'.tasks =
      s.tasks.set i ⟨T', c', .executing (G.generateSubTransaction (s.inner T') c').2⟩)
    (hinner : s'.inner = Function.update s.inner T' (G.generateSubTransaction (s.inner T') c').1) :
    s'.Requested G g T := by
  have hget : s.phaseOf T' c' = some .announced := phaseOf_of_getElem? hwf.tasks_nodup hi
  have hset := phaseOf_of_set hwf hi htasks
  rcases h with ⟨hin, hbefore⟩ | ⟨c, sub, hsub, hin⟩
  · by_cases heq : T = T' ∧ G.clusterId g = c'
    · obtain ⟨rfl, rfl⟩ := heq
      refine .inr ⟨_, _, (hset T _).trans (if_pos ⟨rfl, rfl⟩), .inr ?_⟩
      exact (G.mem_inside_generateSubTransaction _ _ _).mpr ⟨hin, rfl⟩
    · refine .inl ⟨?_, fun phase hfound => ?_⟩
      · rw [hinner]
        by_cases hT : T = T'
        · subst hT
          rwa [Function.update_self, G.targetsOf_generateSubTransaction_fst]
        · rwa [Function.update_of_ne hT]
      · rw [hset, if_neg heq] at hfound
        exact hbefore phase hfound
  · refine .inr ⟨c, sub, ?_, hin⟩
    rw [hset]
    split
    · rename_i heq
      obtain ⟨rfl, rfl⟩ := heq
      cases hget.symm.trans hsub
    · exact hsub

theorem Requested.collect (h : s.Requested G g T) (hwf : WellFormed G s) (hintime : s.InTime G g)
    {i : ℕ} {T' c' : ID} {sub : InnerTransaction ι V} {phase' : TaskPhase ι V}
    (hi : s.tasks[i]? = some ⟨T', c', .executing sub⟩) (hfront : sub.executor = [])
    (htasks : s'.tasks = s.tasks.set i ⟨T', c', phase'⟩)
    (hinner : s'.inner =
      Function.update s.inner T' (G.registerExecutionResult (s.inner T') sub.executeResult).1) :
    s'.Requested G g T := by
  have hget : s.phaseOf T' c' = some (.executing sub) := phaseOf_of_getElem? hwf.tasks_nodup hi
  have hset := phaseOf_of_set hwf hi htasks
  have huntaken : s.Untaken T (G.clusterId g) → s'.Untaken T (G.clusterId g) :=
    fun hbefore => hbefore.of_set hwf hi htasks nofun
  rcases h with ⟨hin, hbefore⟩ | ⟨c, sub', hsub, hin⟩
  · refine .inl ⟨?_, huntaken hbefore⟩
    rw [hinner]
    by_cases hT : T = T'
    · subst hT
      rw [Function.update_self]
      exact (G.mem_targetsOf_registerExecutionResult _ _ _ _).mpr (.inl hin)
    · rwa [Function.update_of_ne hT]
  · by_cases heq : T = T' ∧ c = c'
    · obtain ⟨rfl, rfl⟩ := heq
      obtain rfl := TaskPhase.executing.inj (Option.some.inj (hget.symm.trans hsub))
      have hempty := (hwf.sub T c sub hget).wellQueued.executor_eq_nil_iff.mp hfront
      have htarget : g ∈ sub.targetsOf (G.clusterId g) :=
        hin.resolve_right (by simp [hempty])
      refine .inl ⟨?_, huntaken (hintime.untaken hget hfront htarget)⟩
      rw [hinner, Function.update_self]
      exact (G.mem_targetsOf_registerExecutionResult _ _ _ _).mpr (.inr htarget)
    · exact .inr ⟨c, sub', (hset T c).trans ((if_neg heq).trans hsub), hin⟩

theorem Requested.update (h : s.Requested G g T) (hwf : WellFormed G s) {i : ℕ} {T' c' : ID}
    {sub sub' : InnerTransaction ι V} {x : ι} {rest : List (ℕ × ι)} {store : Store ι V}
    (hi : s.tasks[i]? = some ⟨T', c', .executing sub⟩)
    (hupdate : G.update x s.store (sub.pop x rest) = .ok (store, sub'))
    (htasks : s'.tasks = s.tasks.set i ⟨T', c', .executing sub'⟩) (hinner : s'.inner = s.inner)
    (hne : T = T' → x ≠ g) : s'.Requested G g T := by
  have hget : s.phaseOf T' c' = some (.executing sub) := phaseOf_of_getElem? hwf.tasks_nodup hi
  have hset := phaseOf_of_set hwf hi htasks
  rcases h with ⟨hin, hbefore⟩ | ⟨c, sub'', hsub, hin⟩
  · exact .inl ⟨hinner ▸ hin, hbefore.of_set hwf hi htasks nofun⟩
  · by_cases heq : T = T' ∧ c = c'
    · obtain ⟨rfl, rfl⟩ := heq
      obtain rfl := TaskPhase.executing.inj (Option.some.inj (hget.symm.trans hsub))
      refine .inr ⟨c, sub', (hset T c).trans (if_pos ⟨rfl, rfl⟩), ?_⟩
      rcases Graph.update_cases hupdate with ⟨hooks, -, -, rfl⟩ | ⟨value, hooks, -, -, rfl⟩
      · exact hin.imp id fun hin => Finset.mem_erase.mpr ⟨(hne rfl).symm, hin⟩
      · refine hin.imp (fun hin => ?_) fun hin => ?_
        · exact (Graph.mem_targetsOf_send G _ x g value s.store _).mpr (.inl hin)
        · exact (Graph.mem_inside_send G _ x g value s.store).mpr
            (.inl (Finset.mem_erase.mpr ⟨(hne rfl).symm, hin⟩))
    · exact .inr ⟨c, sub'', (hset T c).trans ((if_neg heq).trans hsub), hin⟩

/-- A request stays on its way until its value is updated, where it comes in time. -/
theorem Requested.step (h : s.Requested G x T) (hrequests : Requests G s) (hintime : s.InTime G x)
    (hsim : Simulated planner G first s registered s.oldest) (hvalues : Stored G s)
    (hstep : Step G planner s s') : s'.Requested G x T ∨ Updates G s s' T x := by
  have hwf := hsim.wellFormed
  cases hstep
  case register =>
    refine .inl (h.of_inner rfl fun hin => ?_)
    have hT : T ≠ s.nextTransactionId := by
      rintro rfl
      obtain ⟨y, -, hsent⟩ := hrequests.target _ _ x hin
      exact hsent (hvalues.unregistered _ y le_rfl)
    simpa [State.register, Function.update_of_ne hT] using hin
  case afterBuildHook => exact .inl (h.topSend rfl rfl)
  case send => exact .inl (h.topSend rfl rfl)
  case start T' c' rest hfront hrunning hfresh =>
    have hnone := hsim.phaseOf_none_of_fresh hrunning hfresh
    left
    rcases h with ⟨hin, hbefore⟩ | ⟨c, sub, hsub, hin⟩
    · refine .inl ⟨hin, fun phase hfound => ?_⟩
      rw [phaseOf_append hnone .queued rfl] at hfound
      split at hfound
      · obtain rfl := Option.some.inj hfound
        rfl
      · exact hbefore phase hfound
    · refine .inr ⟨c, sub, ?_, hin⟩
      rw [phaseOf_append hnone .queued rfl]
      split
      · rename_i heq
        obtain ⟨rfl, rfl⟩ := heq
        cases hnone.symm.trans hsub
      · exact hsub
  case announce hi => exact .inl (h.set_phase hwf hi rfl rfl (by simp) (by simp [TaskPhase.taken]))
  case generate hi => exact .inl (h.generate hwf hi rfl rfl)
  case update i T' c' sub sub' r z rest store hi hfront hupdate =>
    by_cases hz : T = T' ∧ z = x
    · obtain ⟨rfl, rfl⟩ := hz
      exact .inr ⟨i, c', sub, sub', r, rest, store, hi, hfront, hupdate, rfl⟩
    · exact .inl (h.update hwf hi hupdate rfl rfl fun hT heq => hz ⟨hT, heq⟩)
  case collect hi hfront => exact .inl (h.collect hwf hintime hi hfront rfl rfl)
  case buffer hi => exact .inl (h.set_phase hwf hi rfl rfl (by simp) (by simp [TaskPhase.taken]))
  case finish hi => exact .inl (h.set_phase hwf hi rfl rfl (by simp) (by simp [TaskPhase.taken]))
  all_goals exact .inl h

omit [DecidableEq ι] in
theorem Simulated.not_requested (hsim : Simulated planner G first s registered s.oldest)
    {rest : List ExecutorMessage}
    (hfront : s.executorMessages = .finalizeTransaction s.oldest :: rest) (x : ι) :
    ¬ s.Requested G x s.oldest := by
  rintro (⟨hin, hbefore⟩ | ⟨c, sub, hphase, -⟩)
  · cases hbefore _ (hsim.key_finished hfront hin)
  · cases hsim.finished hfront hphase

/-! ## No failure -/

theorem Stored.mem_of_sent (h : Stored G s) {x : ι} (hle : s.oldest ≤ T)
    (hsent : lastSent s.trace T x ≠ none) : T ∈ s.store x := by
  obtain ⟨value, hvalue⟩ := Option.ne_none_iff_exists'.mp hsent
  rw [Std.ExtTreeMap.mem_iff_isSome_getElem?, h.getElem?_of_sent hle hvalue]
  rfl

theorem Reached.exists_update (h : Reached planner G first s) {c : ID} {sub : InnerTransaction ι V}
    (hphase : s.phaseOf T c = some (.executing sub)) {r : ℕ} {x : ι} {rest : List (ℕ × ι)}
    (hfront : sub.executor = (r, x) :: rest) :
    (∃ y ∈ (G.primitive x).listens, T ∈ s.store y) ∧
      ∃ result, G.update x s.store (sub.pop x rest) = .ok result := by
  obtain ⟨registered, hsim⟩ := h.simulated
  have hsub := hsim.wellFormed.sub T c sub hphase
  have hle := (hsim.task_bounds hphase (by simp)).2.1
  obtain ⟨y, hlistens, hsent⟩ := h.requests.working T c _ hphase sub rfl x
    (.inr (hsub.wellQueued.mem_inside hfront))
  refine ⟨⟨y, hlistens, h.recorded.values.mem_of_sent hle hsent⟩, ?_⟩
  obtain ⟨value, hvalue⟩ := Option.ne_none_iff_exists'.mp hsent
  have hid : (sub.pop x rest).id = T := hsub.id
  obtain ⟨hooks, hupdater⟩ := Primitive.exists_updater x hlistens
    (h.recorded.values.sample_of_sent hle hvalue)
  rw [Graph.update, hid, hupdater]
  cases (G.primitive x).meaning (G.sample s.store T) with
  | none => exact ⟨_, rfl⟩
  | some value => exact ⟨_, rfl⟩

/-- No `failure_log` is reached: an updater that is called finds a value that something it listens to
has for the transaction, and returns; and a transaction that is finalised finds a value for itself
in all it has to clean up, and its `finalize` ends. -/
theorem values_found {actions : List (Action ι V)}
    (hrun : run G planner (State.init G first) actions = some s) :
    (∀ task ∈ s.tasks, ∀ sub r x rest, task.phase = .executing sub →
        sub.executor = (r, x) :: rest →
        (∃ y ∈ (G.primitive x).listens, task.transactionId ∈ s.store y) ∧
          ∃ result, G.update x s.store (sub.pop x rest) = .ok result) ∧
      ∀ T rest, s.executorMessages = .finalizeTransaction T :: rest →
        T ∈ s.executor.transactions →
        (∀ x ∈ (s.inner T).cleanups, T ∈ s.store x) ∧
          ∃ result, G.finalizeTransaction s.store (s.inner T) = .ok result := by
  have hreach : Reached planner G first s := steps_of_run hrun
  obtain ⟨registered, hsim⟩ := hreach.simulated
  constructor
  · intro task htask sub r x rest hphase hfront
    have hget := phaseOf_of_mem hsim.wellFormed.tasks_nodup htask
    exact hreach.exists_update (hphase ▸ hget) hfront
  · intro T rest hfront hrunning
    obtain rfl := hsim.finalize_oldest hfront hrunning
    have hstored : ∀ x ∈ (s.inner s.oldest).cleanups, s.oldest ∈ s.store x := by
      intro x hx
      rw [hsim.mem_cleanups hreach.recorded hfront] at hx
      exact hreach.recorded.values.mem_of_sent le_rfl hx
    refine ⟨hstored, Graph.exists_finalizeTransaction fun x hx => ?_⟩
    rw [hsim.wellFormed.inner_id]
    exact hstored x hx

/-- Once with the task of the map about to update it, and once with the transaction of that task about
to be finalised. -/
theorem values_found_sinkMapHold :
    (∃ task ∈ (sinkMapHoldAt 37).tasks, ∃ sub r x rest, task.phase = .executing sub ∧
        sub.executor = (r, x) :: rest ∧
        (∃ y ∈ (sinkMapHold.primitive x).listens, task.transactionId ∈ (sinkMapHoldAt 37).store y) ∧
          ∃ result, sinkMapHold.update x (sinkMapHoldAt 37).store (sub.pop x rest) = .ok result) ∧
      ∃ rest, (sinkMapHoldAt 67).executorMessages = .finalizeTransaction 1 :: rest ∧
        ((sinkMapHoldAt 67).inner 1).cleanups = Finset.univ ∧
        (∀ x ∈ ((sinkMapHoldAt 67).inner 1).cleanups, 1 ∈ (sinkMapHoldAt 67).store x) ∧
          ∃ result, sinkMapHold.finalizeTransaction (sinkMapHoldAt 67).store
            ((sinkMapHoldAt 67).inner 1) = .ok result := by
  constructor
  · have hworking : (sinkMapHoldAt 37).tasks.any (fun task => match task.phase with
        | .executing sub => !sub.executor.isEmpty
        | _ => false) = true := by decide +kernel
    obtain ⟨task, htask, hexecuting⟩ := List.any_eq_true.mp hworking
    split at hexecuting
    · next sub hphase =>
        cases hexec : sub.executor with
        | nil => simp [hexec] at hexecuting
        | cons entry rest =>
            exact ⟨task, htask, sub, entry.1, entry.2, rest, hphase, hexec,
              (values_found (run_sinkMapHoldAt 37 (by decide +kernel))).1 task htask sub entry.1
                entry.2 rest hphase hexec⟩
    · cases hexecuting
  · have hfront : (sinkMapHoldAt 67).executorMessages.head? = some (.finalizeTransaction 1) := by
      decide +kernel
    obtain ⟨rest, hmessages⟩ := List.head?_eq_some_iff.mp hfront
    exact ⟨rest, hmessages, by decide +kernel,
      (values_found (run_sinkMapHoldAt 67 (by decide +kernel))).2 1 rest hmessages
        (by decide +kernel)⟩

end State

end Prf
