import Prf.Library.Log
import Prf.Proof.Steps
import Prf.Proof.Invariant

/-!
# The composed system refines the scheduling protocol

`State.abstract` forgets the values. Each step of the composed system is a move of the protocol, or
leaves the protocol where it is; so every fact about all runs of the protocol is one about all runs
of the program.
-/

namespace Prf

open Relation

variable {ι V : Type}

/-- A value of `d` listens to a value of the other cluster `c`. -/
def Graph.edge (G : Graph ι V) (c d : ID) : Prop :=
  d ≠ c ∧ ∃ x y, G.clusterId x = c ∧ G.clusterId y = d ∧ x ∈ (G.primitive y).listens

def TaskPhase.abstract : TaskPhase ι V → Protocol.Phase
  | queued => .queued
  | announced => .announced
  | executing _ => .executing
  | registered futures _ => .registered futures
  | buffered futures => .buffered futures
  | finished => .finished

def Event.finalized? : Event ι V → Option ID
  | finalize T _ => some T
  | _ => none

namespace State

/-- The scheduling state: everything but the values, and the two counts of what the `Executor` has
registered and finalised. -/
def abstract (s : State ι V) (registered oldest : ID) : Protocol.State where
  next := s.nextTransactionId
  registered := registered
  oldest := oldest
  committed := s.committed
  keys := fun T => (s.inner T).targetClusters
  executorMessages := s.executorMessages
  transactions := s.executor.transactions
  updatings := s.executor.transactionUpdatings
  phase := fun T c => (s.phaseOf T c).map TaskPhase.abstract
  plannerMessages := s.plannerMessages
  planner := s.planner

/-- The transactions finalised so far, in order. -/
def finalized (s : State ι V) : List ID :=
  s.trace.filterMap Event.finalized?

structure Subtransaction (G : Graph ι V) (T c : ID) (sub : InnerTransaction ι V) : Prop where
  id : sub.id = T
  updatingCluster : sub.updatingCluster = c
  wellQueued : G.WellQueued sub
  nonempty : ∀ d ∈ sub.targetsOutsideCurrentCluster, (sub.targetsOf d).Nonempty
  edge : ∀ d, ∀ y ∈ sub.targetsOf d, G.edge c d

structure WellFormed (G : Graph ι V) (s : State ι V) : Prop where
  tasks_nodup : (s.tasks.map Task.key).Nodup
  inner_id : ∀ T, (s.inner T).id = T
  inner_cluster : ∀ T, (s.inner T).updatingCluster = unmanagedClusterId
  inner_wellQueued : ∀ T, G.WellQueued (s.inner T)
  sub : ∀ T c sub, s.phaseOf T c = some (.executing sub) → Subtransaction G T c sub

variable {G : Graph ι V} {planner : Planner} {s s' : State ι V} {registered oldest : ID}

theorem Subtransaction.mem_keys {T c : ID} {sub : InnerTransaction ι V}
    (h : Subtransaction G T c sub) (d : ID) :
    d ∈ sub.targetsOutsideCurrentCluster ↔ (sub.targetsOf d).Nonempty :=
  ⟨h.nonempty d, fun ⟨_, hy⟩ => InnerTransaction.mem_keys_of_mem_targetsOf hy⟩

theorem phaseOf_of_set (hwf : WellFormed G s) {i : ℕ} {T c : ID} {phase phase' : TaskPhase ι V}
    (hi : s.tasks[i]? = some ⟨T, c, phase⟩) (htasks : s'.tasks = s.tasks.set i ⟨T, c, phase'⟩)
    (T' c' : ID) :
    s'.phaseOf T' c' = if T' = T ∧ c' = c then some phase' else s.phaseOf T' c' :=
  phaseOf_set hwf.tasks_nodup hi htasks T' c'

theorem forall_phase_set (hwf : WellFormed G s) {P : ID → ID → TaskPhase ι V → Prop}
    (h : ∀ T c phase, s.phaseOf T c = some phase → P T c phase) {i : ℕ} {T c : ID}
    {phase phase' : TaskPhase ι V} (hi : s.tasks[i]? = some ⟨T, c, phase⟩)
    (htasks : s'.tasks = s.tasks.set i ⟨T, c, phase'⟩) (hphase' : P T c phase') :
    ∀ T c phase, s'.phaseOf T c = some phase → P T c phase := by
  intro T' c' found hfound
  rw [phaseOf_of_set hwf hi htasks] at hfound
  split at hfound
  · rename_i heq
    obtain ⟨rfl, rfl⟩ := heq
    exact Option.some.inj hfound ▸ hphase'
  · exact h T' c' found hfound

theorem forall_phase_append {P : ID → ID → TaskPhase ι V → Prop}
    (h : ∀ T c phase, s.phaseOf T c = some phase → P T c phase) {T c : ID}
    (hnone : s.phaseOf T c = none) (htasks : s'.tasks = s.tasks ++ [⟨T, c, .queued⟩])
    (hqueued : P T c .queued) : ∀ T c phase, s'.phaseOf T c = some phase → P T c phase := by
  intro T' c' found hfound
  rw [phaseOf_append hnone .queued htasks] at hfound
  split at hfound
  · rename_i heq
    obtain ⟨rfl, rfl⟩ := heq
    exact Option.some.inj hfound ▸ hqueued
  · exact h T' c' found hfound

theorem WellFormed.set_phase (h : WellFormed G s) {i : ℕ} {T c : ID} {phase phase' : TaskPhase ι V}
    (hi : s.tasks[i]? = some ⟨T, c, phase⟩) (htasks : s'.tasks = s.tasks.set i ⟨T, c, phase'⟩)
    (hinner : s'.inner = s.inner)
    (hphase : ∀ sub, phase' = .executing sub → Subtransaction G T c sub) : WellFormed G s' where
  tasks_nodup := by
    rw [htasks, map_key_set Task.key ⟨T, c, phase'⟩ hi rfl]
    exact h.tasks_nodup
  inner_id := hinner ▸ h.inner_id
  inner_cluster := hinner ▸ h.inner_cluster
  inner_wellQueued := hinner ▸ h.inner_wellQueued
  sub := by
    intro T' c' sub hsub
    rw [phaseOf_of_set h hi htasks] at hsub
    split at hsub
    · rename_i heq
      obtain ⟨rfl, rfl⟩ := heq
      exact hphase sub (Option.some.inj hsub)
    · exact h.sub T' c' sub hsub

theorem WellFormed.set_inner (h : WellFormed G s) {T : ID} {t : InnerTransaction ι V}
    (hinner : s'.inner = Function.update s.inner T t) (htasks : s'.tasks = s.tasks)
    (hid : t.id = T) (hcluster : t.updatingCluster = unmanagedClusterId) (ht : G.WellQueued t) :
    WellFormed G s' where
  tasks_nodup := htasks ▸ h.tasks_nodup
  inner_id := by
    intro T'
    rw [hinner]
    by_cases heq : T' = T
    · subst heq
      simpa using hid
    · simpa [Function.update_of_ne heq] using h.inner_id T'
  inner_cluster := by
    intro T'
    rw [hinner]
    by_cases heq : T' = T
    · subst heq
      simpa using hcluster
    · simpa [Function.update_of_ne heq] using h.inner_cluster T'
  inner_wellQueued := by
    intro T'
    rw [hinner]
    by_cases heq : T' = T
    · subst heq
      simpa using ht
    · simpa [Function.update_of_ne heq] using h.inner_wellQueued T'
  sub := by
    intro T' c' sub hsub
    apply h.sub
    rwa [phaseOf, htasks] at hsub

theorem WellFormed.of_eq (h : WellFormed G s) (htasks : s'.tasks = s.tasks)
    (hinner : s'.inner = s.inner) : WellFormed G s' where
  tasks_nodup := htasks ▸ h.tasks_nodup
  inner_id := hinner ▸ h.inner_id
  inner_cluster := hinner ▸ h.inner_cluster
  inner_wellQueued := hinner ▸ h.inner_wellQueued
  sub := by
    intro T' c' sub hsub
    apply h.sub
    rwa [phaseOf, htasks] at hsub

variable [DecidableEq ι]

/-! ## Sub-transactions -/

theorem Subtransaction.generate {t : InnerTransaction ι V} (ht : G.WellQueued t) (c : ID) :
    Subtransaction G t.id c (G.generateSubTransaction t c).2 := by
  obtain ⟨hid, hcluster, -, -⟩ := G.generateSubTransaction_snd_fields t c
  refine ⟨hid, hcluster, G.wellQueued_generateSubTransaction t c, fun d hd => ?_, fun d y hy => ?_⟩
  · exact absurd hd (ht.outside_generateSubTransaction c d)
  · rw [ht.targetsOf_generateSubTransaction c d] at hy
    exact absurd hy (Finset.notMem_empty y)

theorem Subtransaction.update {T c : ID} {sub sub' : InnerTransaction ι V}
    (h : Subtransaction G T c sub) {r : ℕ} {x : ι} {rest : List (ℕ × ι)}
    (hfront : sub.executor = (r, x) :: rest) {store store' : Store ι V}
    (hupdate : G.update x store (sub.pop x rest) = .ok (store', sub')) :
    Subtransaction G T c sub' := by
  have hx : G.clusterId x = c :=
    (h.wellQueued.inside x (h.wellQueued.mem_inside hfront)).trans h.updatingCluster
  refine ⟨(Graph.update_id hupdate).trans h.id, (Graph.update_updatingCluster hupdate).trans
    h.updatingCluster, (h.wellQueued.pop hfront).update hupdate, ?_, ?_⟩
  · intro d hd
    rcases Graph.update_cases hupdate with ⟨hooks, -, -, rfl⟩ | ⟨value, hooks, -, -, rfl⟩
    · exact h.nonempty d hd
    · rcases (Graph.mem_keys_send G _ x value store d).mp hd with hold | ⟨hne, y, hlistens, hy⟩
      · obtain ⟨y, hy⟩ := h.nonempty d hold
        exact ⟨y, (Graph.mem_targetsOf_send G _ x y value store d).mpr (.inl hy)⟩
      · exact ⟨y, (Graph.mem_targetsOf_send G _ x y value store d).mpr (.inr ⟨hlistens, hy, hne⟩)⟩
  · intro d y hy
    rcases Graph.update_cases hupdate with ⟨hooks, -, -, rfl⟩ | ⟨value, hooks, -, -, rfl⟩
    · exact h.edge d y hy
    · rcases (Graph.mem_targetsOf_send G _ x y value store d).mp hy with hold | ⟨hlistens, hd, hne⟩
      · exact h.edge d y hold
      · have hne : d ≠ c := by simpa [Graph.withHooks, h.updatingCluster] using hne
        exact ⟨hne, x, y, hx, hd, hlistens⟩

/-! ## The objects stay well formed -/

theorem WellFormed.step (h : WellFormed G s) (ht : Protocol.Tasks G.edge s.buildTransaction
      (s.abstract registered oldest)) (hstep : Step G planner s s') : WellFormed G s' := by
  cases hstep
  case register => exact h.set_inner rfl rfl rfl rfl (G.wellQueued_new _ _)
  case afterBuildHook x value rest hhooks hopen =>
    refine h.set_inner (T := s.buildTransaction) rfl rfl ?_ ?_ ((h.inner_wellQueued _).send _ _ _)
    · rw [Graph.send_id, h.inner_id]
    · rw [Graph.send_updatingCluster, h.inner_cluster]
  case send T x value hopen huser hsink =>
    refine h.set_inner (T := T) rfl rfl ?_ ?_ ((h.inner_wellQueued _).send _ _ _)
    · rw [Graph.send_id, h.inner_id]
    · rw [Graph.send_updatingCluster, h.inner_cluster]
  case start T c rest hfront hrunning hfresh =>
    have hnone : s.phaseOf T c = none := by
      by_contra hsome
      apply hfresh
      have hphase : (s.abstract registered oldest).phase T c ≠ none := by
        simpa [abstract] using hsome
      exact (ht.updatings T c).mpr ⟨hrunning, hphase⟩
    refine ⟨?_, h.inner_id, h.inner_cluster, h.inner_wellQueued, fun T' c' sub hsub => ?_⟩
    · rw [phaseOf_eq_none_iff] at hnone
      rw [List.map_append, List.nodup_append]
      refine ⟨h.tasks_nodup, by simp, fun key hkey key' hkey' => ?_⟩
      obtain rfl : key' = (T, c) := by simpa [Task.key] using hkey'
      rintro rfl
      exact hnone hkey
    · rw [phaseOf_append hnone .queued rfl] at hsub
      split at hsub
      · cases hsub
      · exact h.sub T' c' sub hsub
  case announce hi => exact h.set_phase hi rfl rfl (by simp)
  case generate i T c hi =>
    obtain ⟨hid, hcluster, -, -⟩ := G.generateSubTransaction_snd_fields (s.inner T) c
    have hsub := Subtransaction.generate (h.inner_wellQueued T) c
    rw [h.inner_id] at hsub
    have hphase : WellFormed G { s with
        tasks := s.tasks.set i ⟨T, c, .executing (G.generateSubTransaction (s.inner T) c).2⟩ } :=
      h.set_phase hi rfl rfl (by rintro sub hexec; cases hexec; exact hsub)
    refine hphase.set_inner (T := T) rfl rfl (h.inner_id T) (h.inner_cluster T) ?_
    have hwq := h.inner_wellQueued T
    refine ⟨hwq.mem_executor, hwq.nodup, hwq.sorted, hwq.inside, fun d y hy => ?_⟩
    rw [G.targetsOf_generateSubTransaction_fst] at hy
    exact hwq.outside d y hy
  case update i T c sub sub' r x rest store hi hfront hupdate =>
    have hsub := h.sub T c sub (phaseOf_of_getElem? h.tasks_nodup hi)
    exact h.set_phase hi rfl rfl (by rintro sub hexec; cases hexec; exact hsub.update hfront hupdate)
  case collect i T c sub hi hfront =>
    have hsub := h.sub T c sub (phaseOf_of_getElem? h.tasks_nodup hi)
    have hphase : WellFormed G { s with
        tasks := s.tasks.set i
          ⟨T, c, .registered (G.registerExecutionResult (s.inner T) sub.executeResult).2
            sub.beforeUpdateHooks⟩ } :=
      h.set_phase hi rfl rfl (by simp)
    have hframe := G.registerExecutionResult_frame (s.inner T) sub
    refine hphase.set_inner (T := T) rfl rfl ?_ ?_
      ((h.inner_wellQueued T).registerExecutionResult hsub.wellQueued)
    · rw [hframe]
      exact h.inner_id T
    · rw [hframe]
      exact h.inner_cluster T
  case buffer hi => exact h.set_phase hi rfl rfl (by simp)
  case finish hi => exact h.set_phase hi rfl rfl (by simp)
  all_goals exact h.of_eq rfl rfl

/-! ## Each step is a move -/

omit [DecidableEq ι] in
theorem targetClusters_update (inner : ID → InnerTransaction ι V) (T : ID)
    (t : InnerTransaction ι V) :
    (fun T' => (Function.update inner T t T').targetClusters) =
      Function.update (fun T' => (inner T').targetClusters) T t.targetClusters := by
  funext T'
  by_cases heq : T' = T
  · subst heq
    simp
  · simp [Function.update_of_ne heq]

omit [DecidableEq ι] in
theorem abstract_phase_set (hwf : WellFormed G s) {i : ℕ} {T c : ID} {phase : TaskPhase ι V}
    (hi : s.tasks[i]? = some ⟨T, c, phase⟩) (phase' : TaskPhase ι V) (htasks : s'.tasks = s.tasks.set i ⟨T, c, phase'⟩) :
    (fun T' c' => (s'.phaseOf T' c').map TaskPhase.abstract) =
      Protocol.setPhase (fun T' c' => (s.phaseOf T' c').map TaskPhase.abstract) T c
        phase'.abstract := by
  funext T' c'
  rw [phaseOf_of_set hwf hi htasks, Protocol.setPhase]
  split <;> rfl

omit [DecidableEq ι] in
theorem abstract_phase (hwf : WellFormed G s) {i : ℕ} {T c : ID} {phase : TaskPhase ι V}
    (hi : s.tasks[i]? = some ⟨T, c, phase⟩) :
    (s.abstract registered oldest).phase T c = some phase.abstract := by
  have hphase := phaseOf_of_getElem? hwf.tasks_nodup hi
  simp only at hphase
  simp [abstract, hphase]

theorem targetClusters_send (x : ι) (value : V) (store : Store ι V)
    (t : InnerTransaction ι V) :
    ∃ targets, (G.send x value store t).2.targetClusters = t.targetClusters ∪ targets := by
  refine ⟨(G.send x value store t).2.targetClusters, ?_⟩
  refine (Finset.union_eq_right.mpr fun d hd => ?_).symm
  rw [InnerTransaction.mem_targetClusters] at hd ⊢
  exact (Graph.mem_keys_send G t x value store d).mpr (.inl hd)

theorem targetClusters_generate (t : InnerTransaction ι V) (c : ID) :
    (G.generateSubTransaction t c).1.targetClusters = insert c t.targetClusters := by
  ext d
  rw [InnerTransaction.mem_targetClusters, G.mem_keys_generateSubTransaction_fst, Finset.mem_insert,
    InnerTransaction.mem_targetClusters]
  tauto

theorem targetClusters_collect {T c : ID} {sub : InnerTransaction ι V}
    (hsub : Subtransaction G T c sub) (t : InnerTransaction ι V) :
    (G.registerExecutionResult t sub.executeResult).1.targetClusters =
        t.targetClusters ∪ sub.targetClusters ∧
      (G.registerExecutionResult t sub.executeResult).2 = sub.targetClusters \ t.targetClusters := by
  constructor
  · ext d
    rw [InnerTransaction.mem_targetClusters, G.mem_keys_registerExecutionResult, Finset.mem_union,
      InnerTransaction.mem_targetClusters, InnerTransaction.mem_targetClusters, hsub.mem_keys]
  · ext d
    rw [G.mem_futures_registerExecutionResult, Finset.mem_sdiff,
      InnerTransaction.mem_targetClusters, InnerTransaction.mem_targetClusters]
    tauto

/-- `s'` comes after `s` as the protocol allows, and no transaction but the oldest has been finalised
in between. -/
def Follows (planner : Planner) (G : Graph ι V) (registered oldest : ID) (s s' : State ι V) : Prop :=
  ∃ registered' oldest',
    (Protocol.Move planner G.clusterRanks G.edge s.buildTransaction (s.abstract registered oldest)
        (s'.abstract registered' oldest') ∨
      s'.abstract registered' oldest' = s.abstract registered oldest) ∧
    s'.buildTransaction = s.buildTransaction ∧
    (oldest' = oldest ∧ s'.finalized = s.finalized ∨
      oldest' = oldest + 1 ∧ s'.finalized = s.finalized ++ [oldest])

omit [DecidableEq ι] in
theorem Follows.of_move (registered' : ID) {a : Protocol.State}
    (hmove : Protocol.Move planner G.clusterRanks G.edge s.buildTransaction
      (s.abstract registered oldest) a)
    (habstract : s'.abstract registered' oldest = a)
    (hbuild : s'.buildTransaction = s.buildTransaction) (hfinalized : s'.finalized = s.finalized) :
    Follows planner G registered oldest s s' :=
  ⟨registered', oldest, .inl (habstract ▸ hmove), hbuild, .inl ⟨rfl, hfinalized⟩⟩

omit [DecidableEq ι] in
theorem finalized_append {events : List (Event ι V)} (htrace : s'.trace = s.trace ++ events)
    (hevents : ∀ event ∈ events, event.finalized? = none) : s'.finalized = s.finalized := by
  rw [finalized, htrace, Log.filterMap_append_silent hevents, finalized]

omit [DecidableEq ι] in
theorem finalized?_updateEvents (store : Store ι V) (T : ID) (x : ι) :
    ∀ event ∈ updateEvents G store T x, event.finalized? = none := by
  intro event hevent
  obtain rfl | ⟨value, rfl⟩ := mem_updateEvents hevent <;> rfl

omit [DecidableEq ι] in
theorem finalized_finalize {T : ID} {deliveries : List (Delivery ι V)} {view : ι → Option V}
    (htrace : s'.trace = s.trace ++ deliveries.map (.deliver T) ++ [.finalize T view]) :
    s'.finalized = s.finalized ++ [T] := by
  have hquiet : (deliveries.map (Event.deliver T)).filterMap Event.finalized? = [] := by
    simp [List.filterMap_eq_nil_iff, Event.finalized?]
  rw [finalized, htrace, List.filterMap_append, List.filterMap_append, hquiet, List.append_nil]
  rfl

/-- A step of the composed system is a move of the protocol or leaves it where it is. -/
theorem follows_of_step (hwf : WellFormed G s)
    (hinv : Protocol.Inv planner G.clusterRanks G.edge s.buildTransaction
      (s.abstract registered oldest)) (hstep : Step G planner s s') :
    Follows planner G registered oldest s s' := by
  cases hstep
  case register =>
    refine .of_move registered .register ?_ rfl rfl
    simp only [abstract, State.register, targetClusters_update]
    congr 1
  case afterBuildHook x value rest hhooks hopen =>
    obtain ⟨targets, htargets⟩ := targetClusters_send (G := G) x value s.store
      (s.inner s.buildTransaction)
    refine .of_move registered (.send targets hopen) ?_ rfl
      (finalized_append rfl (by simp [Event.finalized?]))
    simp only [abstract, State.topSend, targetClusters_update, htargets]
    congr 1
  case send T x value hopen huser hsink =>
    obtain ⟨targets, htargets⟩ := targetClusters_send (G := G) x value s.store (s.inner T)
    refine .of_move registered (.send targets hopen) ?_ rfl
      (finalized_append rfl (by simp [Event.finalized?]))
    simp only [abstract, State.topSend, targetClusters_update, htargets]
    congr 1
  case commit T hopen hbuilt =>
    exact .of_move registered (.commit hopen) rfl rfl rfl
  case handleRegister T rest hfront =>
    exact .of_move (registered + 1) (.handleRegister hfront) rfl rfl rfl
  case handleExecute T rest hfront =>
    exact .of_move registered (.handleExecute hfront) rfl rfl rfl
  case skipStart T c rest hfront hskipped =>
    exact .of_move registered (.skipStart hfront hskipped) rfl rfl rfl
  case start T c rest hfront hrunning hfresh =>
    refine .of_move registered (.start hfront hrunning hfresh) ?_ rfl rfl
    have hnone : s.phaseOf T c = none := by
      have hupdatings := (hinv.core.tasks.updatings T c).not.mp hfresh
      simpa [abstract, hrunning] using hupdatings
    simp only [abstract]
    congr 1
    funext T' c'
    rw [phaseOf_append hnone .queued rfl, Protocol.setPhase]
    split <;> rfl
  case skipFinalize T rest hfront hskipped =>
    exact .of_move registered (.skipFinalize hfront hskipped) rfl rfl rfl
  case finalize T rest store deliveries hfront hrunning hfinalize =>
    have hT : T = oldest := hinv.core.queues.finalize_oldest hinv.core.offers hfront hrunning
    refine ⟨registered, oldest + 1, .inl ?_, rfl, .inr ⟨rfl, ?_⟩⟩
    · exact .finalize hfront hrunning
    · rw [finalized_finalize rfl, hT]
  case announce i T c hi =>
    refine .of_move registered (.announce (abstract_phase hwf hi)) ?_ rfl rfl
    simp only [abstract]
    congr 1
    exact abstract_phase_set hwf hi .announced rfl
  case generate i T c hi =>
    refine .of_move registered (.generate (abstract_phase hwf hi)) ?_ rfl rfl
    simp only [abstract, targetClusters_update, targetClusters_generate]
    congr 1
    exact abstract_phase_set hwf hi (.executing _) rfl
  case update i T c sub sub' r x rest store hi hfront hupdate =>
    refine ⟨registered, oldest, .inr ?_, rfl, .inl ⟨rfl, finalized_append rfl
      (finalized?_updateEvents s.store T x)⟩⟩
    simp only [abstract]
    congr 1
    refine (abstract_phase_set hwf hi (.executing sub') rfl).trans ?_
    have hphase := phaseOf_of_getElem? hwf.tasks_nodup hi
    funext T' c'
    rw [Protocol.setPhase]
    split
    · rename_i heq
      obtain ⟨rfl, rfl⟩ := heq
      simp only at hphase
      rw [hphase]
      rfl
    · rfl
  case collect i T c sub hi hfront =>
    have hsub := hwf.sub T c sub (phaseOf_of_getElem? hwf.tasks_nodup hi)
    obtain ⟨hkeys, hfutures⟩ := targetClusters_collect hsub (s.inner T)
    have hedges : ∀ d ∈ sub.targetClusters, G.edge c d := by
      intro d hd
      obtain ⟨y, hy⟩ := hsub.nonempty d ((sub.mem_targetClusters d).mp hd)
      exact hsub.edge d y hy
    refine .of_move registered (.collect (abstract_phase hwf hi) hedges) ?_ rfl rfl
    simp only [abstract, targetClusters_update, hkeys, hfutures]
    congr 1
    exact abstract_phase_set hwf hi (.registered _ _) rfl
  case buffer i T c futures hooks hi =>
    refine .of_move registered (.buffer (abstract_phase hwf hi)) ?_ rfl rfl
    simp only [abstract]
    congr 1
    exact abstract_phase_set hwf hi (.buffered _) rfl
  case finish i T c futures hi =>
    refine .of_move registered (.finish (abstract_phase hwf hi)) ?_ rfl rfl
    simp only [abstract]
    congr 1
    exact abstract_phase_set hwf hi .finished rfl
  case receiveStart T rest hidle hfront =>
    exact .of_move registered (.receiveStart hidle hfront) rfl rfl rfl
  case receive message rest hidle hfront hrefresh =>
    exact .of_move registered (.receive hidle hfront hrefresh) rfl rfl rfl
  case handle message states hreceived hended hhandled =>
    exact .of_move registered (.handle hreceived hended hhandled) rfl rfl rfl
  case push pass message rest hrunning hfront =>
    exact .of_move registered (.push hrunning hfront) rfl rfl rfl
  case advance pass hrunning hfront =>
    exact .of_move registered (.advance hrunning hfront) rfl rfl rfl

/-! ## Runs -/

/-- `s` is a state of a run, with the two counts the protocol keeps. -/
structure Simulated (planner : Planner) (G : Graph ι V) (first : ID) (s : State ι V)
    (registered oldest : ID) : Prop where
  wellFormed : WellFormed G s
  reachable : Protocol.Reachable planner G.clusterRanks G.edge first (s.abstract registered oldest)
  build : s.buildTransaction = first
  finalized : s.finalized = List.range' first (oldest - first)

variable {first : ID}

omit [DecidableEq ι] in
theorem Simulated.inv (h : Simulated planner G first s registered oldest) :
    Protocol.Inv planner G.clusterRanks G.edge first (s.abstract registered oldest) :=
  Protocol.Reachable.inv h.reachable

omit [DecidableEq ι] in
theorem simulated_init : Simulated planner G first (State.init G first) first first where
  wellFormed :=
    { tasks_nodup := List.nodup_nil
      inner_id := fun _ => rfl
      inner_cluster := fun _ => rfl
      inner_wellQueued := fun T => G.wellQueued_new T unmanagedClusterId
      sub := by simp [phaseOf, State.init] }
  reachable := by
    have hinit : (State.init G first).abstract first first = Protocol.State.init first := by
      have hkeys : ∀ T, (InnerTransaction.new T unmanagedClusterId : InnerTransaction ι V).targetClusters = ∅ := by
        simp [InnerTransaction.targetClusters, InnerTransaction.new]
      simp only [abstract, State.init, Protocol.State.init, hkeys, phaseOf]
      congr 1
    rw [hinit]
    exact .refl
  build := rfl
  finalized := by simp [State.init, State.finalized]

theorem Simulated.follows (h : Simulated planner G first s registered oldest)
    (hstep : Step G planner s s') :
    ∃ registered' oldest', Simulated planner G first s' registered' oldest' ∧
      (Protocol.Move planner G.clusterRanks G.edge first (s.abstract registered oldest)
          (s'.abstract registered' oldest') ∨
        s'.abstract registered' oldest' = s.abstract registered oldest) := by
  have hinv := h.inv
  obtain ⟨hwf, hreach, rfl, hfinalized⟩ := h
  obtain ⟨registered', oldest', hmove, hbuild, hcount⟩ := follows_of_step hwf hinv hstep
  have hreach' : Protocol.Reachable planner G.clusterRanks G.edge s.buildTransaction
      (s'.abstract registered' oldest') := by
    rcases hmove with hmove | heq
    · exact hreach.tail hmove
    · exact heq ▸ hreach
  refine ⟨registered', oldest', ⟨hwf.step hinv.core.tasks hstep, hreach', hbuild, ?_⟩, hmove⟩
  have hfirst : s.buildTransaction ≤ oldest := hinv.core.queues.first_le
  rcases hcount with ⟨rfl, hsame⟩ | ⟨rfl, hnext⟩
  · rw [hsame, hfinalized]
  · have hlength : oldest + 1 - s.buildTransaction = oldest - s.buildTransaction + 1 := by lia
    have hlast : s.buildTransaction + (oldest - s.buildTransaction) = oldest := by lia
    rw [hnext, hfinalized, hlength, List.range'_concat, Nat.one_mul, hlast]

theorem Simulated.step (h : Simulated planner G first s registered oldest)
    (hstep : Step G planner s s') :
    ∃ registered' oldest', Simulated planner G first s' registered' oldest' ∧
      ReflTransGen (Protocol.Move planner G.clusterRanks G.edge first)
        (s.abstract registered oldest) (s'.abstract registered' oldest') := by
  obtain ⟨registered', oldest', hsim, hmove | heq⟩ := h.follows hstep
  · exact ⟨registered', oldest', hsim, .single hmove⟩
  · exact ⟨registered', oldest', hsim, heq ▸ .refl⟩

theorem Simulated.steps (h : Simulated planner G first s registered oldest)
    (hsteps : ReflTransGen (Step G planner) s s') :
    ∃ registered' oldest', Simulated planner G first s' registered' oldest' ∧
      ReflTransGen (Protocol.Move planner G.clusterRanks G.edge first)
        (s.abstract registered oldest) (s'.abstract registered' oldest') := by
  induction hsteps with
  | refl => exact ⟨registered, oldest, h, .refl⟩
  | tail _ hstep ih =>
      obtain ⟨r, o, hsim, hmoves⟩ := ih
      obtain ⟨r', o', hsim', hmoves'⟩ := hsim.step hstep
      exact ⟨r', o', hsim', hmoves.trans hmoves'⟩

theorem simulated_of_run {actions : List (Action ι V)}
    (h : run G planner (State.init G first) actions = some s) :
    ∃ registered oldest, Simulated planner G first s registered oldest := by
  obtain ⟨registered, oldest, hsim, -⟩ := simulated_init.steps (steps_of_run h)
  exact ⟨registered, oldest, hsim⟩

omit [DecidableEq ι] in
theorem Simulated.mem_finalized (h : Simulated planner G first s registered oldest) {T : ID} :
    T ∈ s.finalized ↔ first ≤ T ∧ T < oldest := by
  have hfirst : first ≤ oldest := h.inv.core.queues.first_le
  rw [h.finalized, List.mem_range'_1]
  lia

end State

end Prf
