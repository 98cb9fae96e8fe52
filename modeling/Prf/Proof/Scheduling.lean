import Prf.Build
import Prf.Proof.Progress
import Prf.Proof.Refinement
import Prf.Proof.Serialisation

/-!
# Scheduling

What holds in every run of the program: each target cluster of a transaction is updated exactly
once, no transaction is stuck, and transactions do not overtake each other on a cluster.
-/

namespace Prf

open Relation

variable {ι V : Type} [DecidableEq ι] {G : Graph ι V} {planner : Planner} {first : ID}
  {s s' : State ι V} {actions actions' : List (Action ι V)}

/-! ## A run

The threads of the program take turns; what the user threads do is fixed. -/

instance (phase : TaskPhase ι V) : Decidable (phase = .finished) :=
  match phase with
  | .finished => isTrue rfl
  | .queued => isFalse nofun
  | .announced => isFalse nofun
  | .executing _ => isFalse nofun
  | .registered _ _ => isFalse nofun
  | .buffered _ => isFalse nofun

namespace State

/-- The threads of the program take turns, until none of them can move or `fuel` moves are made. -/
def turns (G : Graph ι V) (planner : Planner) : ℕ → State ι V → List (Action ι V)
  | 0, _ => []
  | fuel + 1, s =>
      let moves : List (Action ι V) := [.executor, .plannerHandle, .plannerReceive, .plannerPass] ++
        (List.range s.tasks.length).map Action.task
      match moves.findSome? fun action => (step G planner s action).map (action, ·) with
      | none => []
      | some (action, s) => action :: turns G planner fuel s

/-- What user threads do, and then `fuel` moves of the threads of the program. -/
def played (G : Graph ι V) (planner : Planner) (users : List (Action ι V)) (fuel : ℕ) :
    List (Action ι V) :=
  users ++ (run G planner (State.init G 0) users).elim [] (turns G planner fuel)

end State

/-- A `hold` of a mapped sink, each in a cluster of its own. -/
def sinkMapHold : Graph (Fin 3) ℕ :=
  Graph.ofProgram (List.finRange 3) ![.streamSink, .streamMap (· + 1) 0, .hold 0 1] Fin.val ![0, 1, 2]
    (fun _ => .zero) Rank.ofNat ![0, 0, 1] (by decide) (by decide) (by decide) (by decide)

/-- Two transactions that send, and one that is not committed. -/
def twoSends : List (Action (Fin 3) ℕ) :=
  [.register, .afterBuildHook, .commit 0, .register, .send 1 0 5, .commit 1, .register, .send 2 0 7,
    .commit 2, .register]

/-- Transaction 2 is committed, transaction 1 is not. -/
def behindOpen : List (Action (Fin 3) ℕ) :=
  [.register, .afterBuildHook, .commit 0, .register, .register, .send 2 0 7, .commit 2]

/-- The state of `twoSends` after some moves of the threads of the program. -/
def sinkMapHoldAt (fuel : ℕ) : State (Fin 3) ℕ :=
  (State.run sinkMapHold .rankBased (State.init sinkMapHold 0)
    (State.played sinkMapHold .rankBased twoSends fuel)).getD (State.init sinkMapHold 0)

theorem run_sinkMapHoldAt (fuel : ℕ)
    (h : (State.run sinkMapHold .rankBased (State.init sinkMapHold 0)
      (State.played sinkMapHold .rankBased twoSends fuel)).isSome) :
    State.run sinkMapHold .rankBased (State.init sinkMapHold 0)
      (State.played sinkMapHold .rankBased twoSends fuel) = some (sinkMapHoldAt fuel) := by
  obtain ⟨s, hs⟩ := Option.isSome_iff_exists.mp h
  rw [sinkMapHoldAt, hs, Option.getD_some]

namespace State

/-- A sink, a map of it, and a merge of the two, each in a cluster of its own. -/
def diamond (clusterId : Fin 3 → ID) (clusterRanks : ID → Rank) : Graph (Fin 3) ℕ :=
  Graph.ofProgram (List.finRange 3)
    ![.streamSink, .streamMap (· + 10) 0, .merge (fun a b => 100 * a + b) 0 1] Fin.val clusterId
    (fun _ => .zero) clusterRanks (fun _ => 0) (by decide) (by decide) (by decide)
    (fun _ y h => by fin_cases y <;> cases h)

/-- The build transaction, and one that sends. -/
def oneSend : List (Action (Fin 3) ℕ) :=
  [.register, .commit 0, .register, .send 1 0 5, .commit 1]

/-! ## Exactly once -/

/-- The clusters whose update task has been started for a transaction. -/
def updatedClusters (s : State ι V) (T : ID) : Multiset ID :=
  (s.tasks.filter fun task => task.transactionId = T).map Task.clusterId

variable {registered oldest : ID}

omit [DecidableEq ι] in
theorem mem_updatedClusters {T c : ID} : c ∈ s.updatedClusters T ↔ s.phaseOf T c ≠ none := by
  rw [ne_eq, phaseOf_eq_none_iff, not_not]
  simp only [updatedClusters, Multiset.mem_coe, List.mem_map, List.mem_filter, Task.key,
    Prod.mk.injEq, decide_eq_true_eq]
  exact exists_congr fun task => by tauto

omit [DecidableEq ι] in
theorem nodup_updatedClusters (h : WellFormed G s) (T : ID) : (s.updatedClusters T).Nodup := by
  refine Multiset.coe_nodup.mpr ?_
  have hnodup := h.tasks_nodup
  rw [List.nodup_map_iff_inj_on h.tasks_nodup.of_map] at hnodup
  refine (List.nodup_map_iff_inj_on (h.tasks_nodup.of_map.filter _)).mpr ?_
  intro task htask task' htask' heq
  simp only [List.mem_filter, decide_eq_true_eq] at htask htask'
  refine hnodup task htask.1 task' htask'.1 ?_
  rw [Task.key, Task.key, htask.2, htask'.2, heq]

omit [DecidableEq ι] in
/-- A finalised transaction has updated its targets, each once. -/
theorem Simulated.updatedClusters_eq (h : Simulated planner G first s registered oldest) {T : ID}
    (hfirst : first ≤ T) (hT : T < oldest) :
    s.updatedClusters T = (s.inner T).targetClusters.val := by
  have htasks := h.inv.core.tasks
  refine (Multiset.Nodup.ext (nodup_updatedClusters h.wellFormed T) (Finset.nodup _)).mpr
    fun c => ?_
  rw [mem_updatedClusters, Finset.mem_val]
  have hphase : (s.abstract registered oldest).phase T c = (s.phaseOf T c).map TaskPhase.abstract := rfl
  constructor
  · intro hsome
    obtain ⟨phase, hc⟩ := Option.ne_none_iff_exists'.mp hsome
    exact (htasks.phase_key T c phase.abstract (by rw [hphase, hc]; rfl)).1
  · intro hkey hnone
    have hdone := htasks.done T hfirst hT c hkey
    rw [hphase, hnone] at hdone
    cases hdone

/-- Every target cluster is updated exactly once: when a transaction is finalised, the clusters whose
tasks were started for it are the keys of its `targets_outside_current_cluster`, each once, these
tasks have finished, and none is started for it afterwards. -/
theorem updates_exactly_once (hrun : run G planner (State.init G first) actions = some s) {T : ID}
    (hT : T ∈ s.finalized) :
    s.updatedClusters T = (s.inner T).targetClusters.val ∧
      (∀ task ∈ s.tasks, task.transactionId = T → task.phase = .finished) ∧
      ∀ actions' s', run G planner s actions' = some s' →
        s'.updatedClusters T = s.updatedClusters T := by
  obtain ⟨registered, oldest, hsim⟩ := simulated_of_run hrun
  obtain ⟨hfirst, hlt⟩ := hsim.mem_finalized.mp hT
  have hupdated := hsim.updatedClusters_eq hfirst hlt
  refine ⟨hupdated, fun task htask hid => ?_, fun actions' s' hrun' => ?_⟩
  · have hphase := phaseOf_of_mem hsim.wellFormed.tasks_nodup htask
    rw [hid] at hphase
    have habstract : (s.abstract registered oldest).phase T task.clusterId =
        some task.phase.abstract := by
      simp [abstract, hphase]
    have htasks := hsim.inv.core.tasks
    have hdone := htasks.done T hfirst hlt _ (htasks.phase_key T _ _ habstract).1
    rw [habstract, Option.some.injEq] at hdone
    cases htaskPhase : task.phase <;> simp [htaskPhase, TaskPhase.abstract] at hdone
    rfl
  · obtain ⟨registered', oldest', hsim', hmoves⟩ := hsim.steps (steps_of_run hrun')
    obtain ⟨hlt', hkeys, -⟩ := Protocol.Reachable.frozen hsim.reachable hlt hmoves
    rw [hsim'.updatedClusters_eq hfirst hlt', hupdated]
    exact congrArg Finset.val hkeys

theorem updates_exactly_once_sinkMapHold :
    (sinkMapHoldAt 200).updatedClusters 1 = ((sinkMapHoldAt 200).inner 1).targetClusters.val ∧
      (∀ task ∈ (sinkMapHoldAt 200).tasks, task.transactionId = 1 → task.phase = .finished) ∧
      ∀ actions s, run sinkMapHold .rankBased (sinkMapHoldAt 200) actions = some s →
        s.updatedClusters 1 = (sinkMapHoldAt 200).updatedClusters 1 :=
  updates_exactly_once (run_sinkMapHoldAt 200 (by decide +kernel)) (by decide +kernel)

/-! ## No stuck state -/

/-- No transaction is stuck: where the queues are empty, no task is queued or running, and the
planner has handled every message and its pass has ended, the oldest unfinalised transaction has not
been committed. -/
theorem oldest_waits_for_user (hrun : run G planner (State.init G first) actions = some s)
    (hexecutor : s.executorMessages = []) (hplanner : s.plannerMessages = [])
    (htasks : ∀ task ∈ s.tasks, task.phase = .finished) (hreceived : s.planner.received = none)
    (hpass : s.planner.runningPlanner = none) {T : ID} (hfirst : first ≤ T)
    (hunfinalized : T ∉ s.finalized) (holdest : ∀ T', first ≤ T' → T' < T → T' ∈ s.finalized) :
    T ∉ s.committed := by
  obtain ⟨registered, oldest, hsim⟩ := simulated_of_run hrun
  have hle : first ≤ oldest := hsim.inv.core.queues.first_le
  have hT : T = oldest := by
    have hge : oldest ≤ T := by
      by_contra hlt
      exact hunfinalized (hsim.mem_finalized.mpr ⟨hfirst, not_le.mp hlt⟩)
    rcases hge.lt_or_eq with hlt | heq
    · exact absurd (hsim.mem_finalized.mp (holdest oldest hle hlt)).2 (lt_irrefl _)
    · exact heq.symm
  rw [hT]
  refine Protocol.Reachable.oldest_open hsim.reachable
    ⟨hexecutor, hplanner, hreceived, hpass, fun T' c phase hphase => ?_⟩
  simp only [abstract, Option.map_eq_some_iff] at hphase
  obtain ⟨taskPhase, htask, rfl⟩ := hphase
  have hfinished := htasks _ (exists_task_of_phaseOf htask)
  simp only at hfinished
  rw [hfinished]
  rfl

theorem oldest_waits_for_user_sinkMapHold : 3 ∉ (sinkMapHoldAt 200).committed :=
  oldest_waits_for_user (T := 3) (run_sinkMapHoldAt 200 (by decide +kernel)) (by decide +kernel)
    (by decide +kernel) (by decide +kernel) (by decide +kernel) (by decide +kernel) (by decide)
    (by decide +kernel)
    (by intro T' _ hT'; interval_cases T' <;> decide +kernel)

/-! ## No overtaking -/

omit [DecidableEq ι] in
theorem ranksIncrease_of_links (hglobal : ∀ x, (G.primitive x).isGlobalCellLoop = false)
    (hranks : ∀ x y, x ∈ (G.primitive y).links → G.clusterId x ≠ G.clusterId y →
      (G.clusterRanks (G.clusterId x)).value < (G.clusterRanks (G.clusterId y)).value) :
    Protocol.RanksIncrease G.clusterRanks G.edge := by
  rintro c d ⟨hne, x, y, rfl, rfl, hlistens⟩
  refine hranks x y ?_ (Ne.symm hne)
  rcases List.mem_append.mp hlistens with hlistens | hlistens
  · rcases List.mem_append.mp hlistens with hlistens | hlistens
    · exact List.mem_append_left _ hlistens
    · exact absurd (G.loop_cluster x y hlistens) (Ne.symm hne)
  · have hloop := hglobal y
    cases hy : G.primitive y <;> simp_all [Primitive.globalListen, Primitive.isGlobalCellLoop]

/-- Transactions do not overtake each other: once the task of `Tj` for `c` has been started, the task
of an older `Ti` for the same cluster or one of lower rank has finished, or is never started. -/
theorem no_overtaking (hglobal : ∀ x, (G.primitive x).isGlobalCellLoop = false)
    (hranks : ∀ x y, x ∈ (G.primitive y).links → G.clusterId x ≠ G.clusterId y →
      (G.clusterRanks (G.clusterId x)).value < (G.clusterRanks (G.clusterId y)).value)
    (hrun : run G planner (State.init G first) actions = some s) {Ti Tj p c : ID} (hlt : Ti < Tj)
    (hbelow : p = c ∨ (G.clusterRanks p).value < (G.clusterRanks c).value)
    (hstarted : ∃ task ∈ s.tasks, task.transactionId = Tj ∧ task.clusterId = c)
    (hrun' : run G planner s actions' = some s')
    (hupdated : ∃ task ∈ s'.tasks, task.transactionId = Ti ∧ task.clusterId = p) :
    ∃ task ∈ s.tasks, task.transactionId = Ti ∧ task.clusterId = p ∧ task.phase = .finished := by
  obtain ⟨registered, oldest, hsim⟩ := simulated_of_run hrun
  obtain ⟨registered', oldest', hsim', hmoves⟩ := hsim.steps (steps_of_run hrun')
  obtain ⟨task, htask, rfl, rfl⟩ := hstarted
  obtain ⟨task', htask', rfl, rfl⟩ := hupdated
  have hphase := phaseOf_of_mem hsim.wellFormed.tasks_nodup htask
  have hphase' := phaseOf_of_mem hsim'.wellFormed.tasks_nodup htask'
  have habstract' : (s'.abstract registered' oldest').phase task'.transactionId task'.clusterId =
      some task'.phase.abstract := by
    simp [abstract, hphase']
  have hinv' := hsim'.inv
  have hfirst : first ≤ task'.transactionId :=
    (hinv'.core.queues.committed _ (hinv'.core.tasks.phase_key _ _ _ habstract').2.1).1
  have hfinished := Protocol.Reachable.serialised hsim.reachable
    (ranksIncrease_of_links hglobal hranks) hfirst hlt hbelow (by simp [abstract, hphase]) hmoves
    (by simp [habstract'])
  simp only [abstract, Option.map_eq_some_iff] at hfinished
  obtain ⟨phase, hfound, hphase⟩ := hfinished
  refine ⟨_, exists_task_of_phaseOf hfound, rfl, rfl, ?_⟩
  cases phase <;> simp [TaskPhase.abstract] at hphase
  rfl

/-- After 50 moves the second transaction has started on the cluster of the map, and the first one
has still to update the cluster of the `hold`. -/
theorem no_overtaking_sinkMapHold :
    ∃ task ∈ (sinkMapHoldAt 50).tasks, task.transactionId = 1 ∧ task.clusterId = 1 ∧
      task.phase = .finished :=
  no_overtaking (by decide) (by decide) (run_sinkMapHoldAt 50 (by decide +kernel))
    (show 1 < 2 by decide) (.inl rfl) ⟨_, List.mem_of_getElem? (i := 2) (by rfl), rfl, rfl⟩
    (show run sinkMapHold .rankBased (sinkMapHoldAt 50) [] = some (sinkMapHoldAt 50) from rfl)
    ⟨_, List.mem_of_getElem? (i := 0) (by rfl), rfl, rfl⟩

end State

end Prf
