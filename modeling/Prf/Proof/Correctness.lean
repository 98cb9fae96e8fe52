import Prf.Proof.Agreement
import Prf.Proof.Built
import Prf.Proof.ThreadPool

/-!
# The program computes its meaning

All layers together: with a pool of threads, whichever planner is used and however the threads take
turns, the program comes to rest, and what it has told the functions outside the graph then is what
the program means for the values the user threads have sent. Neither the number of threads nor the
schedule can be seen from outside.
-/

namespace Prf

variable {ι V : Type} [DecidableEq ι] {G : Graph ι V} {planner : Planner} {first : ID}
  {order : List ι}

namespace Graph

/-- The calls of functions outside the graph that the program means for a sequence of transactions in
which `tops` are sent from outside the graph. -/
def outputs (G : Graph ι V) (order : List ι) :
    (ι → Option V) → List (ID × (ι → Option V)) → List (ID × Delivery ι V)
  | _, [] => []
  | last, (T, top) :: tops =>
      let sent := G.evaluate order last top
      (G.byAddress.flatMap fun x => (sent x).elim [] (G.deliveriesOf x)).map (T, ·) ++
        outputs G order (fun x => (sent x).or (last x)) tops

omit [DecidableEq ι] in
theorem Layered.listensAcyclic (h : G.Layered) (c : ID) : G.ListensAcyclic c := by
  refine listensAcyclic_of_lt (fun x => (G.inClusterRank x).value) fun x y hlistens => ?_
  obtain ⟨hlisten, hx, hy⟩ := hlistens
  refine h.inClusterRank_lt x y (h.linked_of_listens ?_) (hx.trans hy.symm)
  exact List.mem_append_left _ (List.mem_append.mpr hlisten)

end Graph

/-! ## Ids in the order of the ranks -/

theorem Protocol.Inv.mem_keys_of_future {clusterRanks : ID → Rank} {edge : ID → ID → Prop}
    {a : Protocol.State} (h : Protocol.Inv planner clusterRanks edge first a) {i : ℕ}
    {state : TransactionState} (hstate : a.planner.transactionStates[i]? = some state) {c : ID}
    (hc : c ∈ state.future) : c ∈ a.keys state.transactionId := by
  refine (h.of_past (R := fun a => state.transactionId < a.next ∧ c ∈ a.keys state.transactionId)
    (fun past hcore hexact => ?_) fun a a' hcore hmove hin => ?_).2
  · have hdescribes := hexact.2 i state hstate
    obtain ⟨hrunning, hannounced, -⟩ := (hdescribes.future c).mp hc
    rw [hdescribes.transactionId]
    have hlt := (hcore.queues.transactions _ hrunning).2.1
    exact ⟨hlt.trans_le hcore.queues.registered_le, hannounced.1⟩
  · obtain ⟨hlt, hkey⟩ := hin
    cases hmove
    case register =>
      refine ⟨Nat.lt_succ_of_lt hlt, ?_⟩
      simpa only [Function.update_of_ne hlt.ne] using hkey
    case send | generate | collect =>
      refine ⟨hlt, ?_⟩
      simp only [Function.update_apply]
      split <;> simp_all
    all_goals exact ⟨hlt, hkey⟩

namespace State

variable {s : State ι V} {actions : List (Action ι V)}

omit [DecidableEq ι] in
theorem exists_clusterId_update (h : ∀ T, ∀ c ∈ (s.inner T).targetClusters, ∃ x, G.clusterId x = c)
    {T' : ID} {t : InnerTransaction ι V}
    (ht : ∀ c ∈ t.targetClusters, c ∈ (s.inner T').targetClusters ∨ ∃ x, G.clusterId x = c) {T c : ID}
    (hc : c ∈ (Function.update s.inner T' t T).targetClusters) : ∃ x, G.clusterId x = c := by
  by_cases heq : T = T'
  · subst heq
    rw [Function.update_self] at hc
    exact (ht c hc).elim (h T c) id
  · rw [Function.update_of_ne heq] at hc
    exact h T c hc

theorem targetClusters_send_cases {t : InnerTransaction ι V} {x : ι} {value : V} {store : Store ι V}
    {c : ID} (hc : c ∈ (G.send x value store t).2.targetClusters) :
    c ∈ t.targetClusters ∨ ∃ y, G.clusterId y = c := by
  rw [InnerTransaction.mem_targetClusters, Graph.mem_keys_send] at hc
  rw [InnerTransaction.mem_targetClusters]
  exact hc.imp_right fun ⟨_, y, _, hy⟩ => ⟨y, hy⟩

theorem Reached.exists_clusterId (h : Reached planner G first s) :
    ∀ T, ∀ c ∈ (s.inner T).targetClusters, ∃ x, G.clusterId x = c := by
  induction h with
  | refl => simp [State.init, InnerTransaction.targetClusters, InnerTransaction.new]
  | @tail s s' hreach hstep ih =>
      obtain ⟨registered, hsim⟩ := Reached.simulated hreach
      intro T c hc
      cases hstep
      case register =>
        refine exists_clusterId_update ih (fun d hd => ?_) hc
        simp [InnerTransaction.targetClusters, InnerTransaction.new] at hd
      case afterBuildHook | send =>
        exact exists_clusterId_update ih (fun _ => targetClusters_send_cases) hc
      case generate i T' d hi =>
        refine exists_clusterId_update ih (fun e he => ?_) hc
        rw [targetClusters_generate, Finset.mem_insert] at he
        refine .inl (he.elim ?_ id)
        rintro rfl
        have hphase : (s.abstract registered s.oldest).phase T' e = some .announced :=
          abstract_phase hsim.wellFormed hi
        exact (hsim.inv.core.tasks.phase_key T' e _ hphase).1
      case collect i T' d sub hi hfront =>
        have hsub := hsim.wellFormed.sub T' d sub (phaseOf_of_getElem? hsim.wellFormed.tasks_nodup hi)
        refine exists_clusterId_update ih (fun e he => ?_) hc
        rw [(targetClusters_collect hsub _).1, Finset.mem_union] at he
        refine he.imp_right fun hnew => ?_
        obtain ⟨y, hy⟩ := hsub.nonempty e ((sub.mem_targetClusters e).mp hnew)
        obtain ⟨-, -, z, -, hz, -⟩ := hsub.edge e y hy
        exact ⟨z, hz⟩
      all_goals exact ih T c hc

theorem Reached.inRankOrder (h : Reached planner G first s)
    (hmono : ∀ x y, G.clusterId x < G.clusterId y →
      (G.clusterRanks (G.clusterId x)).value ≤ (G.clusterRanks (G.clusterId y)).value) :
    s.planner.InRankOrder G.clusterRanks := by
  obtain ⟨registered, hsim⟩ := h.simulated
  intro pass state _ _ _ hstate _ c hc d hd hlt _
  obtain ⟨x, rfl⟩ := h.exists_clusterId _ c (hsim.inv.mem_keys_of_future hstate hc)
  obtain ⟨y, rfl⟩ := h.exists_clusterId _ d (hsim.inv.mem_keys_of_future hstate hd)
  exact hmono x y hlt

/-- Neither planner starts a cluster out of the order of the ranks, if the ids of the clusters follow
them or the planner is `simple_planner`. -/
theorem orderly_of_run (hplanner : planner = .simple ∨ ∀ x y, G.clusterId x < G.clusterId y →
      (G.clusterRanks (G.clusterId x)).value ≤ (G.clusterRanks (G.clusterId y)).value)
    (hrun : run G planner (State.init G first) actions = some s) : Orderly planner G first s := by
  cases planner with
  | simple => exact Reached.orderly_simple (steps_of_run hrun)
  | rankBased =>
      have hmono := hplanner.resolve_left nofun
      exact orderly_rankBased .refl hrun fun k t ht => Reached.inRankOrder (steps_of_run ht) hmono

theorem flatMap_deliveriesIn_eq_outputs (hlayered : G.Layered)
    (horder : Dataflow.Enumerates G.LinkedTo order) (n k : ℕ)
    (hsolved : ∀ T, k ≤ T → T < k + n → ∀ x, lastSent s.trace T x =
      G.sentBy (lastBefore s.trace T) (topSent s.trace T) (lastSent s.trace T) x) :
    (List.range' k n).flatMap (deliveriesIn G s) =
      G.outputs order (lastBefore s.trace k)
        ((List.range' k n).map fun T => (T, topSent s.trace T)) := by
  induction n generalizing k with
  | zero => rfl
  | succ n ih =>
      have hsent : lastSent s.trace k = G.evaluate order (lastBefore s.trace k) (topSent s.trace k) :=
        hlayered.eq_evaluate horder (hsolved k le_rfl (by omega))
      rw [List.range'_succ, List.flatMap_cons, List.map_cons, Graph.outputs, ← hsent,
        ih (k + 1) fun T hle hlt => hsolved T (by omega) (by omega), deliveriesIn]
      rfl

/-- In an orderly run the calls are those the program means for what has been sent. -/
theorem Orderly.delivered_eq_outputs (h : Orderly planner G first s) (hlayered : G.Layered)
    (horder : Dataflow.Enumerates G.LinkedTo order) :
    s.delivered =
      G.outputs order (fun _ => none) (s.finalized.map fun T => (T, topSent s.trace T)) := by
  have hreach := h.reached
  obtain ⟨registered, hsim⟩ := hreach.simulated
  have hsolved := h.solved hlayered
  rw [hreach.delivered_eq, hsim.finalized, ← hreach.lastBefore_none]
  exact flatMap_deliveriesIn_eq_outputs hlayered horder _ first fun T hfirst hlt =>
    hsolved T hfirst (by lia)

theorem Reached.finalized_of_atRest (h : Reached planner G first s)
    (hrest : AtRest G planner s)
    (hcommitted : ∀ T, first ≤ T → T < s.nextTransactionId → T ∈ s.committed) :
    s.finalized = List.range' first (s.nextTransactionId - first) := by
  obtain ⟨registered, hsim⟩ := h.simulated
  have hqueues := hsim.inv.core.queues
  have hle : s.oldest ≤ s.nextTransactionId := hqueues.oldest_le.trans hqueues.registered_le
  have hopen : s.oldest ∉ s.committed := hsim.reachable.oldest_open (h.quiescent hrest registered)
  have hge : s.nextTransactionId ≤ s.oldest := by
    by_contra hlt
    exact hopen (hcommitted s.oldest hqueues.first_le (not_le.mp hlt))
  rw [hsim.finalized, le_antisymm hle hge]

end State

variable {n : ℕ} {p p' : Pool n (State ι V)} {moves moves' : List (Pool.Move n (Action ι V))}

theorem sends_eq_of_filter {actions actions' : List (Action ι V)}
    (h : actions.filter (fun action => ¬ action.isTask) = actions') :
    G.sends first actions = G.sends first actions' := by
  funext T x
  have hsent : actions'.filterMap (Action.sent? T x) = actions.filterMap (Action.sent? T x) := by
    rw [← h, List.filterMap_filter]
    refine List.filterMap_congr fun action _ => ?_
    cases action <;> rfl
  rw [Graph.sends, Graph.sends, hsent]

theorem not_sends_of_internal {moves : List (Pool.Move n (Action ι V))}
    (hinternal : ∀ m ∈ moves, IsInternal m) (T : ID) (x : ι) :
    (moves.filterMap Pool.Move.action?).filterMap (Action.sent? T x) = [] := by
  rw [List.filterMap_filterMap, List.filterMap_eq_nil_iff]
  intro m hm
  have hown := hinternal m hm
  rcases m with w | action
  · rfl
  · cases action with
    | send => cases hown
    | _ => rfl

/-- Wherever a program with every transaction committed has come to rest, the functions outside the
graph have been called as it means. -/
theorem delivered_of_rest (hn : 0 < n) (hlayered : G.Layered)
    (horder : Dataflow.Enumerates G.LinkedTo order)
    (hplanner : planner = .simple ∨ ∀ x y, G.clusterId x < G.clusterId y →
      (G.clusterRanks (G.clusterId x)).value ≤ (G.clusterRanks (G.clusterId y)).value)
    (hrun : Pool.run (updateTasks G planner) (pooled n G first) moves = some p)
    (hcommitted : ∀ T, first ≤ T → T < p.system.nextTransactionId → T ∈ p.system.committed)
    (hinternal : ∀ m ∈ moves', IsInternal m)
    (hrun' : Pool.run (updateTasks G planner) p moves' = some p')
    (hrest : ∀ m, IsInternal m → p'.step (updateTasks G planner) m = none) :
    p'.system.delivered = G.outputs order (fun _ => none)
      ((List.range' first (p.system.nextTransactionId - first)).map fun T =>
        (T, G.sends first (moves.filterMap Pool.Move.action?) T)) := by
  have hwhole : Pool.run (updateTasks G planner) (pooled n G first) (moves ++ moves') = some p' := by
    rw [Pool.run, List.foldlM_append, Option.bind_eq_bind, Option.bind_eq_some_iff]
    exact ⟨p, hrun, hrun'⟩
  obtain ⟨actions, hactions, hothers⟩ := Pool.system_run lawful_updateTasks hwhole
  replace hactions := (State.run_eq_foldlM _ actions).trans hactions
  obtain ⟨taken, hinv⟩ := inv_of_pooled_run hwhole
  have hreach := reached_of_pooled_run hwhole
  have husers := usersPart_pool_run hrun' hinternal
  simp only [State.usersPart, Prod.mk.injEq] at husers
  have hfinalized : p'.system.finalized = List.range' first (p.system.nextTransactionId - first) := by
    rw [← husers.1]
    refine hreach.finalized_of_atRest (atRest_of_pool hn hreach hinv hrest) fun T hfirst hlt => ?_
    rw [husers.2.1]
    exact hcommitted T hfirst (husers.1 ▸ hlt)
  have hsends : ∀ T ∈ p'.system.finalized, topSent p'.system.trace T =
      G.sends first (moves.filterMap Pool.Move.action?) T := by
    intro T hT
    rw [State.topSent_eq_sends hactions hT, sends_eq_of_filter hothers, List.filterMap_append]
    funext x
    rw [Graph.sends, Graph.sends, List.filterMap_append, not_sends_of_internal hinternal,
      List.append_nil]
  rw [(State.orderly_of_run hplanner hactions).delivered_eq_outputs hlayered horder, ← hfinalized]
  congr 1
  exact List.map_congr_left fun T hT => by rw [hsends T hT]

/-- The program computes its meaning: with at least one thread in the pool, and when every transaction
that has begun is committed, it can come to rest, and wherever it does the functions outside the graph
have been called as the program means for what the user threads have sent. -/
theorem computes (hn : 0 < n) (hlayered : G.Layered)
    (horder : Dataflow.Enumerates G.LinkedTo order)
    (hplanner : planner = .simple ∨ ∀ x y, G.clusterId x < G.clusterId y →
      (G.clusterRanks (G.clusterId x)).value ≤ (G.clusterRanks (G.clusterId y)).value)
    (hrun : Pool.run (updateTasks G planner) (pooled n G first) moves = some p)
    (hcommitted : ∀ T, first ≤ T → T < p.system.nextTransactionId → T ∈ p.system.committed) :
    (∃ moves' p', (∀ m ∈ moves', IsInternal m) ∧
        Pool.run (updateTasks G planner) p moves' = some p' ∧
        ∀ m, IsInternal m → p'.step (updateTasks G planner) m = none) ∧
      ∀ moves' p', (∀ m ∈ moves', IsInternal m) →
        Pool.run (updateTasks G planner) p moves' = some p' →
        (∀ m, IsInternal m → p'.step (updateTasks G planner) m = none) →
        p'.system.delivered = G.outputs order (fun _ => none)
          ((List.range' first (p.system.nextTransactionId - first)).map fun T =>
            (T, G.sends first (moves.filterMap Pool.Move.action?) T)) := by
  constructor
  · obtain ⟨moves', hinternal, p', hrun', hrest⟩ :=
      Termination.exists_rest (acc_of_pooled_run hlayered.listensAcyclic hrun)
    exact ⟨moves', p', hinternal, hrun', hrest⟩
  · intro moves' p' hinternal hrun' hrest
    exact delivered_of_rest hn hlayered horder hplanner hrun hcommitted hinternal hrun' hrest

/-- The transactions of `twoSends` that are committed, with two threads in the pool. -/
def allCommitted : Pool 2 (State (Fin 3) ℕ) :=
  (Pool.run (updateTasks sinkMapHold .rankBased) (pooled 2 sinkMapHold 0)
    (twoSends.dropLast.map .system)).getD (pooled 2 sinkMapHold 0)

/-- The listener of the `hold` is called with the initial value, and with what is sent plus one. -/
theorem computes_allCommitted :
    (sinkMapHold.outputs [0, 1, 2] (fun _ => none) ((List.range' 0 3).map fun T =>
        (T, sinkMapHold.sends 0 twoSends.dropLast T))).map (fun call => (call.1, call.2.value)) =
        [(0, 0), (1, 6), (2, 8)] ∧
      (∃ moves p, (∀ m ∈ moves, IsInternal m) ∧
        Pool.run (updateTasks sinkMapHold .rankBased) allCommitted moves = some p ∧
        ∀ m, IsInternal m → p.step (updateTasks sinkMapHold .rankBased) m = none) ∧
      ∀ moves p, (∀ m ∈ moves, IsInternal m) →
        Pool.run (updateTasks sinkMapHold .rankBased) allCommitted moves = some p →
        (∀ m, IsInternal m → p.step (updateTasks sinkMapHold .rankBased) m = none) →
        p.system.delivered = sinkMapHold.outputs [0, 1, 2] (fun _ => none)
          ((List.range' 0 (allCommitted.system.nextTransactionId - 0)).map fun T =>
            (T, sinkMapHold.sends 0
              ((twoSends.dropLast.map Pool.Move.system).filterMap
                (Pool.Move.action? (n := 2))) T)) := by
  have hlayered : sinkMapHold.Layered := ⟨by decide, by decide, by decide, by decide⟩
  have horder : Dataflow.Enumerates sinkMapHold.LinkedTo [0, 1, 2] :=
    ⟨by decide, by decide, by decide⟩
  have hmono : ∀ x y, sinkMapHold.clusterId x < sinkMapHold.clusterId y →
      (sinkMapHold.clusterRanks (sinkMapHold.clusterId x)).value ≤
        (sinkMapHold.clusterRanks (sinkMapHold.clusterId y)).value := by
    decide
  have hrun : Pool.run (updateTasks sinkMapHold .rankBased) (pooled 2 sinkMapHold 0)
      (twoSends.dropLast.map .system) = some allCommitted := by
    obtain ⟨p, hp⟩ := Option.isSome_iff_exists.mp (show (Pool.run
      (updateTasks sinkMapHold .rankBased) (pooled 2 sinkMapHold 0)
      (twoSends.dropLast.map .system)).isSome by decide +kernel)
    rw [allCommitted, hp, Option.getD_some]
  refine ⟨by decide +kernel, computes (by decide) hlayered horder (.inr hmono) hrun ?_⟩
  have hall : ∀ T < allCommitted.system.nextTransactionId, T ∈ allCommitted.system.committed := by
    decide +kernel
  exact fun T _ hlt => hall T hlt

/-! ## From the calls of user code -/

namespace Source

variable {s : Source V} {built : NodeManager} {node : ι → ℕ}

/-- What user code has written is what it is told: a program without loops that has been accepted and
built, run with at least one thread and either planner, comes to rest when all transactions are
committed, and then the functions outside have been called for the values worked out one after the
other in the order in which user code made them. -/
theorem delivers {calls : List (Call V)} (hcalls : Source.start.run calls = some (.ok s))
    (hloop : ∀ x ∈ s.nodes, (s.primitive x).isLoop = false)
    (hsink : ∃ x ∈ s.nodes, (s.primitive x).isSink) (hsize : s.nodes.length < u64Size) {fuel : ℕ}
    (hbuild : s.program.manager.build fuel = some (.ok built)) (hranks : built.RanksIncrease)
    (hG : s.Describes built node G) (hn : 0 < n)
    (hplanner : planner = .simple ∨ ∀ x y, G.clusterId x < G.clusterId y →
      (G.clusterRanks (G.clusterId x)).value ≤ (G.clusterRanks (G.clusterId y)).value)
    (hrun : Pool.run (updateTasks G planner) (pooled n G first) moves = some p)
    (hcommitted : ∀ T, first ≤ T → T < p.system.nextTransactionId → T ∈ p.system.committed) :
    (∃ moves' p', (∀ m ∈ moves', IsInternal m) ∧
        Pool.run (updateTasks G planner) p moves' = some p' ∧
        ∀ m, IsInternal m → p'.step (updateTasks G planner) m = none) ∧
      ∀ moves' p', (∀ m ∈ moves', IsInternal m) →
        Pool.run (updateTasks G planner) p moves' = some p' →
        (∀ m, IsInternal m → p'.step (updateTasks G planner) m = none) →
        p'.system.delivered = G.outputs G.nodes (fun _ => none)
          ((List.range' first (p.system.nextTransactionId - first)).map fun T =>
            (T, G.sends first (moves.filterMap Pool.Move.action?) T)) := by
  have hs : s.Faithful := faithful_start.run hcalls
  have hbuilt := hs.buildsInto hsize hbuild
  have hloopFree : ∀ x, (G.primitive x).isLoop = false := fun x =>
    (hG.isLoop_eq x).trans (hloop _ (hG.node_mem x))
  have hsinks : ∃ x, (G.primitive x).isSink := by
    obtain ⟨a, ha, hsink⟩ := hsink
    obtain ⟨x, rfl⟩ := hG.exists_node ha
    exact ⟨x, (hG.isSink_eq x).trans hsink⟩
  have hlayered : G.Layered := (hG.layered_iff hs hbuilt hloopFree hsinks).mpr hranks
  constructor
  · obtain ⟨moves', hinternal, p', hrun', hrest⟩ :=
      Termination.exists_rest (acc_of_pooled_run hlayered.listensAcyclic hrun)
    exact ⟨moves', p', hinternal, hrun', hrest⟩
  · intro moves' p' hinternal hrun' hrest
    exact delivered_of_rest hn hlayered (hG.enumerates hs) hplanner hrun hcommitted hinternal hrun'
      hrest

/-- The written program with two threads, after two transactions that send. -/
def writtenRun : Pool 2 (State (Fin 3) ℕ) :=
  (Pool.run (updateTasks writtenGraph .simple) (pooled 2 writtenGraph 0)
    (twoSends.dropLast.map .system)).getD (pooled 2 writtenGraph 0)

theorem delivers_mapInCluster :
    (writtenGraph.outputs writtenGraph.nodes (fun _ => none) ((List.range' 0 3).map fun T =>
        (T, writtenGraph.sends 0 twoSends.dropLast T))).map (fun call => (call.1, call.2.value)) =
        [(0, 0), (1, 6), (2, 8)] ∧
      (∃ moves p, (∀ m ∈ moves, IsInternal m) ∧
        Pool.run (updateTasks writtenGraph .simple) writtenRun moves = some p ∧
        ∀ m, IsInternal m → p.step (updateTasks writtenGraph .simple) m = none) ∧
      ∀ moves p, (∀ m ∈ moves, IsInternal m) →
        Pool.run (updateTasks writtenGraph .simple) writtenRun moves = some p →
        (∀ m, IsInternal m → p.step (updateTasks writtenGraph .simple) m = none) →
        p.system.delivered = writtenGraph.outputs writtenGraph.nodes (fun _ => none)
          ((List.range' 0 (writtenRun.system.nextTransactionId - 0)).map fun T =>
            (T, writtenGraph.sends 0
              ((twoSends.dropLast.map Pool.Move.system).filterMap
                (Pool.Move.action? (n := 2))) T)) := by
  have hranks : writtenBuilt.RanksIncrease := by
    have hnodes : writtenBuilt.nodes = [0, 1, 2] := by decide +kernel
    rw [NodeManager.RanksIncrease, hnodes]
    decide +kernel
  have hrun : Pool.run (updateTasks writtenGraph .simple) (pooled 2 writtenGraph 0)
      (twoSends.dropLast.map .system) = some writtenRun := by
    obtain ⟨p, hp⟩ := Option.isSome_iff_exists.mp (show (Pool.run
      (updateTasks writtenGraph .simple) (pooled 2 writtenGraph 0)
      (twoSends.dropLast.map .system)).isSome by decide +kernel)
    rw [writtenRun, hp, Option.getD_some]
  have hall : ∀ T < writtenRun.system.nextTransactionId, T ∈ writtenRun.system.committed := by
    decide +kernel
  exact ⟨by decide +kernel, delivers run_mapInCluster (by decide +kernel) (by decide +kernel)
    (by decide +kernel) build_written hranks describes_writtenGraph (by decide) (.inl rfl) hrun
    fun T _ hlt => hall T hlt⟩

end Source

end Prf
