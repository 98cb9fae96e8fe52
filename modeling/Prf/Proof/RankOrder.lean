import Prf.Proof.RankBased
import Prf.Proof.Sequential

/-!
# The order of the clusters in one transaction

A cluster may be updated once nothing that its transaction has still before it is of a smaller rank:
nothing can then come to feed it any more. `simple_planner` always proposes such a cluster.
`rank_based_planner` does where ids and ranks do not disagree among the clusters that wait.
-/

namespace Prf

/-- In the round the running planner is about to make, no cluster it comes to and would propose is
followed by one of a smaller rank. -/
def PlannerManager.InRankOrder (clusterRanks : ID → Rank) (manager : PlannerManager) : Prop :=
  ∀ pass state, manager.runningPlanner = some pass → pass.pushes = [] →
    manager.stopPlanningNeeded = false →
    manager.transactionStates[pass.index]? = some state → state.initialized = true →
    ∀ c ∈ state.future, ∀ d ∈ state.future, c < d →
      Undercuts clusterRanks
        (olderClusters manager.transactionStates pass.index ++ state.clustersBefore c) c →
      (clusterRanks c).value ≤ (clusterRanks d).value

theorem PlannerManager.inRankOrder_of_monotone {clusterRanks : ID → Rank}
    (hmono : ∀ c d, c < d → (clusterRanks c).value ≤ (clusterRanks d).value)
    (manager : PlannerManager) : manager.InRankOrder clusterRanks :=
  fun _ _ _ _ _ _ _ c _ d _ hlt _ => hmono c d hlt

namespace Protocol

variable {planner : Planner} {clusterRanks : ID → Rank} {edge : ID → ID → Prop} {first : ID}
  {s s' : State} {T c : ID}

def AtLeast (clusterRanks : ID → Rank) (c d : ID) : Prop :=
  (clusterRanks c).value ≤ (clusterRanks d).value

theorem RanksIncrease.atLeast (h : RanksIncrease clusterRanks edge) (c d e : ID)
    (hd : AtLeast clusterRanks c d) (hedge : edge d e) : AtLeast clusterRanks c e :=
  hd.trans (h d e hedge).le

/-- A cluster that is started, or about to be, is of the least rank its transaction has before it. -/
structure Ascending (clusterRanks : ID → Rank) (s : State) : Prop where
  start : ∀ T c, .startUpdateCluster T c ∈ s.proposals → s.Within T (AtLeast clusterRanks c)
  task : ∀ T c, s.phase T c ≠ none → s.Within T (AtLeast clusterRanks c)

/-- The next round of the running planner proposes clusters of least rank only. -/
def State.LeastNext (planner : Planner) (clusterRanks : ID → Rank) (s : State) : Prop :=
  ∀ pass pass', s.planner.runningPlanner = some pass → pass.pushes = [] →
    pass.next planner clusterRanks s.planner.transactionStates
      s.planner.stopPlanningNeeded = some pass' →
    ∀ T c, .startUpdateCluster T c ∈ pass'.pushes →
      ∃ (i : ℕ) (state : TransactionState), s.planner.transactionStates[i]? = some state ∧
        state.transactionId = T ∧ state.initialized = true ∧
        ∀ d ∈ state.now ∪ state.future, AtLeast clusterRanks c d

/-! ## From round to round -/

theorem Core.atLeast_move (h : Core edge first s) (hranks : RanksIncrease clusterRanks edge)
    (hmove : Move planner clusterRanks edge first s s')
    (hwithin : s.Within T (AtLeast clusterRanks c)) : s'.Within T (AtLeast clusterRanks c) := by
  by_cases hfirst : first ≤ T
  · exact h.within_move hmove (hranks.atLeast c) hfirst hwithin
  · have hle := h.queues.first_le.trans (oldest_le_move hmove)
    exact .inl ((not_le.mp hfirst).trans_le hle)

theorem Inv.within_of_view (h : Inv planner clusterRanks edge first s)
    (hranks : RanksIncrease clusterRanks edge) {i : ℕ} {state : TransactionState}
    (hstate : s.planner.transactionStates[i]? = some state) (hinitialized : state.initialized = true)
    (hleast : ∀ d ∈ state.now ∪ state.future, AtLeast clusterRanks c d) :
    s.Within state.transactionId (AtLeast clusterRanks c) := by
  refine h.of_past (fun past hcore hexact => ?_) fun _ _ hcore hmove hwithin =>
    hcore.atLeast_move hranks hmove hwithin
  exact hexact.within hcore hstate hinitialized (hranks.atLeast c) hleast

theorem Ascending.move (h : Ascending clusterRanks s) (hinv : Inv planner clusterRanks edge first s)
    (hranks : RanksIncrease clusterRanks edge) (hnext : s.LeastNext planner clusterRanks)
    (hmove : Move planner clusterRanks edge first s s') : Ascending clusterRanks s' where
  start := by
    intro T c hin
    apply hinv.core.atLeast_move hranks hmove
    rcases start_proposals_move hmove hin with hold | ⟨pass, pass', hrunning, hfront, heq, hpushed⟩
    · exact h.start T c hold
    · obtain ⟨i, state, hstate, rfl, hinitialized, hleast⟩ :=
        hnext pass pass' hrunning hfront heq T c hpushed
      exact hinv.within_of_view hranks hstate hinitialized hleast
  task := by
    intro T c hphase
    apply hinv.core.atLeast_move hranks hmove
    obtain heq | ⟨T', c', rest, hfront, -, -, -, heq⟩ | ⟨T', c', phase, _, htask, -, -, heq⟩ :=
      phase_move hmove
    · exact h.task T c (heq ▸ hphase)
    · by_cases hsame : T = T' ∧ c = c'
      · obtain ⟨rfl, rfl⟩ := hsame
        exact h.start T c (by simp [State.proposals, hfront])
      · rw [heq, setPhase, if_neg hsame] at hphase
        exact h.task T c hphase
    · by_cases hsame : T = T' ∧ c = c'
      · obtain ⟨rfl, rfl⟩ := hsame
        exact h.task T c (by simp [htask])
      · rw [heq, setPhase, if_neg hsame] at hphase
        exact h.task T c hphase

/-! ## The planners -/

theorem Inv.counted (h : Inv planner clusterRanks edge first s) {i : ℕ} {state : TransactionState}
    (hstate : s.planner.transactionStates[i]? = some state) : state.RanksCounted clusterRanks :=
  h.of_past (fun _ _ hexact => (hexact.2 i state hstate).counted) fun _ _ _ _ hcounted => hcounted

theorem Inv.leastNext_simple (h : Inv .simple clusterRanks edge first s) :
    s.LeastNext .simple clusterRanks := by
  intro pass pass' _ _ hnext T c hin
  obtain ⟨-, rfl⟩ := Pass.next_simple hnext
  cases hstates : s.planner.transactionStates with
  | nil => simp [hstates, simplePlanner] at hin
  | cons state rest =>
      have hcounted : state.RanksCounted clusterRanks :=
        h.counted (i := 0) (by rw [hstates, List.getElem?_cons_zero])
      simp only [hstates] at hin
      obtain ⟨hinitialized, rfl, hnow, -, hleast⟩ := simplePlanner_start hcounted hin
      refine ⟨0, state, rfl, rfl, hinitialized, fun d hd => ?_⟩
      rw [hnow, Finset.empty_union] at hd
      have := hleast d hd
      rw [AtLeast]
      omega

def State.Summarised (clusterRanks : ID → Rank) (s : State) : Prop :=
  ∀ pass, s.planner.runningPlanner = some pass →
    pass.index ≤ s.planner.transactionStates.length ∧
      Summarises clusterRanks pass.loc (olderClusters s.planner.transactionStates pass.index)

theorem summarised_move (h : s.Summarised clusterRanks)
    (hmove : Move .rankBased clusterRanks edge first s s') : s'.Summarised clusterRanks := by
  cases hmove
  case receiveStart T rest hidle hfront =>
    intro pass hrunning
    obtain ⟨hlength, hsummarises⟩ := h pass hrunning
    obtain ⟨more, hmore⟩ := handleStartMessage_append T s.planner.transactionStates
    simp only [hmore, List.length_append, olderClusters, List.take_append_of_le_length hlength]
    exact ⟨hlength.trans (Nat.le_add_right _ _), hsummarises⟩
  case handle =>
    intro pass hrunning
    obtain rfl := Option.some.inj hrunning
    exact ⟨Nat.zero_le _, summarises_start⟩
  case push pass message rest hrunning hfront =>
    intro pass' hrunning'
    obtain rfl := Option.some.inj hrunning'
    exact h pass hrunning
  case advance pass hrunning hfront =>
    intro pass' hnext
    obtain ⟨visited, hvisited, -, -, rfl⟩ := Pass.next_rankBased hnext
    obtain ⟨hlt, hget⟩ := List.getElem?_eq_some_iff.mp hvisited
    refine ⟨hlt, ?_⟩
    have holder : olderClusters s.planner.transactionStates (pass.index + 1) =
        olderClusters s.planner.transactionStates pass.index ++ visited.clusters := by
      rw [olderClusters, List.take_add_one, hvisited, List.flatMap_append]
      simp [olderClusters]
    rw [holder]
    exact ((h pass hrunning).2.visitTransaction (pass.index = 0) visited).1
  all_goals exact h

/-- Where ids and ranks do not disagree, `rank_based_planner` proposes clusters of least rank. -/
theorem State.Summarised.leastNext (h : s.Summarised clusterRanks)
    (horder : s.planner.InRankOrder clusterRanks) : s.LeastNext .rankBased clusterRanks := by
  intro pass pass' hrunning hfront hnext T c hin
  obtain ⟨visited, hvisited, hstop, hinitialized, rfl⟩ := Pass.next_rankBased hnext
  obtain ⟨-, hpushes⟩ := (h pass hrunning).2.visitTransaction (pass.index = 0) visited
  obtain ⟨rfl, hfuture, hunder⟩ := (hpushes.start T c).mp hin
  refine ⟨pass.index, visited, hvisited, rfl, hinitialized, fun d hd => ?_⟩
  have horder' := horder pass visited hrunning hfront hstop hvisited hinitialized c hfuture
  exact hunder.least (fun e he hlt => horder' e he hlt hunder) (Finset.mem_union.mp hd)

end Protocol

end Prf
