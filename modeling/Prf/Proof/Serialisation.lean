import Prf.Proof.Invariant

/-!
# Transactions do not overtake each other

`rank_based_planner` goes through the transactions from the oldest on and remembers the least rank
it has met, with the clusters of that rank. Where ranks increase along every edge, whatever an older
transaction may still come to update has a rank at or above everything it still has to do. So a
proposal for a younger transaction stays clear of all the older ones, however late it is acted on.
-/

namespace Prf.Protocol

variable {planner : Planner} {clusterRanks : ID → Rank} {edge : ID → ID → Prop} {first : ID}
  {s s' : State} {states : List TransactionState} {P Q : ID → Prop}

def State.Outstanding (s : State) (T c : ID) : Prop :=
  c ∈ s.keys T ∧ s.phase T c ≠ some .finished

/-- The transaction is finalised, or it runs and all it has before it is in `P`. -/
def State.Within (s : State) (T : ID) (P : ID → Prop) : Prop :=
  T < s.oldest ∨ T ∈ s.transactions ∧ ∀ c, s.Outstanding T c → P c

theorem State.Within.mono {T : ID} (h : s.Within T P) (hPQ : ∀ c, P c → Q c) : s.Within T Q :=
  h.imp id fun hrun => ⟨hrun.1, fun c hc => hPQ c (hrun.2 c hc)⟩

theorem Core.keys_move (h : Core edge first s) (hmove : Move planner clusterRanks edge first s s')
    {T c : ID} (hT : T < s.oldest ∨ T ∈ s.transactions) (hc : c ∈ s'.keys T) :
    c ∈ s.keys T ∨ T ∈ s.transactions ∧ ∃ c', s.Outstanding T c' ∧ edge c' c := by
  have hkey := h.tasks.phase_key
  have hrunning := @h.tasks.running
  have hoverlap := h.queues.transactions
  cases hmove
  case register =>
    have hbounds := And.intro h.queues.oldest_le h.queues.registered_le
    simp only [Function.update_apply] at hc
    grind
  case send T' targets hopen =>
    have hwaits := h.queues.open_waits hopen
    simp only [Function.update_apply] at hc
    grind
  case generate T' c' htask =>
    simp only [Function.update_apply] at hc
    grind
  case collect T' c' targets htask hedges =>
    simp only [Function.update_apply] at hc
    by_cases heq : T = T'
    · subst heq
      simp only [if_true, Finset.mem_union] at hc
      refine hc.imp id fun hin => ⟨hrunning htask (by simp), c', ⟨(hkey T c' _ htask).1, ?_⟩,
        hedges c hin⟩
      simp [htask]
    · simp only [heq, if_false] at hc
      exact .inl hc
  all_goals exact .inl hc

theorem Core.outstanding_move (h : Core edge first s)
    (hmove : Move planner clusterRanks edge first s s') {T c : ID}
    (hphase : s'.phase T c ≠ some .finished) : s.phase T c ≠ some .finished := by
  have hupdatings := h.tasks.updatings
  cases hmove
  case start T' c' rest hfront hrunning hfresh =>
    have := hupdatings T' c'
    simp only [setPhase] at hphase
    grind
  case announce | generate | collect | buffer | finish =>
    simp only [setPhase] at hphase
    grind
  all_goals exact hphase

theorem Core.outstanding_cases (h : Core edge first s)
    (hmove : Move planner clusterRanks edge first s s') {T c : ID}
    (hT : T < s.oldest ∨ T ∈ s.transactions) (hout : s'.Outstanding T c) :
    s.Outstanding T c ∨ ∃ c', s.Outstanding T c' ∧ edge c' c :=
  (h.keys_move hmove hT hout.1).imp (fun hin => ⟨hin, h.outstanding_move hmove hout.2⟩) And.right

theorem Core.held_move (h : Core edge first s) (hmove : Move planner clusterRanks edge first s s')
    {T : ID} (hT : T < s.oldest ∨ T ∈ s.transactions) : T < s'.oldest ∨ T ∈ s'.transactions := by
  rcases hT with hlt | hrun
  · left
    cases hmove
    case finalize => exact Nat.lt_succ_of_lt hlt
    all_goals exact hlt
  · cases hmove
    case handleExecute => exact .inr (Finset.mem_insert_of_mem hrun)
    case finalize T' rest hfront hrunning =>
      have holdest := h.queues.finalize_oldest h.offers hfront hrunning
      by_cases heq : T = T'
      · exact .inl (by simp only; lia)
      · exact .inr (Finset.mem_erase.mpr ⟨heq, hrun⟩)
    all_goals exact .inr hrun

/-- What bounds the work left from below bounds it for good. -/
theorem Core.within_move (h : Core edge first s) (hmove : Move planner clusterRanks edge first s s')
    (hP : ∀ c d, P c → edge c d → P d) {T : ID} (hfirst : first ≤ T) (hT : s.Within T P) :
    s'.Within T P := by
  have hT' : T < s.oldest ∨ T ∈ s.transactions := hT.imp id And.left
  refine (h.held_move hmove hT').imp id fun hrun' => ⟨hrun', fun c hc => ?_⟩
  have hbound : ∀ c, T ∈ s.transactions → s.Outstanding T c → P c := by
    intro c hrun hout
    rcases hT with hlt | ⟨-, hall⟩
    · exact absurd hlt (not_lt.mpr (h.queues.transactions T hrun).1)
    · exact hall c hout
  rcases h.keys_move hmove hT' hc.1 with hin | ⟨hrun, c', hout, hedge⟩
  · have hout : s.Outstanding T c := ⟨hin, h.outstanding_move hmove hc.2⟩
    rcases hT' with hlt | hrun
    · exact absurd (h.tasks.done T hfirst hlt c hin) hout.2
    · exact hbound c hrun hout
  · exact hP c' c (hbound c' hrun hout) hedge

/-! ## What a planner has gone through -/

def Covers (clusterRanks : ID → Rank) (loc : RankLocals) (c : ID) : Prop :=
  loc.targetRank < (clusterRanks c).value ∨
    (clusterRanks c).value = loc.targetRank ∧ c ∈ loc.usedClusters

def ClearOfCluster (clusterRanks : ID → Rank) (c d : ID) : Prop :=
  (clusterRanks c).value ≤ (clusterRanks d).value ∧ d ≠ c

variable (clusterRanks) in
theorem visitNow_covers (loc : RankLocals) (c : ID) :
    (∀ d, Covers clusterRanks loc d → Covers clusterRanks (visitNow clusterRanks loc c) d) ∧
      Covers clusterRanks (visitNow clusterRanks loc c) c := by
  simp only [visitNow, Covers]
  split <;> grind

variable (clusterRanks) in
theorem visitFuture_covers (T : ID) (acc : RankLocals × List ExecutorMessage) (c : ID) :
    (∀ d, Covers clusterRanks acc.1 d → Covers clusterRanks (visitFuture clusterRanks T acc c).1 d) ∧
      Covers clusterRanks (visitFuture clusterRanks T acc c).1 c := by
  simp only [visitFuture, Covers]
  split
  · grind
  · split <;> split <;> grind

variable (clusterRanks) in
theorem foldl_visitNow_covers (clusters : List ID) (loc : RankLocals) :
    (∀ d, Covers clusterRanks loc d →
        Covers clusterRanks (clusters.foldl (visitNow clusterRanks) loc) d) ∧
      ∀ c ∈ clusters, Covers clusterRanks (clusters.foldl (visitNow clusterRanks) loc) c := by
  induction clusters generalizing loc with
  | nil => simp
  | cons c clusters ih =>
      obtain ⟨hkeep, hcover⟩ := visitNow_covers clusterRanks loc c
      obtain ⟨hkeep', hcover'⟩ := ih (visitNow clusterRanks loc c)
      refine ⟨fun d hd => hkeep' d (hkeep d hd), fun d hd => ?_⟩
      rcases List.mem_cons.mp hd with rfl | hin
      · exact hkeep' d hcover
      · exact hcover' d hin

variable (clusterRanks) in
theorem foldl_visitFuture_covers (T : ID) (clusters : List ID)
    (acc : RankLocals × List ExecutorMessage) :
    (∀ d, Covers clusterRanks acc.1 d →
        Covers clusterRanks (clusters.foldl (visitFuture clusterRanks T) acc).1 d) ∧
      ∀ c ∈ clusters, Covers clusterRanks (clusters.foldl (visitFuture clusterRanks T) acc).1 c := by
  induction clusters generalizing acc with
  | nil => simp
  | cons c clusters ih =>
      obtain ⟨hkeep, hcover⟩ := visitFuture_covers clusterRanks T acc c
      obtain ⟨hkeep', hcover'⟩ := ih (visitFuture clusterRanks T acc c)
      refine ⟨fun d hd => hkeep' d (hkeep d hd), fun d hd => ?_⟩
      rcases List.mem_cons.mp hd with rfl | hin
      · exact hkeep' d hcover
      · exact hcover' d hin

theorem visitFuture_clear (T : ID) (acc : RankLocals × List ExecutorMessage) (c : ID)
    (hpushed : (visitFuture clusterRanks T acc c).2 ≠ acc.2) :
    ∀ d, Covers clusterRanks acc.1 d → ClearOfCluster clusterRanks c d := by
  simp only [visitFuture] at hpushed
  split at hpushed
  · simp at hpushed
  · simp only [Covers, ClearOfCluster]
    split at hpushed <;> split at hpushed <;> grind

theorem foldl_visitFuture_clear (T : ID) (clusters : List ID)
    (acc : RankLocals × List ExecutorMessage) {c : ID}
    (h : .startUpdateCluster T c ∈ (clusters.foldl (visitFuture clusterRanks T) acc).2) :
    .startUpdateCluster T c ∈ acc.2 ∨
      ∀ d, Covers clusterRanks acc.1 d → ClearOfCluster clusterRanks c d := by
  induction clusters generalizing acc with
  | nil => exact .inl h
  | cons c' clusters ih =>
      have hkeep := (visitFuture_covers clusterRanks T acc c').1
      rcases ih _ h with hin | hclear
      · rcases visitFuture_messages clusterRanks T acc c' with heq | heq
        · exact .inl (heq ▸ hin)
        · have hin' := heq ▸ hin
          rw [List.mem_append, List.mem_singleton] at hin'
          rcases hin' with hold | hnew
          · exact .inl hold
          · obtain rfl : c = c' := by simpa using hnew
            exact .inr (visitFuture_clear T acc c (by simp [heq]))
      · exact .inr fun d hd => hclear d (hkeep d hd)

variable (clusterRanks) in
theorem visitTransaction_covers (canFinish : Bool) (loc : RankLocals) (state : TransactionState) :
    (∀ d, Covers clusterRanks loc d →
        Covers clusterRanks (visitTransaction clusterRanks canFinish loc state).1 d) ∧
      ∀ c ∈ state.now ∪ state.future,
        Covers clusterRanks (visitTransaction clusterRanks canFinish loc state).1 c := by
  obtain ⟨hkeep, hnow⟩ :=
    foldl_visitNow_covers clusterRanks (ascending state.now) loc
  obtain ⟨hkeep', hfuture⟩ := foldl_visitFuture_covers clusterRanks
    state.transactionId (ascending state.future)
    ((ascending state.now).foldl (visitNow clusterRanks) loc, [])
  simp only [mem_ascending] at hnow hfuture
  refine ⟨fun d hd => hkeep' d (hkeep d hd), fun c hc => ?_⟩
  rcases Finset.mem_union.mp hc with hin | hin
  · exact hkeep' c (hnow c hin)
  · exact hfuture c hin

theorem visitTransaction_clear {canFinish : Bool} {loc : RankLocals} {state : TransactionState}
    {c : ID} (h : .startUpdateCluster state.transactionId c ∈
      (visitTransaction clusterRanks canFinish loc state).2) :
    ∀ d, Covers clusterRanks loc d → ClearOfCluster clusterRanks c d := by
  have hkeep := (foldl_visitNow_covers clusterRanks (ascending state.now) loc).1
  rw [visitTransaction] at h
  rcases List.mem_append.mp h with hin | hin
  · rcases foldl_visitFuture_clear _ _ _ hin with hnil | hclear
    · simp at hnil
    · exact fun d hd => hclear d (hkeep d hd)
  · split at hin <;> simp at hin

/-! ## The invariant -/

/-- What older transactions still have to do cannot come to be at `c`. -/
def State.Clear (clusterRanks : ID → Rank) (first : ID) (s : State) (T c : ID) : Prop :=
  ∀ T', first ≤ T' → T' < T → s.Within T' (ClearOfCluster clusterRanks c)

/-- Everything started or about to be started is clear of the older transactions, and the running
planner accounts for all that the transactions it has gone through have before them. -/
structure Serial (planner : Planner) (clusterRanks : ID → Rank) (first : ID) (s : State) : Prop where
  start : ∀ T c, .startUpdateCluster T c ∈ s.proposals → s.Clear clusterRanks first T c
  task : ∀ T c, s.phase T c ≠ none → s.Clear clusterRanks first T c
  covered : planner = .rankBased → ∀ pass, s.planner.runningPlanner = some pass →
    pass.index ≤ s.planner.transactionStates.length ∧
    ∀ i state, i < pass.index → s.planner.transactionStates[i]? = some state →
      s.Within state.transactionId (Covers clusterRanks pass.loc)

/-- Ranks increase along edges. -/
def RanksIncrease (clusterRanks : ID → Rank) (edge : ID → ID → Prop) : Prop :=
  ∀ c d, edge c d → (clusterRanks c).value < (clusterRanks d).value

theorem RanksIncrease.covers (h : RanksIncrease clusterRanks edge) (loc : RankLocals) (c d : ID)
    (hc : Covers clusterRanks loc c) (hedge : edge c d) : Covers clusterRanks loc d := by
  have hlt := h c d hedge
  rcases hc with hrank | ⟨hrank, -⟩
  · exact .inl (hrank.trans hlt)
  · exact .inl (hrank ▸ hlt)

theorem RanksIncrease.clearOfCluster (h : RanksIncrease clusterRanks edge) (c d e : ID)
    (hd : ClearOfCluster clusterRanks c d) (hedge : edge d e) : ClearOfCluster clusterRanks c e := by
  have hlt := hd.1.trans_lt (h d e hedge)
  refine ⟨hlt.le, ?_⟩
  rintro rfl
  exact lt_irrefl _ hlt

theorem Core.clear_move (h : Core edge first s) (hranks : RanksIncrease clusterRanks edge)
    (hmove : Move planner clusterRanks edge first s s') {T c : ID}
    (hclear : s.Clear clusterRanks first T c) : s'.Clear clusterRanks first T c :=
  fun T' hfirst hlt =>
    h.within_move hmove (hranks.clearOfCluster c) hfirst (hclear T' hfirst hlt)

theorem Exact.within (h : Exact clusterRanks s states) (hc : Core edge first s) {i : ℕ}
    {state : TransactionState} (hstate : states[i]? = some state)
    (hinitialized : state.initialized = true) (hP : ∀ c d, P c → edge c d → P d)
    (hcovers : ∀ c ∈ state.now ∪ state.future, P c) : s.Within state.transactionId P := by
  have hdescribes := h.2 i state hstate
  have hT := hdescribes.initialized.mp hinitialized
  rw [hdescribes.transactionId]
  have hrunning : ∀ c, s.Running (s.oldest + i) c → P c := fun c hc =>
    hcovers c (Finset.mem_union_left _ ((hdescribes.now c).mpr hc))
  refine .inr ⟨hT, fun c hout => ?_⟩
  by_cases hrun : s.Running (s.oldest + i) c
  · exact hrunning c hrun
  · by_cases hannounced : s.Announced (s.oldest + i) c
    · refine hcovers c (Finset.mem_union_right _ ((hdescribes.future c).mpr ⟨hT, hannounced, ?_⟩))
      have hfinished := hout.2
      rw [running_iff] at hrun
      tauto
    · obtain ⟨c', hc'⟩ : ∃ c', c ∈ s.futures (s.oldest + i) c' := by
        by_contra hnone
        exact hannounced ⟨hout.1, fun c' hc' => hnone ⟨c', hc'⟩⟩
      have hrun' : s.Running (s.oldest + i) c' := by
        rw [running_iff]
        rw [State.futures] at hc'
        grind [Phase.futures]
      exact hP c' c (hrunning c' hrun') (hc.tasks.futures_key _ c' c hc').2.2

namespace Inv

theorem index_of_lt (h : Inv planner clusterRanks edge first s) {i : ℕ} {state : TransactionState}
    (hstate : s.planner.transactionStates[i]? = some state) {T : ID}
    (hlt : T < state.transactionId) :
    T < s.oldest ∨ ∃ j < i, ∃ state', s.planner.transactionStates[j]? = some state' ∧
      state'.transactionId = T := by
  refine h.of_past (R := fun s' => T < s'.oldest ∨ ∃ j < i, ∃ state',
    s.planner.transactionStates[j]? = some state' ∧ state'.transactionId = T) ?_ ?_
  · intro past hcore hexact
    have hid := (hexact.2 i state hstate).transactionId
    by_cases hle : past.oldest ≤ T
    · right
      have hj : T - past.oldest < i := by lia
      have hlength := (List.getElem?_eq_some_iff.mp hstate).1
      have hj' : T - past.oldest < s.planner.transactionStates.length := hj.trans hlength
      refine ⟨_, hj, _, List.getElem?_eq_getElem hj', ?_⟩
      rw [(hexact.2 _ _ (List.getElem?_eq_getElem hj')).transactionId]
      exact Nat.add_sub_cancel' hle
    · exact .inl (not_le.mp hle)
  · intro t t' hcore hmove hR
    refine hR.imp (fun hbefore => ?_) id
    cases hmove
    case finalize => exact Nat.lt_succ_of_lt hbefore
    all_goals exact hbefore

/-- What the next round of a planner pushes is clear of the older transactions. -/
theorem clear_next (h : Inv planner clusterRanks edge first s) (hserial : Serial planner clusterRanks first s)
    {pass pass' : Pass} (hrunning : s.planner.runningPlanner = some pass)
    (hnext : pass.next planner clusterRanks s.planner.transactionStates
      s.planner.stopPlanningNeeded = some pass') {T c : ID}
    (hin : .startUpdateCluster T c ∈ pass'.pushes) : s.Clear clusterRanks first T c := by
  intro T' hfirst hlt
  cases planner with
  | simple =>
      obtain ⟨-, rfl⟩ := Pass.next_simple hnext
      obtain ⟨state, hstate, hT⟩ : ∃ state, s.planner.transactionStates[0]? = some state ∧
          state.transactionId = T := by
        cases hstates : s.planner.transactionStates with
        | nil => simp [hstates, simplePlanner] at hin
        | cons state rest =>
            refine ⟨state, rfl, ?_⟩
            rw [hstates, simplePlanner] at hin
            split at hin
            · simp at hin
            · split at hin
              · simp at hin
              · split at hin
                · split at hin
                  · simp at hin
                  · obtain ⟨d, -, hd⟩ := List.mem_map.mp hin
                    simp at hd
                    exact hd.1
                · simp at hin
      rcases h.index_of_lt hstate (hT ▸ hlt) with hbefore | ⟨j, hj, -⟩
      · exact .inl hbefore
      · exact absurd hj (Nat.not_lt_zero j)
  | rankBased =>
      obtain ⟨state, hstate, -, -, rfl⟩ := Pass.next_rankBased hnext
      have hT : T = state.transactionId := by
        rcases mem_visitTransaction hin with ⟨d, -, hd⟩ | ⟨-, -, -, hd⟩
        · simp at hd
          exact hd.1
        · simp at hd
      subst hT
      rcases h.index_of_lt hstate hlt with hbefore | ⟨j, hj, state', hstate', hid⟩
      · exact .inl hbefore
      · have hwithin := ((hserial.covered rfl pass hrunning).2 j state' hj hstate')
        rw [hid] at hwithin
        exact hwithin.mono (visitTransaction_clear hin)

theorem covered_next (h : Inv .rankBased clusterRanks edge first s)
    (hranks : RanksIncrease clusterRanks edge) (hserial : Serial .rankBased clusterRanks first s)
    {pass pass' : Pass} (hrunning : s.planner.runningPlanner = some pass)
    (hnext : pass.next .rankBased clusterRanks s.planner.transactionStates
      s.planner.stopPlanningNeeded = some pass') :
    pass'.index ≤ s.planner.transactionStates.length ∧
      ∀ i state, i < pass'.index → s.planner.transactionStates[i]? = some state →
        s.Within state.transactionId (Covers clusterRanks pass'.loc) := by
  obtain ⟨visited, hvisited, -, hinitialized, rfl⟩ := Pass.next_rankBased hnext
  obtain ⟨hkeep, hcovers⟩ := visitTransaction_covers clusterRanks (pass.index = 0) pass.loc visited
  refine ⟨(List.getElem?_eq_some_iff.mp hvisited).1, fun i state hi hstate => ?_⟩
  rcases Nat.lt_succ_iff_lt_or_eq.mp hi with hlt | rfl
  · exact ((hserial.covered rfl pass hrunning).2 i state hlt hstate).mono hkeep
  · obtain rfl := Option.some.inj (hvisited.symm.trans hstate)
    have hup := hranks.covers (visitTransaction clusterRanks (pass.index = 0) pass.loc visited).1
    refine (h.of_past (R := fun s' => first ≤ visited.transactionId ∧
      s'.Within visited.transactionId _) ?_ ?_).2
    · intro past hcore hexact
      have hid := (hexact.2 _ visited hvisited).transactionId
      have hfirst := hcore.queues.first_le
      exact ⟨by lia, hexact.within hcore hvisited hinitialized hup hcovers⟩
    · exact fun t t' hcore hmove ht => ⟨ht.1, hcore.within_move hmove hup ht.1 ht.2⟩

end Inv

theorem start_proposals_move (hmove : Move planner clusterRanks edge first s s') {T c : ID}
    (hin : .startUpdateCluster T c ∈ s'.proposals) :
    .startUpdateCluster T c ∈ s.proposals ∨
      ∃ pass pass', s.planner.runningPlanner = some pass ∧ pass.pushes = [] ∧
        pass.next planner clusterRanks s.planner.transactionStates
          s.planner.stopPlanningNeeded = some pass' ∧ .startUpdateCluster T c ∈ pass'.pushes := by
  cases hmove
  case register | commit =>
    left
    simpa [State.proposals] using hin
  case handleRegister hfront | handleExecute hfront =>
    left
    simp only [State.proposals, hfront] at hin ⊢
    exact List.mem_cons_of_mem _ hin
  case skipStart hfront _ | start hfront _ _ | skipFinalize hfront _ | finalize hfront _ =>
    left
    simp only [State.proposals, hfront] at hin ⊢
    exact List.mem_cons_of_mem _ hin
  case handle =>
    left
    simp only [State.proposals, Pass.start, List.append_nil] at hin
    exact List.mem_append_left _ hin
  case push pass message rest hrunning hfront =>
    left
    simp only [State.proposals, hrunning, hfront] at hin ⊢
    simpa using hin
  case advance pass hrunning hfront =>
    simp only [State.proposals] at hin
    rcases List.mem_append.mp hin with hin | hin
    · exact .inl (List.mem_append_left _ hin)
    · cases hnext : pass.next planner clusterRanks s.planner.transactionStates
          s.planner.stopPlanningNeeded with
      | none => simp [hnext] at hin
      | some pass' =>
          rw [hnext] at hin
          exact .inr ⟨pass, pass', hrunning, hfront, hnext, hin⟩
  all_goals exact .inl hin

theorem Serial.move (h : Serial planner clusterRanks first s)
    (hinv : Inv planner clusterRanks edge first s) (hranks : RanksIncrease clusterRanks edge)
    (hmove : Move planner clusterRanks edge first s s') : Serial planner clusterRanks first s' := by
  have hstart : ∀ T c, .startUpdateCluster T c ∈ s.proposals → s'.Clear clusterRanks first T c :=
    fun T c hin => hinv.core.clear_move hranks hmove (h.start T c hin)
  have htask : ∀ T c, s.phase T c ≠ none → s'.Clear clusterRanks first T c :=
    fun T c hphase => hinv.core.clear_move hranks hmove (h.task T c hphase)
  have hstart' : ∀ T c, .startUpdateCluster T c ∈ s'.proposals → s'.Clear clusterRanks first T c := by
    intro T c hin
    rcases start_proposals_move hmove hin with hold | ⟨pass, pass', hrunning, -, hnext, hpushed⟩
    · exact hstart T c hold
    · exact hinv.core.clear_move hranks hmove (hinv.clear_next h hrunning hnext hpushed)
  have hcovered : planner = .rankBased → ∀ pass, s.planner.runningPlanner = some pass →
      pass.index ≤ s.planner.transactionStates.length ∧
      ∀ i state, i < pass.index → s.planner.transactionStates[i]? = some state →
        s'.Within state.transactionId (Covers clusterRanks pass.loc) := by
    intro hplanner pass hrunning
    refine ⟨(h.covered hplanner pass hrunning).1, fun i state hi hstate => ?_⟩
    have hfirst : first ≤ state.transactionId := by
      refine hinv.of_past (R := fun _ => first ≤ state.transactionId) ?_ fun _ _ _ _ ht => ht
      intro past hcore hexact
      have hid := (hexact.2 i state hstate).transactionId
      have hle := hcore.queues.first_le
      lia
    exact hinv.core.within_move hmove (hranks.covers pass.loc) hfirst
      ((h.covered hplanner pass hrunning).2 i state hi hstate)
  cases hmove
  case start T c rest hfront hrunning hfresh =>
    refine ⟨hstart', fun T' c' hphase => ?_, hcovered⟩
    by_cases heq : T' = T ∧ c' = c
    · obtain ⟨rfl, rfl⟩ := heq
      exact hstart T' c' (by simp [State.proposals, hfront])
    · simp only [setPhase, heq, if_false] at hphase
      exact htask T' c' hphase
  case announce T c hold | generate T c hold | collect T c _ hold _ | buffer T c _ hold |
      finish T c _ hold =>
    refine ⟨hstart', fun T' c' hphase => htask T' c' ?_, hcovered⟩
    simp only [setPhase] at hphase
    grind
  case receiveStart T rest hidle hfront =>
    refine ⟨hstart', htask, fun hplanner pass hrunning => ?_⟩
    obtain ⟨hlength, hall⟩ := hcovered hplanner pass hrunning
    obtain ⟨more, hmore⟩ := handleStartMessage_append T s.planner.transactionStates
    simp only [hmore, List.length_append]
    refine ⟨hlength.trans (Nat.le_add_right _ _), fun i state hi hstate => ?_⟩
    rw [List.getElem?_append_left (hi.trans_le hlength)] at hstate
    exact hall i state hi hstate
  case handle =>
    refine ⟨hstart', htask, fun _ pass hpass => ?_⟩
    obtain rfl := Option.some.inj hpass
    exact ⟨Nat.zero_le _, fun i state hi => absurd hi (Nat.not_lt_zero i)⟩
  case push pass message rest hrunning hfront =>
    refine ⟨hstart', htask, fun hplanner pass' hpass' => ?_⟩
    obtain rfl := Option.some.inj hpass'
    exact hcovered hplanner pass hrunning
  case advance pass hrunning hfront =>
    refine ⟨hstart', htask, fun hplanner pass' hnext => ?_⟩
    subst hplanner
    exact hinv.covered_next hranks h hrunning hnext
  all_goals exact ⟨hstart', htask, hcovered⟩

theorem Reachable.serial (h : Reachable planner clusterRanks edge first s)
    (hranks : RanksIncrease clusterRanks edge) : Serial planner clusterRanks first s := by
  induction h with
  | refl =>
      constructor
      · simp [State.init, State.proposals]
      · simp [State.init]
      · simp [State.init]
  | tail hreach hmove ih => exact ih.move (Reachable.inv hreach) hranks hmove

/-- Once a younger transaction has started to update a cluster, an older one updates neither that
cluster nor one below it any more. -/
theorem Reachable.serialised (h : Reachable planner clusterRanks edge first s)
    (hranks : RanksIncrease clusterRanks edge) {Ti Tj p c : ID} (hfirst : first ≤ Ti)
    (hlt : Ti < Tj) (hbelow : p = c ∨ (clusterRanks p).value < (clusterRanks c).value)
    (hstarted : s.phase Tj c ≠ none)
    (hlater : Relation.ReflTransGen (Move planner clusterRanks edge first) s s')
    (hupdated : s'.phase Ti p ≠ none) : s.phase Ti p = some .finished := by
  have hblocked : ¬ ClearOfCluster clusterRanks c p := by
    rintro ⟨hrank, hne⟩
    rcases hbelow with heq | hlt
    · exact hne heq
    · exact absurd hrank (not_le.mpr hlt)
  have hwithin := (h.serial hranks).task Tj c hstarted Ti hfirst hlt
  by_cases hkey : p ∈ s.keys Ti
  · rcases hwithin with hbefore | ⟨-, hall⟩
    · exact h.inv.core.tasks.done Ti hfirst hbefore p hkey
    · by_contra hphase
      exact hblocked (hall p ⟨hkey, hphase⟩)
  · exfalso
    have hkept : Reachable planner clusterRanks edge first s' ∧
        s'.Within Ti (ClearOfCluster clusterRanks c) ∧ p ∉ s'.keys Ti := by
      clear hupdated
      induction hlater with
      | refl => exact ⟨h, hwithin, hkey⟩
      | @tail t t' _ hmove ih =>
          obtain ⟨hreach, hwithin, hkey⟩ := ih
          have hcore := (Reachable.inv hreach).core
          refine ⟨hreach.tail hmove,
            hcore.within_move hmove (hranks.clearOfCluster c) hfirst hwithin, fun hin => ?_⟩
          rcases hcore.keys_move hmove (hwithin.imp id And.left) hin with hold | ⟨hrun, d, hout, hedge⟩
          · exact hkey hold
          · rcases hwithin with hbefore | ⟨-, hall⟩
            · exact absurd hbefore (not_lt.mpr (hcore.queues.transactions Ti hrun).1)
            · exact hblocked (hranks.clearOfCluster c d p (hall d hout) hedge)
    exact hupdated (hkept.1.inv.core.tasks.phase_none hkept.2.2)

end Prf.Protocol
