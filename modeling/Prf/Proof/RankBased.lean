import Prf.Planner

/-!
# What one call of the rank-based planner proposes

The loop of `rank_based_planner` as a whole, for any deque of transaction states and any round at
which the stop flag is first seen. The two locals summarise the clusters gone through so far: the
least rank among them, and the ones of that rank. A cluster is proposed exactly when its rank is at
most that of everything before it and it is not there itself.
-/

namespace Prf

section Loop

variable (clusterRanks : ID → Rank) (stopAt : ℕ)

/-- The loop of `rank_based_planner` from round `index` on, if `stop` is first seen in round
`stopAt`: the messages of each round. -/
def rankBasedLoop : ℕ → RankLocals → List TransactionState → List (List ExecutorMessage)
  | _, _, [] => []
  | index, loc, state :: states =>
      if stopAt ≤ index then []
      else if ¬ state.initialized then []
      else
        let visited := visitTransaction clusterRanks (index = 0) loc state
        visited.2 :: rankBasedLoop (index + 1) visited.1 states

/-- `rank_based_planner`: the messages each round pushes. -/
def rankBasedRounds (states : List TransactionState) : List (List ExecutorMessage) :=
  rankBasedLoop clusterRanks stopAt 0 Pass.start.loc states

/-- `rank_based_planner`: the messages it pushes. -/
def rankBasedPlanner (states : List TransactionState) : List ExecutorMessage :=
  (rankBasedRounds clusterRanks stopAt states).flatten

/-- The loop is the planner thread of the composed system, taken from round to round. -/
theorem rankBasedLoop_eq_next (states : List TransactionState) (pass : Pass) :
    rankBasedLoop clusterRanks stopAt pass.index pass.loc (states.drop pass.index) =
      match pass.next .rankBased clusterRanks states (stopAt ≤ pass.index) with
      | none => []
      | some pass' => pass'.pushes ::
          rankBasedLoop clusterRanks stopAt pass'.index pass'.loc (states.drop pass'.index) := by
  cases hstate : states[pass.index]? with
  | none =>
      rw [List.drop_eq_nil_of_le (List.getElem?_eq_none_iff.mp hstate)]
      simp [rankBasedLoop, Pass.next, hstate]
  | some state =>
      obtain ⟨hlt, hget⟩ := List.getElem?_eq_some_iff.mp hstate
      rw [List.drop_eq_getElem_cons hlt, hget]
      by_cases hstop : stopAt ≤ pass.index
      · simp [rankBasedLoop, Pass.next, hstate, hstop]
      · cases hinitialized : state.initialized <;>
          simp [rankBasedLoop, Pass.next, hstate, hstop, hinitialized]

end Loop

/-! ## The locals -/

variable {clusterRanks : ID → Rank} {stopAt : ℕ}

/-- The clusters of a transaction state, in the order in which the planner goes through them. -/
def TransactionState.clusters (state : TransactionState) : List ID :=
  ascending state.now ++ ascending state.future

@[simp]
theorem TransactionState.mem_clusters {state : TransactionState} {c : ID} :
    c ∈ state.clusters ↔ c ∈ state.now ∨ c ∈ state.future := by
  simp [clusters]

structure Summarises (clusterRanks : ID → Rank) (loc : RankLocals) (visited : List ID) : Prop where
  targetRank_le : ∀ d ∈ visited, loc.targetRank ≤ (clusterRanks d).value
  attained : loc.targetRank = u64Size - 1 ∨
    ∃ d ∈ visited, (clusterRanks d).value = loc.targetRank
  used_visited : ∀ d ∈ loc.usedClusters, d ∈ visited
  used : ∀ d ∈ visited, (clusterRanks d).value = loc.targetRank → d ∈ loc.usedClusters

/-- A cluster is below or at everything gone through, and is not among it. -/
def Undercuts (clusterRanks : ID → Rank) (visited : List ID) (c : ID) : Prop :=
  c ∉ visited ∧ ∀ d ∈ visited, (clusterRanks c).value ≤ (clusterRanks d).value

theorem summarises_start : Summarises clusterRanks Pass.start.loc [] := by
  constructor <;> simp [Pass.start]

namespace Summarises

variable {loc : RankLocals} {visited : List ID}

theorem le_targetRank (h : Summarises clusterRanks loc visited) {c : ID} :
    (clusterRanks c).value ≤ loc.targetRank ↔
      ∀ d ∈ visited, (clusterRanks c).value ≤ (clusterRanks d).value := by
  refine ⟨fun hle d hd => hle.trans (h.targetRank_le d hd), fun hall => ?_⟩
  rcases h.attained with heq | ⟨d, hd, heq⟩
  · rw [heq]
    exact Nat.le_sub_one_of_lt (clusterRanks c).value_lt
  · exact heq ▸ hall d hd

theorem visitNow (h : Summarises clusterRanks loc visited) (c : ID) :
    Summarises clusterRanks (visitNow clusterRanks loc c) (visited ++ [c]) := by
  obtain ⟨hle, hattained, hused, hmem⟩ := h
  by_cases hlt : (clusterRanks c).value < loc.targetRank
  · constructor <;> simp only [Prf.visitNow, hlt, if_true]
    · intro d hd
      rcases List.mem_append.mp hd with hd | hd
      · exact hlt.le.trans (hle d hd)
      · rw [List.mem_singleton.mp hd]
    · exact .inr ⟨c, by simp, rfl⟩
    · simp
    · intro d hd heq
      rcases List.mem_append.mp hd with hd | hd
      · exact absurd heq (hlt.trans_le (hle d hd)).ne'
      · simpa using hd
  · constructor <;> simp only [Prf.visitNow, hlt, if_false]
    · intro d hd
      rcases List.mem_append.mp hd with hd | hd
      · exact hle d hd
      · rw [List.mem_singleton.mp hd]
        exact not_lt.mp hlt
    · refine hattained.imp id fun ⟨d, hd, heq⟩ => ⟨d, by simp [hd], heq⟩
    · intro d hd
      rcases Finset.mem_insert.mp hd with rfl | hd
      · simp
      · simp [hused d hd]
    · intro d hd heq
      rcases List.mem_append.mp hd with hd | hd
      · exact Finset.mem_insert_of_mem (hmem d hd heq)
      · simp [List.mem_singleton.mp hd]

theorem visitFuture_pushes (h : Summarises clusterRanks loc visited) (T c : ID)
    (messages : List ExecutorMessage) [Decidable (Undercuts clusterRanks visited c)] :
    (visitFuture clusterRanks T (loc, messages) c).2 =
      messages ++ if Undercuts clusterRanks visited c then [.startUpdateCluster T c] else [] := by
  have hundercuts : Undercuts clusterRanks visited c ↔ (clusterRanks c).value ≤ loc.targetRank ∧
      ((clusterRanks c).value < loc.targetRank ∨ c ∉ loc.usedClusters) := by
    rw [Undercuts, ← h.le_targetRank, and_comm]
    refine and_congr_right fun hle => ⟨fun hnot => .inr fun hused => hnot (h.used_visited c hused), ?_⟩
    rintro hfree hin
    have heq := le_antisymm hle (h.targetRank_le c hin)
    exact hfree.elim (fun hlt => hlt.ne heq) fun hnot => hnot (h.used c hin heq)
  simp only [visitFuture, hundercuts]
  by_cases hgt : loc.targetRank < (clusterRanks c).value
  · simp [hgt]
  · by_cases hlt : (clusterRanks c).value < loc.targetRank
    · simp [hgt, hlt, hlt.le]
    · by_cases hused : c ∈ loc.usedClusters <;> simp [hgt, hlt, hused, not_lt.mp hgt]

theorem skip (h : Summarises clusterRanks loc visited) {c : ID}
    (hgt : loc.targetRank < (clusterRanks c).value) :
    Summarises clusterRanks loc (visited ++ [c]) := by
  obtain ⟨hle, hattained, hused, hmem⟩ := h
  constructor
  · intro d hd
    rcases List.mem_append.mp hd with hd | hd
    · exact hle d hd
    · exact List.mem_singleton.mp hd ▸ hgt.le
  · exact hattained.imp id fun ⟨d, hd, heq⟩ => ⟨d, by simp [hd], heq⟩
  · intro d hd
    simp [hused d hd]
  · intro d hd heq
    rcases List.mem_append.mp hd with hd | hd
    · exact hmem d hd heq
    · rw [List.mem_singleton.mp hd] at heq
      exact absurd heq hgt.ne'

theorem visitFuture (h : Summarises clusterRanks loc visited) (T c : ID)
    (messages : List ExecutorMessage) :
    Summarises clusterRanks (visitFuture clusterRanks T (loc, messages) c).1 (visited ++ [c]) := by
  by_cases hgt : loc.targetRank < (clusterRanks c).value
  · simpa [Prf.visitFuture, hgt] using h.skip hgt
  · have heq : (Prf.visitFuture clusterRanks T (loc, messages) c).1 =
        Prf.visitNow clusterRanks loc c := by
      simp only [Prf.visitFuture, Prf.visitNow, hgt, if_false]
      by_cases hlt : (clusterRanks c).value < loc.targetRank
      · simp [hlt]
      · by_cases hused : c ∈ loc.usedClusters <;> simp [hlt, hused]
    rw [heq]
    exact h.visitNow c

theorem foldl_visitNow (h : Summarises clusterRanks loc visited) (clusters : List ID) :
    Summarises clusterRanks (clusters.foldl (Prf.visitNow clusterRanks) loc)
      (visited ++ clusters) := by
  induction clusters generalizing loc visited with
  | nil => simpa using h
  | cons c clusters ih => simpa using ih (h.visitNow c)

theorem foldl_visitFuture (h : Summarises clusterRanks loc visited) (T : ID) (clusters : List ID)
    (messages : List ExecutorMessage) :
    Summarises clusterRanks (clusters.foldl (Prf.visitFuture clusterRanks T) (loc, messages)).1
        (visited ++ clusters) ∧
      ∀ message, message ∈ (clusters.foldl (Prf.visitFuture clusterRanks T) (loc, messages)).2 ↔
        message ∈ messages ∨ ∃ before c after, clusters = before ++ c :: after ∧
          Undercuts clusterRanks (visited ++ before) c ∧ message = .startUpdateCluster T c := by
  classical
  induction clusters generalizing loc visited messages with
  | nil => simpa using h
  | cons c clusters ih =>
      obtain ⟨hnext, hmem⟩ := ih (h.visitFuture T c messages)
        (Prf.visitFuture clusterRanks T (loc, messages) c).2
      refine ⟨by simpa using hnext, fun message => ?_⟩
      rw [List.foldl_cons, hmem, h.visitFuture_pushes, List.mem_append, or_assoc]
      refine or_congr_right ⟨?_, ?_⟩
      · rintro (hin | ⟨before, d, after, rfl, hunder, rfl⟩)
        · split at hin
          case isTrue hunder =>
            exact ⟨[], c, clusters, rfl, by simpa using hunder, List.mem_singleton.mp hin⟩
          case isFalse => simp at hin
        · exact ⟨c :: before, d, after, rfl, by simpa using hunder, rfl⟩
      · rintro ⟨before, d, after, heq, hunder, rfl⟩
        cases before with
        | nil =>
            obtain ⟨rfl, rfl⟩ := List.cons.inj heq
            left
            simp [show Undercuts clusterRanks visited c by simpa using hunder]
        | cons e before =>
            obtain ⟨rfl, rfl⟩ := List.cons.inj heq
            exact .inr ⟨before, d, after, rfl, by simpa using hunder, rfl⟩

end Summarises

/-- The clusters of a transaction that come before `c` in the loop over `state.future`. -/
def TransactionState.clustersBefore (state : TransactionState) (c : ID) : List ID :=
  ascending state.now ++ (ascending state.future).filter (· < c)

@[simp]
theorem TransactionState.mem_clustersBefore {state : TransactionState} {c d : ID} :
    d ∈ state.clustersBefore c ↔ d ∈ state.now ∨ d ∈ state.future ∧ d < c := by
  simp [clustersBefore]

theorem mem_before_iff {l before after : List ID} {c d : ID} (hl : l.Pairwise (· < ·))
    (heq : l = before ++ c :: after) : d ∈ before ↔ d ∈ l ∧ d < c := by
  subst heq
  rw [List.pairwise_append, List.pairwise_cons] at hl
  obtain ⟨-, ⟨hafter, -⟩, hbefore⟩ := hl
  constructor
  · exact fun hd => ⟨by simp [hd], hbefore d hd c (by simp)⟩
  · rintro ⟨hd, hlt⟩
    rcases List.mem_append.mp hd with hd | hd
    · exact hd
    · rcases List.mem_cons.mp hd with rfl | hd
      · exact absurd hlt (lt_irrefl _)
      · exact absurd hlt (hafter d hd).asymm

theorem Undercuts.congr {visited visited' : List ID} {c : ID}
    (h : ∀ d, d ∈ visited ↔ d ∈ visited') :
    Undercuts clusterRanks visited c ↔ Undercuts clusterRanks visited' c := by
  simp [Undercuts, h]

structure RoundPushes (clusterRanks : ID → Rank) (visited : List ID) (canFinish : Bool)
    (state : TransactionState) (messages : List ExecutorMessage) : Prop where
  start : ∀ T c, .startUpdateCluster T c ∈ messages ↔ T = state.transactionId ∧
    c ∈ state.future ∧ Undercuts clusterRanks (visited ++ state.clustersBefore c) c
  finalize : ∀ T, .finalizeTransaction T ∈ messages ↔
    T = state.transactionId ∧ canFinish = true ∧ state.future = ∅ ∧ state.now = ∅

theorem Summarises.visitTransaction {loc : RankLocals} {visited : List ID}
    (h : Summarises clusterRanks loc visited) (canFinish : Bool) (state : TransactionState) :
    Summarises clusterRanks (visitTransaction clusterRanks canFinish loc state).1
        (visited ++ state.clusters) ∧
      RoundPushes clusterRanks visited canFinish state
        (visitTransaction clusterRanks canFinish loc state).2 := by
  obtain ⟨hlocals, hmem⟩ := (h.foldl_visitNow (ascending state.now)).foldl_visitFuture
    state.transactionId (ascending state.future) []
  have hbefore : ∀ before c after, ascending state.future = before ++ c :: after →
      (Undercuts clusterRanks (visited ++ ascending state.now ++ before) c ↔
        Undercuts clusterRanks (visited ++ state.clustersBefore c) c) := by
    intro before c after heq
    refine Undercuts.congr fun d => ?_
    rw [List.append_assoc, List.mem_append, List.mem_append, List.mem_append,
      mem_before_iff (ascending_pairwise _) heq]
    simp
  refine ⟨by simpa [Prf.visitTransaction, TransactionState.clusters] using hlocals, ?_, ?_⟩
  · intro T c
    rw [Prf.visitTransaction, List.mem_append, hmem]
    constructor
    · rintro ((hin | ⟨before, d, after, heq, hunder, hmessage⟩) | hin)
      · simp at hin
      · obtain ⟨rfl, rfl⟩ : T = state.transactionId ∧ c = d := by simpa using hmessage
        refine ⟨rfl, ?_, (hbefore _ _ _ heq).mp hunder⟩
        exact mem_ascending.mp (heq ▸ by simp)
      · split at hin <;> simp at hin
    · rintro ⟨rfl, hfuture, hunder⟩
      obtain ⟨before, after, heq⟩ := List.append_of_mem (mem_ascending.mpr hfuture)
      exact .inl (.inr ⟨before, c, after, heq, (hbefore _ _ _ heq).mpr hunder, rfl⟩)
  · intro T
    rw [Prf.visitTransaction, List.mem_append, hmem]
    constructor
    · rintro ((hin | ⟨before, d, after, heq, hunder, hmessage⟩) | hin)
      · simp at hin
      · simp at hmessage
      · split at hin
        case isTrue hempty => exact ⟨by simpa using hin, hempty⟩
        case isFalse => simp at hin
    · rintro ⟨rfl, hempty⟩
      exact .inr (by simp [hempty])

/-! ## The whole loop -/

/-- The clusters of the transactions before the `j`-th. -/
def olderClusters (states : List TransactionState) (j : ℕ) : List ID :=
  (states.take j).flatMap TransactionState.clusters

theorem mem_olderClusters {states : List TransactionState} {j : ℕ} {d : ID} :
    d ∈ olderClusters states j ↔
      ∃ i < j, ∃ state, states[i]? = some state ∧ (d ∈ state.now ∨ d ∈ state.future) := by
  simp only [olderClusters, List.mem_flatMap, TransactionState.mem_clusters]
  constructor
  · rintro ⟨state, hin, hd⟩
    obtain ⟨i, hi⟩ := List.mem_iff_getElem?.mp hin
    rw [List.getElem?_take] at hi
    split at hi
    case isTrue hlt => exact ⟨i, hlt, state, hi, hd⟩
    case isFalse => simp at hi
  · rintro ⟨i, hlt, state, hstate, hd⟩
    refine ⟨state, List.mem_iff_getElem?.mpr ⟨i, ?_⟩, hd⟩
    rw [List.getElem?_take, if_pos hlt, hstate]

/-- All transactions up to the `j`-th are initialized. -/
def InitializedTo (states : List TransactionState) (j : ℕ) : Prop :=
  ∀ i ≤ j, ∀ state, states[i]? = some state → state.initialized = true

theorem initializedTo_zero {state : TransactionState} {states : List TransactionState} :
    InitializedTo (state :: states) 0 ↔ state.initialized = true := by
  simp [InitializedTo]

theorem initializedTo_succ {state : TransactionState} {states : List TransactionState} {j : ℕ} :
    InitializedTo (state :: states) (j + 1) ↔
      state.initialized = true ∧ InitializedTo states j := by
  constructor
  · exact fun h => ⟨h 0 (Nat.zero_le _) state rfl,
      fun i hi state' hstate => h (i + 1) (Nat.succ_le_succ hi) state' (by simpa using hstate)⟩
  · rintro ⟨hhead, htail⟩ i hi state' hstate
    cases i with
    | zero => exact Option.some.inj hstate ▸ hhead
    | succ i => exact htail i (Nat.le_of_succ_le_succ hi) state' (by simpa using hstate)

theorem rankBasedLoop_isSome (states : List TransactionState) (index : ℕ) (loc : RankLocals)
    (j : ℕ) : (rankBasedLoop clusterRanks stopAt index loc states)[j]?.isSome = true ↔
      j < states.length ∧ index + j < stopAt ∧ InitializedTo states j := by
  induction states generalizing index loc j with
  | nil => simp [rankBasedLoop]
  | cons state states ih =>
      by_cases hstop : stopAt ≤ index
      · have : ¬ index + j < stopAt := by omega
        simp [rankBasedLoop, hstop, this]
      · cases hinitialized : state.initialized with
        | false =>
            have : ¬ InitializedTo (state :: states) j := fun h => by
              simpa [hinitialized] using h 0 (Nat.zero_le j) state rfl
            simp [rankBasedLoop, hstop, hinitialized, this]
        | true =>
            cases j with
            | zero =>
                simp [rankBasedLoop, hstop, hinitialized, initializedTo_zero, not_le.mp hstop]
            | succ j =>
                have hindex : index + (j + 1) = index + 1 + j := by omega
                simp only [rankBasedLoop, hstop, hinitialized, if_false, not_true,
                  List.getElem?_cons_succ, ih, initializedTo_succ, true_and, hindex,
                  List.length_cons, Nat.succ_lt_succ_iff]

/-- Every round proposes what undercuts the older transactions and what it has seen of its own. -/
theorem rankBasedLoop_pushes (states : List TransactionState) {index : ℕ} {loc : RankLocals}
    {visited : List ID} (h : Summarises clusterRanks loc visited) {j : ℕ}
    {messages : List ExecutorMessage} {state : TransactionState}
    (hmessages : (rankBasedLoop clusterRanks stopAt index loc states)[j]? = some messages)
    (hstate : states[j]? = some state) :
    RoundPushes clusterRanks (visited ++ olderClusters states j) (index + j = 0) state messages := by
  induction states generalizing index loc visited j with
  | nil => simp at hstate
  | cons head states ih =>
      simp only [rankBasedLoop] at hmessages
      split at hmessages
      case isTrue => simp at hmessages
      case isFalse =>
        split at hmessages
        case isTrue => simp at hmessages
        case isFalse =>
          obtain ⟨hnext, hround⟩ := h.visitTransaction (index = 0) head
          cases j with
          | zero =>
              obtain rfl : head = state := by simpa using hstate
              obtain rfl : _ = messages := by simpa using hmessages
              simpa [olderClusters] using hround
          | succ j =>
              have := ih hnext (by simpa using hmessages) (by simpa using hstate)
              have hindex : (index + 1 + j = 0) = (index + (j + 1) = 0) := by simp
              simpa [olderClusters, hindex] using this

variable {states : List TransactionState}

theorem mem_rankBasedPlanner {message : ExecutorMessage} :
    message ∈ rankBasedPlanner clusterRanks stopAt states ↔
      ∃ (j : ℕ) (state : TransactionState) (messages : List ExecutorMessage),
        states[j]? = some state ∧
        (rankBasedRounds clusterRanks stopAt states)[j]? = some messages ∧ message ∈ messages := by
  rw [rankBasedPlanner, List.mem_flatten]
  constructor
  · rintro ⟨messages, hin, hmessage⟩
    obtain ⟨j, hj⟩ := List.mem_iff_getElem?.mp hin
    have hlt := ((rankBasedLoop_isSome states 0 Pass.start.loc j).mp
      (Option.isSome_iff_exists.mpr ⟨messages, hj⟩)).1
    exact ⟨j, states[j], messages, List.getElem?_eq_getElem hlt, hj, hmessage⟩
  · rintro ⟨j, state, messages, -, hj, hmessage⟩
    exact ⟨messages, List.mem_of_getElem? hj, hmessage⟩

theorem rankBasedRounds_pushes {j : ℕ} {messages : List ExecutorMessage} {state : TransactionState}
    (hmessages : (rankBasedRounds clusterRanks stopAt states)[j]? = some messages)
    (hstate : states[j]? = some state) :
    RoundPushes clusterRanks (olderClusters states j) (j = 0) state messages := by
  have := rankBasedLoop_pushes states summarises_start hmessages hstate
  simpa using this

theorem exists_rankBasedRounds {j : ℕ} {state : TransactionState} (hstate : states[j]? = some state)
    (hstop : j < stopAt) (hinitialized : InitializedTo states j) :
    ∃ messages, (rankBasedRounds clusterRanks stopAt states)[j]? = some messages := by
  refine Option.isSome_iff_exists.mp ((rankBasedLoop_isSome states 0 _ j).mpr ⟨?_, ?_, hinitialized⟩)
  · exact (List.getElem?_eq_some_iff.mp hstate).1
  · simpa using hstop

theorem initializedTo_of_rankBasedRounds {j : ℕ} {messages : List ExecutorMessage}
    (hmessages : (rankBasedRounds clusterRanks stopAt states)[j]? = some messages) :
    j < stopAt ∧ InitializedTo states j := by
  have := (rankBasedLoop_isSome states 0 _ j).mp (Option.isSome_iff_exists.mpr ⟨messages, hmessages⟩)
  exact ⟨by simpa using this.2.1, this.2.2⟩

theorem undercuts_older {j : ℕ} {rest : List ID} {c : ID} :
    Undercuts clusterRanks (olderClusters states j ++ rest) c ↔
      (∀ i < j, ∀ older, states[i]? = some older → c ∉ older.now ∧ c ∉ older.future ∧
        ∀ d, d ∈ older.now ∨ d ∈ older.future → (clusterRanks c).value ≤ (clusterRanks d).value) ∧
      Undercuts clusterRanks rest c := by
  simp only [Undercuts, List.mem_append, mem_olderClusters]
  constructor
  · rintro ⟨hnot, hle⟩
    refine ⟨fun i hi older holder => ⟨fun hc => ?_, fun hc => ?_, fun d hd => ?_⟩, ?_, ?_⟩
    · exact hnot (.inl ⟨i, hi, older, holder, .inl hc⟩)
    · exact hnot (.inl ⟨i, hi, older, holder, .inr hc⟩)
    · exact hle d (.inl ⟨i, hi, older, holder, hd⟩)
    · exact fun hc => hnot (.inr hc)
    · exact fun d hd => hle d (.inr hd)
  · rintro ⟨holder, hnot, hle⟩
    constructor
    · rintro (⟨i, hi, older, hstate, hc⟩ | hc)
      · exact hc.elim (holder i hi older hstate).1 (holder i hi older hstate).2.1
      · exact hnot hc
    · rintro d (⟨i, hi, older, hstate, hd⟩ | hd)
      · exact (holder i hi older hstate).2.2 d hd
      · exact hle d hd

/-- What `rank_based_planner` proposes and what it does not miss, up to the round that sees
`stop`. -/
theorem rankBasedPlanner_proposals (clusterRanks : ID → Rank) (stopAt : ℕ)
    (states : List TransactionState) :
    (∀ T c, .startUpdateCluster T c ∈ rankBasedPlanner clusterRanks stopAt states →
      ∃ j state, states[j]? = some state ∧ state.transactionId = T ∧ InitializedTo states j ∧
        c ∈ state.future ∧
        ∀ i < j, ∀ older, states[i]? = some older → c ∉ older.now ∧ c ∉ older.future ∧
          ∀ d, d ∈ older.now ∨ d ∈ older.future →
            (clusterRanks c).value ≤ (clusterRanks d).value) ∧
    (∀ j state, states[j]? = some state → j < stopAt → InitializedTo states j →
      ∀ c ∈ state.future, c ∉ state.now →
        (∀ i < j, ∀ older, states[i]? = some older → c ∉ older.now ∧ c ∉ older.future) →
        (∀ i ≤ j, ∀ older, states[i]? = some older → ∀ d, d ∈ older.now ∨ d ∈ older.future →
          (clusterRanks c).value ≤ (clusterRanks d).value) →
        .startUpdateCluster state.transactionId c ∈
          rankBasedPlanner clusterRanks stopAt states) ∧
    ∀ T, .finalizeTransaction T ∈ rankBasedPlanner clusterRanks stopAt states ↔
      ∃ state, states[0]? = some state ∧ state.transactionId = T ∧ 0 < stopAt ∧
        state.initialized = true ∧ state.now = ∅ ∧ state.future = ∅ := by
  refine ⟨fun T c hin => ?_, ?_, fun T => ⟨fun hin => ?_, ?_⟩⟩
  · obtain ⟨j, state, messages, hstate, hround, hin⟩ := mem_rankBasedPlanner.mp hin
    obtain ⟨rfl, hfuture, hunder⟩ := ((rankBasedRounds_pushes hround hstate).start T c).mp hin
    exact ⟨j, state, hstate, rfl, (initializedTo_of_rankBasedRounds hround).2, hfuture,
      (undercuts_older.mp hunder).1⟩
  · intro j state hstate hstop hinitialized c hfuture hnow hfree hle
    obtain ⟨messages, hround⟩ := exists_rankBasedRounds hstate hstop hinitialized
    refine mem_rankBasedPlanner.mpr ⟨j, state, messages, hstate, hround, ?_⟩
    refine ((rankBasedRounds_pushes hround hstate).start _ c).mpr ⟨rfl, hfuture, ?_⟩
    refine undercuts_older.mpr ⟨fun i hi older holder => ?_, ?_, fun d hd => ?_⟩
    · obtain ⟨hnow', hfuture'⟩ := hfree i hi older holder
      exact ⟨hnow', hfuture', hle i hi.le older holder⟩
    · rw [TransactionState.mem_clustersBefore]
      exact fun h => h.elim hnow fun h => lt_irrefl _ h.2
    · exact hle j le_rfl state hstate d
        ((TransactionState.mem_clustersBefore.mp hd).imp id And.left)
  · obtain ⟨j, state, messages, hstate, hround, hin⟩ := mem_rankBasedPlanner.mp hin
    obtain ⟨rfl, hhead, hfuture, hnow⟩ :=
      ((rankBasedRounds_pushes hround hstate).finalize T).mp hin
    obtain rfl : j = 0 := by simpa using hhead
    obtain ⟨hstop, hinitialized⟩ := initializedTo_of_rankBasedRounds hround
    exact ⟨state, hstate, rfl, hstop, hinitialized 0 le_rfl state hstate, hnow, hfuture⟩
  · rintro ⟨state, hstate, rfl, hstop, hinitialized, hnow, hfuture⟩
    have hto : InitializedTo states 0 := by
      intro i hi state' hstate'
      obtain rfl := Nat.le_zero.mp hi
      rw [hstate] at hstate'
      exact Option.some.inj hstate' ▸ hinitialized
    obtain ⟨messages, hround⟩ := exists_rankBasedRounds hstate hstop hto
    refine mem_rankBasedPlanner.mpr ⟨0, state, messages, hstate, hround, ?_⟩
    exact ((rankBasedRounds_pushes hround hstate).finalize _).mpr ⟨rfl, by simp, hfuture, hnow⟩

/-! ## The order inside one transaction -/

/-- No cluster is proposed while its own transaction has one of a smaller rank. -/
def ProposesLeastRank (clusterRanks : ID → Rank) (stopAt : ℕ) (states : List TransactionState) :
    Prop :=
  ∀ (j : ℕ) (state : TransactionState) (messages : List ExecutorMessage),
    states[j]? = some state →
    (rankBasedRounds clusterRanks stopAt states)[j]? = some messages →
    ∀ c, .startUpdateCluster state.transactionId c ∈ messages →
      ∀ d, d ∈ state.now ∨ d ∈ state.future → (clusterRanks c).value ≤ (clusterRanks d).value

theorem Undercuts.least {visited : List ID} {state : TransactionState} {c : ID}
    (h : Undercuts clusterRanks (visited ++ state.clustersBefore c) c)
    (hafter : ∀ d ∈ state.future, c < d → (clusterRanks c).value ≤ (clusterRanks d).value) {d : ID}
    (hd : d ∈ state.now ∨ d ∈ state.future) : (clusterRanks c).value ≤ (clusterRanks d).value := by
  have hbefore : ∀ e ∈ state.clustersBefore c, (clusterRanks c).value ≤ (clusterRanks e).value :=
    fun e he => h.2 e (List.mem_append_right _ he)
  rcases hd with hnow | hfuture
  · exact hbefore d (TransactionState.mem_clustersBefore.mpr (.inl hnow))
  · rcases lt_trichotomy c d with hlt | rfl | hgt
    · exact hafter d hfuture hlt
    · exact le_rfl
    · exact hbefore d (TransactionState.mem_clustersBefore.mpr (.inr ⟨hfuture, hgt⟩))

/-- The walk through `state.future` is by id. It proposes the least rank only where no cluster that
undercuts all before it is followed by one of a smaller rank. -/
theorem proposesLeastRank_iff (clusterRanks : ID → Rank) (stopAt : ℕ)
    (states : List TransactionState) :
    ProposesLeastRank clusterRanks stopAt states ↔
      ∀ j state, states[j]? = some state → j < stopAt → InitializedTo states j →
        ∀ c ∈ state.future, ∀ d ∈ state.future, c < d →
          Undercuts clusterRanks (olderClusters states j ++ state.clustersBefore c) c →
          (clusterRanks c).value ≤ (clusterRanks d).value := by
  constructor
  · intro h j state hstate hstop hinitialized c hc d hd hlt hunder
    obtain ⟨messages, hround⟩ := exists_rankBasedRounds hstate hstop hinitialized
    refine h j state messages hstate hround c ?_ d (.inr hd)
    exact ((rankBasedRounds_pushes hround hstate).start _ c).mpr ⟨rfl, hc, hunder⟩
  · intro h j state messages hstate hround c hin d hd
    obtain ⟨-, hfuture, hunder⟩ := ((rankBasedRounds_pushes hround hstate).start _ c).mp hin
    obtain ⟨hstop, hinitialized⟩ := initializedTo_of_rankBasedRounds hround
    exact hunder.least
      (fun d hd hlt => h j state hstate hstop hinitialized c hfuture d hd hlt hunder) hd

/-- A transaction that has sent to a sink, with cluster 2 fed by the sink and cluster 1 fed by the
sink and by cluster 2. -/
def diamondState : TransactionState where
  transactionId := 1
  initialized := true
  future := {1, 2}
  now := ∅
  targetRanks := (((∅ : Map ℕ).insert 1 1).insert 2 1)

def diamondRanks (c : ID) : Rank :=
  if c = 1 then Rank.ofNat 2 else if c = 2 then Rank.ofNat 1 else Rank.zero

/-- Cluster 1 is proposed before cluster 2 has been updated. -/
theorem not_proposesLeastRank_diamond :
    .startUpdateCluster 1 1 ∈ rankBasedPlanner diamondRanks 1 [diamondState] ∧
      ¬ ProposesLeastRank diamondRanks 1 [diamondState] := by
  have hround : (rankBasedRounds diamondRanks 1 [diamondState])[0]? =
      some [.startUpdateCluster 1 1, .startUpdateCluster 1 2] := by decide
  refine ⟨by decide, fun h => ?_⟩
  have := h 0 diamondState _ rfl hround 1 (by decide) 2 (by decide)
  revert this
  decide

end Prf
