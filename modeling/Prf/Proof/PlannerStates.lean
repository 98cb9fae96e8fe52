import Prf.Planner

/-!
# The planner's states under any messages

Nothing is assumed here about who sends the messages. The deque keeps consecutive ids, so that the
index `handleUpdateMessage` works out is that of the transaction it is about, and `target_ranks`
counts the clusters that wait or run as long as every `now` is balanced.
-/

namespace Prf

namespace TransactionState

variable (clusterRanks : ID → Rank)

def rankCount (state : TransactionState) (rank : ℕ) : ℕ :=
  (state.future.filter fun c => (clusterRanks c).value = rank).card +
    (state.now.filter fun c => (clusterRanks c).value = rank).card

/-- `target_ranks` counts the clusters that wait or run, rank by rank, and has no empty entry. -/
def RanksCounted (state : TransactionState) : Prop :=
  ∀ rank, state.targetRanks[rank]? =
    if state.rankCount clusterRanks rank = 0 then none else some (state.rankCount clusterRanks rank)

variable {clusterRanks} {state : TransactionState} {c : ID}

theorem new_counted (T : ID) : (new T).RanksCounted clusterRanks := by
  intro rank
  simp [new, rankCount]

theorem RanksCounted.getD (h : state.RanksCounted clusterRanks) (rank : ℕ) :
    state.targetRanks[rank]?.getD 0 = state.rankCount clusterRanks rank := by
  rw [h rank]
  split
  · simp_all
  · rfl

theorem RanksCounted.mem_iff (h : state.RanksCounted clusterRanks) (rank : ℕ) :
    rank ∈ state.targetRanks ↔ ∃ c ∈ state.future ∪ state.now, (clusterRanks c).value = rank := by
  rw [Std.ExtTreeMap.mem_iff_isSome_getElem?, h rank]
  have hcount : state.rankCount clusterRanks rank = 0 ↔
      ∀ c ∈ state.future ∪ state.now, (clusterRanks c).value ≠ rank := by
    simp only [rankCount, Nat.add_eq_zero_iff, Finset.card_eq_zero, Finset.filter_eq_empty_iff,
      Finset.mem_union]
    grind
  split
  · simp_all
  · simp only [Option.isSome_some, true_iff]
    by_contra hnone
    push Not at hnone
    exact ‹¬ _› (hcount.mpr hnone)

/-! ## The loops of an Update -/

variable (clusterRanks state c) in
theorem addFuture_fields :
    (addFuture clusterRanks state c).transactionId = state.transactionId ∧
      (addFuture clusterRanks state c).initialized = state.initialized ∧
      (addFuture clusterRanks state c).future = insert c state.future ∧
      (addFuture clusterRanks state c).now = state.now := by
  rw [addFuture]
  split
  · simp_all
  · simp

theorem addFuture_counted (h : state.RanksCounted clusterRanks) :
    (addFuture clusterRanks state c).RanksCounted clusterRanks := by
  rw [addFuture]
  split
  · exact h
  · rename_i hc
    intro rank
    have hrank := h rank
    simp only [rankCount] at hrank
    simp only [Std.ExtTreeMap.getElem?_insert, h.getD, rankCount, Finset.filter_insert,
      compare_eq_iff_eq]
    split
    · rename_i heq
      rw [Finset.card_insert_of_notMem (by simp [hc]), if_neg (by omega), heq]
      congr 1
      omega
    · exact hrank

theorem foldl_addFuture (ids : List ID) (h : state.RanksCounted clusterRanks) :
    (ids.foldl (addFuture clusterRanks) state).transactionId = state.transactionId ∧
      (ids.foldl (addFuture clusterRanks) state).initialized = state.initialized ∧
      (ids.foldl (addFuture clusterRanks) state).future = state.future ∪ ids.toFinset ∧
      (ids.foldl (addFuture clusterRanks) state).now = state.now ∧
      (ids.foldl (addFuture clusterRanks) state).RanksCounted clusterRanks := by
  induction ids generalizing state with
  | nil => simpa using h
  | cons c ids ih =>
      obtain ⟨hid, hinitialized, hfuture, hnow⟩ :=
        addFuture_fields clusterRanks state c
      obtain ⟨hid', hinitialized', hfuture', hnow', hcounted⟩ := ih (addFuture_counted h)
      refine ⟨hid'.trans hid, hinitialized'.trans hinitialized, ?_, hnow'.trans hnow, hcounted⟩
      rw [List.foldl_cons, hfuture', hfuture]
      ext d
      simp only [Finset.mem_union, Finset.mem_insert, List.toFinset_cons]
      tauto

theorem addNow_counted (h : state.RanksCounted clusterRanks) (hfuture : c ∈ state.future)
    (hnow : c ∉ state.now) : (addNow state c).RanksCounted clusterRanks := by
  have hcount : ∀ rank, (addNow state c).rankCount clusterRanks rank =
      state.rankCount clusterRanks rank := by
    intro rank
    simp only [addNow, rankCount, Finset.filter_erase, Finset.filter_insert]
    split
    · rename_i heq
      rw [Finset.card_insert_of_notMem (by simp [hnow]),
        Finset.card_erase_of_mem (by simp [hfuture, heq])]
      have hpos : 0 < (state.future.filter fun c => (clusterRanks c).value = rank).card :=
        Finset.card_pos.mpr ⟨c, by simp [hfuture, heq]⟩
      omega
    · rename_i hne
      rw [Finset.erase_eq_of_notMem (by simp [hne])]
  intro rank
  rw [hcount]
  exact h rank

theorem rankCount_erase_now (hnow : c ∈ state.now) (rank : ℕ) (ranks : Map ℕ) :
    rankCount clusterRanks { state with now := state.now.erase c, targetRanks := ranks } rank =
      if (clusterRanks c).value = rank then state.rankCount clusterRanks rank - 1
      else state.rankCount clusterRanks rank := by
  simp only [rankCount, Finset.filter_erase]
  split
  · rename_i heq
    have hpos : 0 < (state.now.filter fun d => (clusterRanks d).value = rank).card :=
      Finset.card_pos.mpr ⟨c, by simp [hnow, heq]⟩
    rw [Finset.card_erase_of_mem (by simp [hnow, heq])]
    omega
  · rename_i hne
    rw [Finset.erase_eq_of_notMem (by simp [hne])]

theorem rankCount_pos (hnow : c ∈ state.now) :
    0 < state.rankCount clusterRanks (clusterRanks c).value := by
  have hpos : 0 < (state.now.filter fun d => (clusterRanks d).value = (clusterRanks c).value).card :=
    Finset.card_pos.mpr ⟨c, by simp [hnow]⟩
  exact Nat.add_pos_right _ hpos

theorem addFinish_of_mem (h : state.RanksCounted clusterRanks) (hnow : c ∈ state.now) :
    ∃ state', addFinish clusterRanks state c = some state' ∧
      state'.transactionId = state.transactionId ∧ state'.future = state.future ∧
      state'.now = state.now.erase c ∧ state'.RanksCounted clusterRanks := by
  have hpos : 0 < state.rankCount clusterRanks (clusterRanks c).value := rankCount_pos hnow
  have hcount : state.targetRanks[(clusterRanks c).value]? =
      some (state.rankCount clusterRanks (clusterRanks c).value) := by
    rw [h, if_neg hpos.ne']
  simp only [addFinish, if_pos hnow, hcount, Option.some.injEq, exists_eq_left', true_and]
  intro rank
  rw [rankCount_erase_now hnow]
  have hrank := h rank
  by_cases heq : (clusterRanks c).value = rank
  · subst heq
    by_cases hone : state.rankCount clusterRanks (clusterRanks c).value = 1
    · simp [hone]
    · have htwo : state.rankCount clusterRanks (clusterRanks c).value - 1 ≠ 0 := by omega
      simp [hone, htwo]
  · by_cases hone : state.rankCount clusterRanks (clusterRanks c).value = 1
    · simp [hone, heq, Std.ExtTreeMap.getElem?_erase, hrank]
    · simp [hone, heq, Std.ExtTreeMap.getElem?_insert, hrank]

/-- What `handleUpdateMessage` does to the state of a transaction, for each kind of message the
`Executor` sends. -/
theorem applyUpdate_future (T : ID) (ids : List ID) (h : state.RanksCounted clusterRanks) :
    ∃ state', state.applyUpdate clusterRanks ⟨T, [], ids, []⟩ = some state' ∧
      state'.transactionId = state.transactionId ∧ state'.initialized = true ∧
      state'.future = state.future ∪ ids.toFinset ∧ state'.now = state.now ∧
      state'.RanksCounted clusterRanks := by
  obtain ⟨hid, -, hfuture, hnow, hcounted⟩ := foldl_addFuture ids h
  exact ⟨_, rfl, hid, rfl, hfuture, hnow, hcounted⟩

theorem applyUpdate_now (T : ID) (h : state.RanksCounted clusterRanks) (hfuture : c ∈ state.future)
    (hnow : c ∉ state.now) :
    ∃ state', state.applyUpdate clusterRanks ⟨T, [c], [], []⟩ = some state' ∧
      state'.transactionId = state.transactionId ∧ state'.initialized = true ∧
      state'.future = state.future.erase c ∧ state'.now = insert c state.now ∧
      state'.RanksCounted clusterRanks :=
  ⟨_, rfl, rfl, rfl, rfl, rfl, addNow_counted h hfuture hnow⟩

theorem applyUpdate_finish (T : ID) (ids : List ID) (h : state.RanksCounted clusterRanks)
    (hnow : c ∈ state.now) :
    ∃ state', state.applyUpdate clusterRanks ⟨T, [], ids, [c]⟩ = some state' ∧
      state'.transactionId = state.transactionId ∧ state'.initialized = true ∧
      state'.future = state.future ∪ ids.toFinset ∧ state'.now = state.now.erase c ∧
      state'.RanksCounted clusterRanks := by
  obtain ⟨hid, -, hfuture, hnow', hcounted⟩ := foldl_addFuture ids h
  obtain ⟨state', happly, hid', hfuture', hnow'', hcounted'⟩ :=
    addFinish_of_mem hcounted (hnow' ▸ hnow)
  refine ⟨{ state' with initialized := true }, ?_, hid'.trans hid, rfl, hfuture'.trans hfuture, ?_,
    hcounted'⟩
  · simp [applyUpdate, happly]
  · simp only [hnow'', hnow']

/-! ## Updates of any kind -/

variable (clusterRanks) in
/-- The state after the loops over `message.future` and `message.now`. -/
def beforeFinish (message : UpdateTransactionMessage) (state : TransactionState) :
    TransactionState :=
  message.now.foldl addNow (message.future.foldl (addFuture clusterRanks) state)

variable (clusterRanks) in
/-- The message finishes a running cluster whose rank is missing from `target_ranks`. -/
def MissesRank (message : UpdateTransactionMessage) (state : TransactionState) : Prop :=
  ∃ before id after state', message.finish = before ++ id :: after ∧
    before.foldlM (addFinish clusterRanks) (state.beforeFinish clusterRanks message) = some state' ∧
    id ∈ state'.now ∧ (clusterRanks id).value ∉ state'.targetRanks

variable {state' : TransactionState} {message : UpdateTransactionMessage}

theorem foldlM_eq_none_iff {α β : Type} {f : β → α → Option β} {l : List α} {b : β} :
    l.foldlM f b = none ↔
      ∃ before a after b', l = before ++ a :: after ∧ before.foldlM f b = some b' ∧
        f b' a = none := by
  induction l generalizing b with
  | nil => simp
  | cons a l ih =>
      rw [List.foldlM_cons]
      cases hf : f b a with
      | none =>
          simp only [Option.bind_eq_bind, Option.bind_none, true_iff]
          exact ⟨[], a, l, b, rfl, rfl, hf⟩
      | some b₁ =>
          simp only [Option.bind_eq_bind, Option.bind_some, ih]
          constructor
          · rintro ⟨before, a', after, b', rfl, hbefore, hnone⟩
            exact ⟨a :: before, a', after, b', rfl, by simpa [hf] using hbefore, hnone⟩
          · rintro ⟨before, a', after, b', hsplit, hbefore, hnone⟩
            cases before with
            | nil =>
                obtain ⟨rfl, rfl⟩ := List.cons.inj hsplit
                obtain rfl := Option.some.inj hbefore
                rw [hf] at hnone
                cases hnone
            | cons a₁ before =>
                obtain ⟨rfl, rfl⟩ := List.cons.inj hsplit
                exact ⟨before, a', after, b', rfl, by simpa [hf] using hbefore, hnone⟩

theorem addFinish_eq_none_iff {id : ID} :
    addFinish clusterRanks state id = none ↔
      id ∈ state.now ∧ (clusterRanks id).value ∉ state.targetRanks := by
  simp only [addFinish, Std.ExtTreeMap.mem_iff_isSome_getElem?]
  split
  · cases hcount : state.targetRanks[(clusterRanks id).value]? <;> simp_all
  · simp_all

theorem addFinish_cases {id : ID} (h : addFinish clusterRanks state id = some state') :
    state' = state ∨
      id ∈ state.now ∧ ∃ count, state.targetRanks[(clusterRanks id).value]? = some count ∧
        state' = { state with
          now := state.now.erase id
          targetRanks :=
            if count = 1 then state.targetRanks.erase (clusterRanks id).value
            else state.targetRanks.insert (clusterRanks id).value (count - 1) } := by
  simp only [addFinish] at h
  split at h
  · rename_i hnow
    cases hcount : state.targetRanks[(clusterRanks id).value]? with
    | none => simp [hcount] at h
    | some count =>
        simp only [hcount, Option.some.injEq] at h
        exact .inr ⟨hnow, count, rfl, h.symm⟩
  · exact .inl (Option.some.inj h).symm

theorem applyUpdate_eq_none_iff :
    state.applyUpdate clusterRanks message = none ↔ state.MissesRank clusterRanks message := by
  simp only [applyUpdate, Option.map_eq_none_iff, foldlM_eq_none_iff, addFinish_eq_none_iff]
  rfl

theorem addFinish_transactionId {id : ID} (h : addFinish clusterRanks state id = some state') :
    state'.transactionId = state.transactionId := by
  rcases addFinish_cases h with rfl | ⟨-, count, -, rfl⟩ <;> rfl

theorem beforeFinish_transactionId :
    (state.beforeFinish clusterRanks message).transactionId = state.transactionId := by
  have hfuture : ∀ ids : List ID, (ids.foldl (addFuture clusterRanks) state).transactionId =
      state.transactionId := by
    intro ids
    induction ids using List.reverseRecOn with
    | nil => rfl
    | append_singleton ids c ih =>
        rw [List.foldl_append]
        exact (addFuture_fields clusterRanks _ c).1.trans ih
  have hnow : ∀ (ids : List ID) (state : TransactionState),
      (ids.foldl addNow state).transactionId = state.transactionId := by
    intro ids
    induction ids with
    | nil => exact fun _ => rfl
    | cons c ids ih => exact fun state => ih (addNow state c)
  exact (hnow message.now _).trans (hfuture message.future)

theorem foldlM_addFinish_transactionId {ids : List ID}
    (h : ids.foldlM (addFinish clusterRanks) state = some state') :
    state'.transactionId = state.transactionId := by
  induction ids generalizing state with
  | nil =>
      obtain rfl := Option.some.inj h
      rfl
  | cons c ids ih =>
      rw [List.foldlM_cons, Option.bind_eq_bind, Option.bind_eq_some_iff] at h
      obtain ⟨state₁, hstep, hrest⟩ := h
      exact (ih hrest).trans (addFinish_transactionId hstep)

theorem applyUpdate_transactionId (h : state.applyUpdate clusterRanks message = some state') :
    state'.transactionId = state.transactionId := by
  simp only [applyUpdate, Option.map_eq_some_iff] at h
  obtain ⟨state₁, hfinish, rfl⟩ := h
  exact (foldlM_addFinish_transactionId hfinish).trans beforeFinish_transactionId

end TransactionState

/-- The ids in the deque count up one by one. -/
def Consecutive (states : List TransactionState) : Prop :=
  ∀ i front state, states[0]? = some front → states[i]? = some state →
    state.transactionId = front.transactionId + i

variable {clusterRanks : ID → Rank} {states states' : List TransactionState}
  {state : TransactionState} {message : UpdateTransactionMessage}

theorem consecutive_iff :
    Consecutive states ↔
      ∃ first, states.map (·.transactionId) = List.range' first states.length := by
  constructor
  · intro h
    cases states with
    | nil => exact ⟨0, rfl⟩
    | cons front rest =>
        refine ⟨front.transactionId, List.ext_getElem? fun i => ?_⟩
        rw [List.getElem?_map]
        by_cases hi : i < (front :: rest).length
        · rw [List.getElem?_eq_getElem hi, List.getElem?_range' hi, Option.map_some,
            h i front _ rfl (List.getElem?_eq_getElem hi), one_mul]
        · rw [List.getElem?_eq_none (by omega), List.getElem?_eq_none (by simpa using hi)]
          rfl
  · rintro ⟨first, hids⟩ i front state hfront hstate
    have hid : ∀ j other, states[j]? = some other → other.transactionId = first + j := by
      intro j other hother
      obtain ⟨hj, -⟩ := List.getElem?_eq_some_iff.mp hother
      have hmap : (states.map (·.transactionId))[j]? = some other.transactionId := by
        rw [List.getElem?_map, hother, Option.map_some]
      rw [hids, List.getElem?_range' hj, one_mul] at hmap
      exact (Option.some.inj hmap).symm
    rw [hid i state hstate, hid 0 front hfront, add_zero]

theorem appendStates_ids (missing : ℕ) (last : ID) :
    (appendStates missing last).map (·.transactionId) = List.range' (last + 1) missing := by
  induction missing generalizing last with
  | zero => rfl
  | succ missing ih =>
      rw [appendStates, List.map_cons, ih, List.range'_succ]
      rfl

theorem length_appendStates (missing : ℕ) (last : ID) :
    (appendStates missing last).length = missing := by
  rw [← List.length_map (·.transactionId), appendStates_ids, List.length_range']

theorem new_of_mem_appendStates {missing : ℕ} {last : ID} (h : state ∈ appendStates missing last) :
    state = TransactionState.new state.transactionId := by
  induction missing generalizing last with
  | zero => cases h
  | succ missing ih =>
      rcases List.mem_cons.mp h with rfl | h
      · rfl
      · exact ih h

theorem handleStartMessage_append (T : ID) (h : Consecutive states) :
    ∃ added, handleStartMessage T states = states ++ added ∧ Consecutive (states ++ added) ∧
      ∀ state ∈ added, state = TransactionState.new state.transactionId ∧
        state.transactionId ≤ T := by
  cases hback : states.getLast? with
  | none =>
      refine ⟨[TransactionState.new T], ?_, ?_, ?_⟩
      · simp [handleStartMessage, List.getLast?_eq_none_iff.mp hback]
      · rw [List.getLast?_eq_none_iff.mp hback, consecutive_iff]
        exact ⟨T, rfl⟩
      · simp [TransactionState.new]
  | some back =>
      obtain ⟨first, hids⟩ := consecutive_iff.mp h
      have hlast : (states.map (·.transactionId)).getLast? = some back.transactionId := by
        rw [List.getLast?_map, hback, Option.map_some]
      have hpos : 0 < states.length := by
        rw [List.length_pos_iff]
        rintro rfl
        cases hback
      have hid : back.transactionId + 1 = first + states.length := by
        rw [hids, List.getLast?_range'] at hlast
        simp only [hpos.ne', if_false, Option.some.injEq] at hlast
        lia
      refine ⟨appendStates (T - back.transactionId) back.transactionId, ?_, ?_, ?_⟩
      · rw [handleStartMessage, hback]
      · rw [consecutive_iff]
        refine ⟨first, ?_⟩
        rw [List.map_append, hids, appendStates_ids, hid, List.length_append, length_appendStates,
          List.range'_append_1]
      · intro state hstate
        have hmem := List.mem_map_of_mem (f := TransactionState.transactionId) hstate
        rw [appendStates_ids, List.mem_range'_1] at hmem
        exact ⟨new_of_mem_appendStates hstate, by lia⟩

theorem startLoop_eq {T : ID} (hT : T < u64Size) (missing : ℕ) {back : TransactionState}
    (hback : states.getLast? = some back) (hmissing : T - back.transactionId = missing) :
    ∀ fuel ≥ missing, startLoop T fuel states =
      some (states ++ appendStates missing back.transactionId) := by
  induction missing generalizing states back with
  | zero =>
      intro fuel _
      have hle : T ≤ back.transactionId := by lia
      rw [startLoop.eq_def]
      simp [hback, hle, appendStates]
  | succ missing ih =>
      intro fuel hfuel
      obtain ⟨fuel, rfl⟩ : ∃ n, fuel = n + 1 := ⟨fuel - 1, by omega⟩
      have hlt : ¬ T ≤ back.transactionId := by lia
      have hnext : (back.transactionId + 1) % u64Size = back.transactionId + 1 :=
        Nat.mod_eq_of_lt (by lia)
      have hrest : startLoop T fuel (states ++ [TransactionState.new (back.transactionId + 1)]) =
          some (states ++ [TransactionState.new (back.transactionId + 1)] ++
            appendStates missing (back.transactionId + 1)) :=
        ih List.getLast?_concat (by simp only [TransactionState.new]; lia) fuel (by omega)
      rw [startLoop, hback]
      simp only [hlt, if_false, hnext, hrest, appendStates, List.append_assoc,
        List.singleton_append]

theorem handleStartRounds_eq {T : ID} (hT : T < u64Size) (states : List TransactionState) :
    ∃ rounds, ∀ fuel ≥ rounds,
      handleStartRounds fuel T states = some (handleStartMessage T states) := by
  cases hback : states.getLast? with
  | none =>
      have hnil := List.getLast?_eq_none_iff.mp hback
      exact ⟨0, fun fuel _ => by simp [handleStartRounds, handleStartMessage, hnil]⟩
  | some back =>
      have hne : states ≠ [] := by
        rintro rfl
        cases hback
      refine ⟨T - back.transactionId, fun fuel hfuel => ?_⟩
      rw [handleStartRounds, if_neg hne, startLoop_eq hT _ hback rfl fuel hfuel,
        handleStartMessage, hback]

theorem mem_of_mem_handleFinishMessage {T : ID} (h : state ∈ handleFinishMessage T states) :
    state ∈ states := by
  cases states with
  | nil => exact h
  | cons front rest =>
      rw [handleFinishMessage] at h
      split at h
      · exact List.mem_cons_of_mem _ h
      · exact h

namespace Consecutive

theorem handleFinishMessage (h : Consecutive states) (T : ID) :
    Consecutive (handleFinishMessage T states) := by
  cases states with
  | nil => exact h
  | cons front rest =>
      rw [Prf.handleFinishMessage]
      split
      · intro i front' state hfront hstate
        have hfront' := h 1 front front' rfl (by simpa using hfront)
        have hstate' := h (i + 1) front state rfl (by simpa using hstate)
        lia
      · exact h

theorem handleUpdateMessage_eq (h : Consecutive states) {i : ℕ} (hstate : states[i]? = some state)
    (hid : state.transactionId = message.transactionId) :
    handleUpdateMessage clusterRanks message states =
      (state.applyUpdate clusterRanks message).map fun state => states.set i state := by
  obtain ⟨hi, -⟩ := List.getElem?_eq_some_iff.mp hstate
  obtain ⟨front, hfront⟩ : ∃ front, states[0]? = some front :=
    ⟨_, List.getElem?_eq_getElem (by omega)⟩
  obtain ⟨back, hback⟩ : ∃ back, states[states.length - 1]? = some back :=
    ⟨_, List.getElem?_eq_getElem (by omega)⟩
  have hfrontId := h i front state hfront hstate
  have hbackId := h _ front back hfront hback
  have hindex : message.transactionId - front.transactionId = i := by lia
  rw [handleUpdateMessage, List.head?_eq_getElem?, List.getLast?_eq_getElem?, hfront, hback]
  simp only
  rw [if_neg (by lia)]
  simp only [hindex, hstate]

theorem handleUpdateMessage_of_none (h : Consecutive states)
    (hid : ∀ state ∈ states, state.transactionId ≠ message.transactionId) :
    handleUpdateMessage clusterRanks message states = some states := by
  cases hlength : states.length with
  | zero => simp [List.length_eq_zero_iff.mp hlength, handleUpdateMessage]
  | succ n =>
      obtain ⟨front, hfront⟩ : ∃ front, states[0]? = some front :=
        ⟨_, List.getElem?_eq_getElem (by omega)⟩
      obtain ⟨back, hback⟩ : ∃ back, states[states.length - 1]? = some back :=
        ⟨_, List.getElem?_eq_getElem (by omega)⟩
      have hbackId := h _ front back hfront hback
      rw [handleUpdateMessage, List.head?_eq_getElem?, List.getLast?_eq_getElem?, hfront, hback]
      simp only
      rw [if_pos]
      -- an id between the two ends is that of some entry
      by_contra hin
      have hlt : message.transactionId - front.transactionId < states.length := by lia
      have hat := h _ front _ hfront (List.getElem?_eq_getElem hlt)
      exact hid _ (List.getElem_mem hlt) (by lia)

variable (clusterRanks) in
theorem handleUpdateMessage_cases (h : Consecutive states) (message : UpdateTransactionMessage) :
    (∃ i state, states[i]? = some state ∧ state ∈ states ∧
      state.transactionId = message.transactionId ∧
      handleUpdateMessage clusterRanks message states =
        (state.applyUpdate clusterRanks message).map fun state => states.set i state) ∨
    (∀ state ∈ states, state.transactionId ≠ message.transactionId) ∧
      handleUpdateMessage clusterRanks message states = some states := by
  by_cases hid : ∃ state ∈ states, state.transactionId = message.transactionId
  · obtain ⟨state, hmem, hid⟩ := hid
    obtain ⟨i, hstate⟩ := List.mem_iff_getElem?.mp hmem
    exact .inl ⟨i, state, hstate, hmem, hid, h.handleUpdateMessage_eq hstate hid⟩
  · push Not at hid
    exact .inr ⟨hid, h.handleUpdateMessage_of_none hid⟩

theorem eq_of_transactionId (h : Consecutive states) {other : TransactionState}
    (hother : other ∈ states) (hstate : state ∈ states)
    (hid : other.transactionId = state.transactionId) : other = state := by
  obtain ⟨i, hi⟩ := List.mem_iff_getElem?.mp hother
  obtain ⟨j, hj⟩ := List.mem_iff_getElem?.mp hstate
  obtain ⟨hlt, -⟩ := List.getElem?_eq_some_iff.mp hi
  have hfront : states[0]? = some states[0] := List.getElem?_eq_getElem (by omega)
  have hiId := h i _ other hfront hi
  have hjId := h j _ state hfront hj
  have hij : i = j := by lia
  rw [hij, hj] at hi
  exact (Option.some.inj hi).symm

theorem set (h : Consecutive states) {i : ℕ} (hstate : states[i]? = some state)
    {state' : TransactionState} (hid : state'.transactionId = state.transactionId) :
    Consecutive (states.set i state') := by
  have hold : ∀ (j : ℕ) (other : TransactionState), (states.set i state')[j]? = some other →
      ∃ old, states[j]? = some old ∧ other.transactionId = old.transactionId := by
    intro j other hother
    rw [List.getElem?_set] at hother
    split at hother
    · rename_i hij
      split at hother
      · obtain rfl := Option.some.inj hother
        exact ⟨state, hij ▸ hstate, hid⟩
      · cases hother
    · exact ⟨other, hother, rfl⟩
  intro j front other hfront hother
  obtain ⟨front', hfront', hfrontId⟩ := hold 0 front hfront
  obtain ⟨other', hother', hotherId⟩ := hold j other hother
  rw [hotherId, hfrontId, h j front' other' hfront' hother']

end Consecutive

/-! ## Message by message -/

/-- No Update of the messages finishes a running cluster whose rank is missing. -/
def NeverMisses (clusterRanks : ID → Rank) (messages : List PlannerMessage) : Prop :=
  ∀ before message after states, messages = before ++ .updateTransaction message :: after →
    before.foldlM (handleMessage clusterRanks) [] = some states →
      ∀ state ∈ states, state.transactionId = message.transactionId →
        ¬ state.MissesRank clusterRanks message

/-- `transaction_id` of a message. -/
def PlannerMessage.transactionId : PlannerMessage → ID
  | startTransaction transactionId => transactionId
  | updateTransaction message => message.transactionId
  | finishTransaction transactionId => transactionId

theorem Consecutive.of_handleMessage (h : Consecutive states) {m : PlannerMessage}
    (hstep : handleMessage clusterRanks states m = some states') :
    Consecutive states' ∧ ∀ state' ∈ states', state'.transactionId ≤ m.transactionId ∨
      ∃ state ∈ states, state'.transactionId = state.transactionId := by
  cases m with
  | startTransaction T =>
      obtain ⟨added, happend, hconsecutive, hids⟩ := handleStartMessage_append T h
      obtain rfl := Option.some.inj hstep
      rw [happend]
      refine ⟨hconsecutive, fun state' hstate' => ?_⟩
      rcases List.mem_append.mp hstate' with hmem | hmem
      · exact .inr ⟨state', hmem, rfl⟩
      · exact .inl (hids state' hmem).2
  | finishTransaction T =>
      obtain rfl := Option.some.inj hstep
      exact ⟨h.handleFinishMessage T, fun state' hstate' =>
        .inr ⟨state', mem_of_mem_handleFinishMessage hstate', rfl⟩⟩
  | updateTransaction message =>
      rw [handleMessage] at hstep
      rcases h.handleUpdateMessage_cases clusterRanks message with
        ⟨i, state, hstate, hmem, hid, heq⟩ | ⟨hid, heq⟩
      · rw [heq, Option.map_eq_some_iff] at hstep
        obtain ⟨state', happly, rfl⟩ := hstep
        have hid' := TransactionState.applyUpdate_transactionId happly
        refine ⟨h.set hstate hid', fun other hother => ?_⟩
        rcases List.mem_or_eq_of_mem_set hother with hother | rfl
        · exact .inr ⟨other, hother, rfl⟩
        · exact .inr ⟨state, hmem, hid'⟩
      · rw [heq, Option.some.injEq] at hstep
        exact hstep ▸ ⟨h, fun state hstate => .inr ⟨state, hstate, rfl⟩⟩

theorem Consecutive.exists_handleMessage (h : Consecutive states) (m : PlannerMessage)
    (hm : ∀ message, m = .updateTransaction message → ∀ state ∈ states,
      state.transactionId = message.transactionId → ¬ state.MissesRank clusterRanks message) :
    ∃ states', handleMessage clusterRanks states m = some states' := by
  cases m with
  | startTransaction T => exact ⟨_, rfl⟩
  | finishTransaction T => exact ⟨_, rfl⟩
  | updateTransaction message =>
      rcases h.handleUpdateMessage_cases clusterRanks message with
        ⟨i, state, hstate, hmem, hid, heq⟩ | ⟨hid, heq⟩
      · have happly : state.applyUpdate clusterRanks message ≠ none := fun hnone =>
          hm message rfl state hmem hid (TransactionState.applyUpdate_eq_none_iff.mp hnone)
        obtain ⟨state', happly⟩ := Option.ne_none_iff_exists'.mp happly
        exact ⟨_, heq.trans (congrArg _ happly)⟩
      · exact ⟨states, heq⟩

theorem NeverMisses.of_append {messages more : List PlannerMessage}
    (h : NeverMisses clusterRanks (messages ++ more)) : NeverMisses clusterRanks messages := by
  rintro before message after states rfl
  exact h before message (after ++ more) states (by simp)

theorem foldlM_handleMessage_concat (before : List PlannerMessage) (m : PlannerMessage) :
    (before ++ [m]).foldlM (handleMessage clusterRanks) [] =
      (before.foldlM (handleMessage clusterRanks) []).bind (handleMessage clusterRanks · m) := by
  simp [List.foldlM_append]

theorem consecutive_nil : Consecutive [] := by
  intro i front state hfront
  cases hfront

/-- However a run goes, its states are consecutive, and none is beyond the messages. -/
theorem consecutive_of_run (messages : List PlannerMessage)
    (hrun : messages.foldlM (handleMessage clusterRanks) [] = some states) :
    Consecutive states ∧
      ∀ state ∈ states, ∃ m ∈ messages, state.transactionId ≤ m.transactionId := by
  induction messages using List.reverseRecOn generalizing states with
  | nil =>
      obtain rfl := Option.some.inj hrun
      exact ⟨consecutive_nil, by simp⟩
  | append_singleton messages m ih =>
      rw [foldlM_handleMessage_concat, Option.bind_eq_some_iff] at hrun
      obtain ⟨states₁, hrun, hstep⟩ := hrun
      obtain ⟨hconsecutive, hle⟩ := ih hrun
      obtain ⟨hconsecutive', hids⟩ := hconsecutive.of_handleMessage hstep
      refine ⟨hconsecutive', fun state' hstate' => ?_⟩
      rcases hids state' hstate' with hle' | ⟨state, hstate, hid⟩
      · exact ⟨m, by simp, hle'⟩
      · obtain ⟨m', hm', hle'⟩ := hle state hstate
        exact ⟨m', List.mem_append_left _ hm', hid ▸ hle'⟩

theorem exists_run (messages : List PlannerMessage) (hranks : NeverMisses clusterRanks messages) :
    ∃ states, messages.foldlM (handleMessage clusterRanks) [] = some states := by
  induction messages using List.reverseRecOn with
  | nil => exact ⟨[], rfl⟩
  | append_singleton messages m ih =>
      obtain ⟨states, hrun⟩ := ih hranks.of_append
      obtain ⟨states', hstep⟩ := (consecutive_of_run messages hrun).1.exists_handleMessage m
        fun message hm => hranks messages message [] states (by rw [hm]) hrun
      exact ⟨states', by rw [foldlM_handleMessage_concat, hrun, Option.bind_some, hstep]⟩

/-- After any messages the states are consecutive, and what each kind of message does to them next:
a Start adds states behind those that are there, an Update changes the state with its id if there is
one, and a Finish takes the oldest state off if the id is its. -/
theorem transactionStates_consecutive (clusterRanks : ID → Rank) (messages : List PlannerMessage)
    (hids : ∀ m ∈ messages, m.transactionId < u64Size)
    (hranks : NeverMisses clusterRanks messages) :
    ∃ states, messages.foldlM (handleMessage clusterRanks) [] = some states ∧
      Consecutive states ∧ (∀ state ∈ states, state.transactionId < u64Size) ∧
      (∀ T < u64Size,
        (∃ rounds, ∀ fuel ≥ rounds,
          handleStartRounds fuel T states = some (handleStartMessage T states)) ∧
        states <+: handleStartMessage T states) ∧
      (∀ message, (∀ state ∈ states, state.transactionId ≠ message.transactionId) →
        handleUpdateMessage clusterRanks message states = some states) ∧
      (∀ message i state, states[i]? = some state →
        state.transactionId = message.transactionId → ¬ state.MissesRank clusterRanks message →
          ∃ state', state.applyUpdate clusterRanks message = some state' ∧
            state'.transactionId = state.transactionId ∧
            handleUpdateMessage clusterRanks message states = some (states.set i state')) ∧
      ∀ T, handleFinishMessage T states =
        if states.head?.map (·.transactionId) = some T then states.tail else states := by
  obtain ⟨states, hrun⟩ := exists_run messages hranks
  obtain ⟨hconsecutive, hle⟩ := consecutive_of_run messages hrun
  have hlt : ∀ state ∈ states, state.transactionId < u64Size := by
    intro state hstate
    obtain ⟨m, hm, hle⟩ := hle state hstate
    exact hle.trans_lt (hids m hm)
  refine ⟨states, hrun, hconsecutive, hlt, fun T hT => ⟨handleStartRounds_eq hT states, ?_⟩,
    fun message => hconsecutive.handleUpdateMessage_of_none, ?_, fun T => ?_⟩
  · obtain ⟨added, happend, -⟩ := handleStartMessage_append T hconsecutive
    exact happend ▸ List.prefix_append _ _
  · intro message i state hstate hid hmisses
    cases happly : state.applyUpdate clusterRanks message with
    | none => exact absurd (TransactionState.applyUpdate_eq_none_iff.mp happly) hmisses
    | some state' =>
        refine ⟨state', rfl, TransactionState.applyUpdate_transactionId happly, ?_⟩
        rw [hconsecutive.handleUpdateMessage_eq hstate hid, happly, Option.map_some]
  · cases states <;> simp [handleFinishMessage]

/-- A Start that leaves a gap, an Update of a state it fills in, and a Finish of the oldest. -/
theorem transactionStates_consecutive_gap :
    ∃ states, [.startTransaction 1, .startTransaction 3, .updateTransaction ⟨2, [], [7], []⟩,
        .finishTransaction 1].foldlM (handleMessage fun _ => Rank.zero) [] = some states ∧
      Consecutive states ∧ ∀ state ∈ states, state.transactionId < u64Size := by
  obtain ⟨states, hrun, hconsecutive, hlt, -⟩ :=
    transactionStates_consecutive (fun _ => Rank.zero)
      [.startTransaction 1, .startTransaction 3, .updateTransaction ⟨2, [], [7], []⟩,
        .finishTransaction 1]
      (by decide) (by
        rintro before message after states hsplit - state - - ⟨done, id, rest, -, hfinish, -⟩
        have hmem : PlannerMessage.updateTransaction message ∈
            [.startTransaction 1, .startTransaction 3, .updateTransaction ⟨2, [], [7], []⟩,
              .finishTransaction 1] := by
          simp [hsplit]
        simp only [List.mem_cons, reduceCtorEq, PlannerMessage.updateTransaction.injEq,
          List.not_mem_nil, or_false, false_or] at hmem
        simp [hmem] at hfinish)
  exact ⟨states, hrun, hconsecutive, hlt⟩

namespace TransactionState

/-! ## The counter -/

/-- Rank by rank, `message.now` names as many clusters that neither wait nor run as clusters that do
both. -/
def BalancedNow (clusterRanks : ID → Rank) (message : UpdateTransactionMessage)
    (state : TransactionState) : Prop :=
  ∀ rank,
    (message.now.toFinset.filter fun id => (clusterRanks id).value = rank ∧
      id ∉ state.future ∪ message.future.toFinset ∧ id ∉ state.now).card =
    (message.now.toFinset.filter fun id => (clusterRanks id).value = rank ∧
      id ∈ state.future ∪ message.future.toFinset ∧ id ∈ state.now).card

variable {clusterRanks : ID → Rank} {state state' : TransactionState}
  {message : UpdateTransactionMessage}

theorem foldl_addNow (ids : List ID) (state : TransactionState) :
    ids.foldl addNow state = { state with
      future := state.future \ ids.toFinset
      now := ids.toFinset ∪ state.now } := by
  induction ids generalizing state with
  | nil => simp
  | cons c ids ih =>
      rw [List.foldl_cons, ih]
      simp only [addNow, List.toFinset_cons]
      congr 1
      · ext d
        simp only [Finset.mem_sdiff, Finset.mem_erase, Finset.mem_insert]
        tauto
      · ext d
        simp only [Finset.mem_union, Finset.mem_insert]
        tauto

theorem card_filter_split (s : Finset ID) (P Q : ID → Prop) [DecidablePred P] [DecidablePred Q] :
    (s.filter fun id => P id ∧ Q id).card + (s.filter fun id => P id ∧ ¬ Q id).card =
      (s.filter P).card := by
  rw [← Finset.card_filter_add_card_filter_not (s := s.filter P) Q, Finset.filter_filter,
    Finset.filter_filter]

theorem rankCount_foldl_addNow (ids : List ID) (state : TransactionState) (rank : ℕ) :
    (ids.foldl addNow state).rankCount clusterRanks rank +
        (ids.toFinset.filter fun id =>
          (clusterRanks id).value = rank ∧ id ∈ state.future ∧ id ∈ state.now).card =
      state.rankCount clusterRanks rank +
        (ids.toFinset.filter fun id =>
          (clusterRanks id).value = rank ∧ id ∉ state.future ∧ id ∉ state.now).card := by
  rw [foldl_addNow]
  simp only [rankCount]
  have hfuture : ((state.future \ ids.toFinset).filter fun c => (clusterRanks c).value = rank).card +
      (ids.toFinset.filter fun id => (clusterRanks id).value = rank ∧ id ∈ state.future).card =
        (state.future.filter fun c => (clusterRanks c).value = rank).card := by
    rw [← card_filter_split state.future _ (· ∈ ids.toFinset), add_comm]
    refine congrArg₂ (· + ·) (congrArg Finset.card ?_) (congrArg Finset.card ?_)
    · ext d
      simp only [Finset.mem_filter]
      tauto
    · ext d
      simp only [Finset.mem_filter, Finset.mem_sdiff]
      tauto
  have hnow : ((ids.toFinset ∪ state.now).filter fun c => (clusterRanks c).value = rank).card =
      (state.now.filter fun c => (clusterRanks c).value = rank).card +
        (ids.toFinset.filter fun id => (clusterRanks id).value = rank ∧ id ∉ state.now).card := by
    rw [← card_filter_split (ids.toFinset ∪ state.now) _ (· ∈ state.now)]
    refine congrArg₂ (· + ·) (congrArg Finset.card ?_) (congrArg Finset.card ?_)
    · ext d
      simp only [Finset.mem_filter, Finset.mem_union]
      tauto
    · ext d
      simp only [Finset.mem_filter, Finset.mem_union]
      tauto
  have hwaiting := card_filter_split ids.toFinset
    (fun id => (clusterRanks id).value = rank ∧ id ∈ state.future) (· ∈ state.now)
  have hstarted := card_filter_split ids.toFinset
    (fun id => (clusterRanks id).value = rank ∧ id ∉ state.now) (· ∈ state.future)
  simp only [and_assoc] at hwaiting hstarted
  simp only [and_comm (a := _ ∉ state.now)] at hstarted
  omega

theorem entry_inj (m n : ℕ) :
    (if m = 0 then none else some m) = (if n = 0 then none else some n) ↔ m = n := by
  split <;> split <;> simp_all
  omega

theorem beforeFinish_counted_iff (h : state.RanksCounted clusterRanks) :
    (state.beforeFinish clusterRanks message).RanksCounted clusterRanks ↔
      state.BalancedNow clusterRanks message := by
  obtain ⟨-, -, hfuture, hnow, hcounted⟩ := foldl_addFuture message.future h
  generalize hstate : message.future.foldl (addFuture clusterRanks) state = announced at *
  have hcount := @rankCount_foldl_addNow clusterRanks message.now announced
  have hranks : (message.now.foldl addNow announced).targetRanks = announced.targetRanks := by
    rw [foldl_addNow]
  rw [beforeFinish, hstate, RanksCounted, BalancedNow, ← hfuture, ← hnow]
  refine forall_congr' fun rank => ?_
  rw [hranks, hcounted rank, entry_inj]
  have hrank := hcount rank
  omega

theorem counted_of_addFinish {id : ID} (h : addFinish clusterRanks state id = some state')
    (hcounted : state'.RanksCounted clusterRanks) : state.RanksCounted clusterRanks := by
  rcases addFinish_cases h with rfl | ⟨hnow, count, hcount, rfl⟩
  · exact hcounted
  intro rank
  have hpos : 0 < state.rankCount clusterRanks (clusterRanks id).value := rankCount_pos hnow
  have hrank := hcounted rank
  rw [rankCount_erase_now hnow] at hrank
  by_cases heq : (clusterRanks id).value = rank
  · subst heq
    rw [hcount, if_neg hpos.ne']
    congr 1
    by_cases hone : count = 1
    · simp only [hone, if_true, Std.ExtTreeMap.getElem?_erase_self] at hrank
      split at hrank
      · omega
      · cases hrank
    · simp only [hone, if_false, if_true, Std.ExtTreeMap.getElem?_insert_self] at hrank
      split at hrank
      · cases hrank
      · have heq := Option.some.inj hrank
        omega
  · by_cases hone : count = 1
    · simpa [hone, heq, Std.ExtTreeMap.getElem?_erase] using hrank
    · simpa [hone, heq, Std.ExtTreeMap.getElem?_insert] using hrank

theorem foldlM_addFinish_counted (ids : List ID) (h : state.RanksCounted clusterRanks) :
    ∃ state', ids.foldlM (addFinish clusterRanks) state = some state' ∧
      state'.RanksCounted clusterRanks := by
  induction ids generalizing state with
  | nil => exact ⟨state, rfl, h⟩
  | cons c ids ih =>
      obtain ⟨state₁, hstep, hcounted⟩ : ∃ state₁, addFinish clusterRanks state c = some state₁ ∧
          state₁.RanksCounted clusterRanks := by
        by_cases hnow : c ∈ state.now
        · obtain ⟨state₁, hstep, -, -, -, hcounted⟩ := addFinish_of_mem h hnow
          exact ⟨state₁, hstep, hcounted⟩
        · exact ⟨state, by rw [addFinish, if_neg hnow], h⟩
      rw [List.foldlM_cons, hstep, Option.bind_eq_bind, Option.bind_some]
      exact ih hcounted

theorem counted_of_foldlM_addFinish {ids : List ID}
    (h : ids.foldlM (addFinish clusterRanks) state = some state')
    (hcounted : state'.RanksCounted clusterRanks) : state.RanksCounted clusterRanks := by
  induction ids generalizing state with
  | nil => exact Option.some.inj h ▸ hcounted
  | cons c ids ih =>
      rw [List.foldlM_cons, Option.bind_eq_bind, Option.bind_eq_some_iff] at h
      obtain ⟨state₁, hstep, hrest⟩ := h
      exact counted_of_addFinish hstep (ih hrest)

/-- An Update leaves the counter right, and does not look for a rank that is missing, exactly if its
`now` is balanced: the loop over `message.finish` neither repairs nor breaks anything. -/
theorem applyUpdate_counted_iff (h : state.RanksCounted clusterRanks) :
    (∃ state', state.applyUpdate clusterRanks message = some state' ∧
      state'.RanksCounted clusterRanks) ↔ state.BalancedNow clusterRanks message := by
  rw [← beforeFinish_counted_iff h]
  constructor
  · rintro ⟨state', happly, hcounted⟩
    simp only [applyUpdate, Option.map_eq_some_iff] at happly
    obtain ⟨state₁, hfinish, rfl⟩ := happly
    exact counted_of_foldlM_addFinish hfinish hcounted
  · intro hcounted
    obtain ⟨state', hfinish, hcounted'⟩ := foldlM_addFinish_counted message.finish hcounted
    exact ⟨{ state' with initialized := true }, by
      simp only [beforeFinish] at hfinish
      simp only [applyUpdate, hfinish, Option.map_some], hcounted'⟩

end TransactionState

theorem Consecutive.handleMessage_counted_iff (h : Consecutive states)
    (hcounted : ∀ state ∈ states, state.RanksCounted clusterRanks) (m : PlannerMessage) :
    (∃ states', handleMessage clusterRanks states m = some states' ∧
        ∀ state ∈ states', state.RanksCounted clusterRanks) ↔
      ∀ message, m = .updateTransaction message → ∀ state ∈ states,
        state.transactionId = message.transactionId → state.BalancedNow clusterRanks message := by
  cases m with
  | startTransaction T =>
      simp only [reduceCtorEq, false_implies, implies_true, iff_true]
      obtain ⟨added, happend, -, hnew⟩ := handleStartMessage_append T h
      refine ⟨_, congrArg some happend, fun state hstate => ?_⟩
      rcases List.mem_append.mp hstate with hmem | hmem
      · exact hcounted state hmem
      · rw [(hnew state hmem).1]
        exact TransactionState.new_counted _
  | finishTransaction T =>
      simp only [reduceCtorEq, false_implies, implies_true, iff_true]
      exact ⟨_, rfl, fun state hstate => hcounted state (mem_of_mem_handleFinishMessage hstate)⟩
  | updateTransaction message =>
      simp only [PlannerMessage.updateTransaction.injEq, forall_eq']
      rcases h.handleUpdateMessage_cases clusterRanks message with
        ⟨i, state, hstate, hmem, hid, heq⟩ | ⟨hid, heq⟩
      · obtain ⟨hi, -⟩ := List.getElem?_eq_some_iff.mp hstate
        have hupdate : (∃ states', handleMessage clusterRanks states (.updateTransaction message) =
              some states' ∧ ∀ state ∈ states', state.RanksCounted clusterRanks) ↔
            ∃ state', state.applyUpdate clusterRanks message = some state' ∧
              state'.RanksCounted clusterRanks := by
          simp only [Prf.handleMessage, heq, Option.map_eq_some_iff]
          constructor
          · rintro ⟨states', ⟨state', happly, rfl⟩, hcounted'⟩
            exact ⟨state', happly, hcounted' state' (List.mem_set hi state')⟩
          · rintro ⟨state', happly, hcounted'⟩
            refine ⟨_, ⟨state', happly, rfl⟩, fun other hother => ?_⟩
            rcases List.mem_or_eq_of_mem_set hother with hother | rfl
            · exact hcounted other hother
            · exact hcounted'
        rw [hupdate, TransactionState.applyUpdate_counted_iff (hcounted state hmem)]
        constructor
        · intro hbalanced other hother hid'
          rwa [h.eq_of_transactionId hother hmem (hid'.trans hid.symm)]
        · exact fun hbalanced => hbalanced state hmem hid
      · refine iff_of_true ⟨states, heq, hcounted⟩ ?_
        exact fun state hmem heq => absurd heq (hid state hmem)

/-- After every message of a run the counters are right and no lookup has missed a rank exactly if
every Update of the run has a balanced `now`. -/
theorem ranksCounted_iff_balancedNow (clusterRanks : ID → Rank) (messages : List PlannerMessage) :
    (∀ before, before <+: messages →
      ∃ states, before.foldlM (handleMessage clusterRanks) [] = some states ∧
        ∀ state ∈ states, state.RanksCounted clusterRanks) ↔
      ∀ before message after states, messages = before ++ .updateTransaction message :: after →
        before.foldlM (handleMessage clusterRanks) [] = some states →
          ∀ state ∈ states, state.transactionId = message.transactionId →
            state.BalancedNow clusterRanks message := by
  constructor
  · rintro hall before message after states rfl hrun
    obtain ⟨states₀, hrun₀, hcounted⟩ := hall before (List.prefix_append _ _)
    obtain rfl := Option.some.inj (hrun.symm.trans hrun₀)
    obtain ⟨states', hrun', hcounted'⟩ := hall (before ++ [.updateTransaction message]) (by simp)
    rw [foldlM_handleMessage_concat, hrun, Option.bind_some] at hrun'
    exact ((consecutive_of_run before hrun).1.handleMessage_counted_iff hcounted _).mp
      ⟨states', hrun', hcounted'⟩ message rfl
  · intro hbalanced before
    induction before using List.reverseRecOn with
    | nil => exact fun _ => ⟨[], rfl, by simp⟩
    | append_singleton before m ih =>
        rintro ⟨after, rfl⟩
        obtain ⟨states, hrun, hcounted⟩ := ih (by simp)
        obtain ⟨states', hstep, hcounted'⟩ :=
          ((consecutive_of_run before hrun).1.handleMessage_counted_iff hcounted m).mpr
            fun message hm => hbalanced before message after states (by simp [hm]) hrun
        exact ⟨states', by rw [foldlM_handleMessage_concat, hrun, Option.bind_some, hstep],
          hcounted'⟩

/-- A `now` for a cluster that was not announced, and then its `finish`: the lookup of its rank
yields `end()`. -/
theorem not_ranksCounted_unannounced :
    ¬ ∀ (clusterRanks : ID → Rank) (messages before : List PlannerMessage), before <+: messages →
      ∃ states, before.foldlM (handleMessage clusterRanks) [] = some states ∧
        ∀ state ∈ states, state.RanksCounted clusterRanks := by
  intro hall
  obtain ⟨states, hrun, -⟩ := hall (fun _ => Rank.zero) _
    [.startTransaction 1, .updateTransaction ⟨1, [1], [], []⟩, .updateTransaction ⟨1, [], [], [1]⟩]
    (List.prefix_refl _)
  have hnone : [PlannerMessage.startTransaction 1, .updateTransaction ⟨1, [1], [], []⟩,
      .updateTransaction ⟨1, [], [], [1]⟩].foldlM (handleMessage fun _ => Rank.zero) [] = none := by
    rfl
  rw [hnone] at hrun
  cases hrun

end Prf
