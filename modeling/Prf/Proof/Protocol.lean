import Prf.Protocol

/-!
# What every state of the protocol satisfies

The two queues only ever hold messages that can be acted on, a cluster is in at most one of the
places between its discovery and the end of its task, and a transaction that is finalised has no
work left. The proposals of a planner come from a delayed view; they are acted on safely because
what makes them right is stable.
-/

namespace Prf.Protocol

def registration? : ExecutorMessage → Option ID
  | .registerTransaction T => some T
  | _ => none

/-- No second execution of a transaction, and no registration after its execution. -/
def ClearOf (m m' : ExecutorMessage) : Prop :=
  ∀ T, m = .transactionExecute T → m' ≠ .transactionExecute T ∧ m' ≠ .registerTransaction T

structure Queues (first : ID) (s : State) : Prop where
  first_le : first ≤ s.oldest
  oldest_le : s.oldest ≤ s.registered
  registered_le : s.registered ≤ s.next
  registrations : s.executorMessages.filterMap registration? =
    List.range' s.registered (s.next - s.registered)
  executes : s.executorMessages.Pairwise ClearOf
  execute_waits : ∀ T, .transactionExecute T ∈ s.executorMessages →
    T ∈ s.committed ∧ T ∉ s.transactions ∧ s.oldest ≤ T
  committed : ∀ T ∈ s.committed, first ≤ T ∧ T < s.next ∧
    (T < s.oldest ∨ T ∈ s.transactions ∨ .transactionExecute T ∈ s.executorMessages)
  transactions : ∀ T ∈ s.transactions, s.oldest ≤ T ∧ T < s.registered ∧ T ∈ s.committed
  finalized : ∀ T, first ≤ T → T < s.oldest → T ∈ s.committed

structure Tasks (edge : ID → ID → Prop) (first : ID) (s : State) : Prop where
  updatings : ∀ T c, c ∈ s.updatings T ↔ T ∈ s.transactions ∧ s.phase T c ≠ none
  phase_key : ∀ T c phase, s.phase T c = some phase → c ∈ s.keys T ∧ T ∈ s.committed ∧
    (T ∈ s.transactions ∨ T < s.oldest ∧ phase = .finished)
  futures_key : ∀ T c, ∀ d ∈ s.futures T c, d ∈ s.keys T ∧ s.phase T d = none ∧ edge c d
  futures_disjoint : ∀ T c c' d, d ∈ s.futures T c → d ∈ s.futures T c' → c = c'
  done : ∀ T, first ≤ T → T < s.oldest → ∀ c ∈ s.keys T, s.phase T c = some .finished

/-- The planner may propose the cluster: it is a target and no task keeps it to itself. -/
def State.Announced (s : State) (T c : ID) : Prop :=
  c ∈ s.keys T ∧ ∀ c', c ∉ s.futures T c'

def State.Offered (s : State) (T c : ID) : Prop :=
  (T < s.oldest ∨ T ∈ s.transactions) ∧ s.Announced T c

def State.Closed (first : ID) (s : State) (T : ID) : Prop :=
  first ≤ T ∧ (T < s.oldest ∨
    T = s.oldest ∧ T ∈ s.transactions ∧ ∀ c ∈ s.keys T, s.phase T c = some .finished)

def State.Proposal (first : ID) (s : State) : ExecutorMessage → Prop
  | .startUpdateCluster T c => s.Offered T c
  | .finalizeTransaction T => s.Closed first T
  | _ => False

structure Offers (first : ID) (s : State) : Prop where
  start : ∀ T c, .startUpdateCluster T c ∈ s.executorMessages → s.Offered T c
  finalize : ∀ T, .finalizeTransaction T ∈ s.executorMessages → s.Closed first T
  pushed : ∀ pass, s.planner.runningPlanner = some pass →
    ∀ message ∈ pass.pushes, s.Proposal first message

variable {planner : Planner} {clusterRanks : ID → Rank} {edge : ID → ID → Prop} {first : ID}
  {s s' : State}

/-! ## The queue of the `Executor` -/

theorem Offers.front_proposal (h : Offers first s) {pass : Pass} {message : ExecutorMessage}
    {rest : List ExecutorMessage} (hrunning : s.planner.runningPlanner = some pass)
    (hfront : pass.pushes = message :: rest) : s.Proposal first message := by
  apply h.pushed pass hrunning
  simp [hfront]

namespace Queues

/-- Only the oldest transaction is ever finalised. -/
theorem finalize_oldest (h : Queues first s) (ho : Offers first s) {T : ID}
    {rest : List ExecutorMessage}
    (hfront : s.executorMessages = .finalizeTransaction T :: rest) (hrunning : T ∈ s.transactions) :
    T = s.oldest := by
  obtain ⟨-, hlt | ⟨hT, -⟩⟩ := ho.finalize T (by simp [hfront])
  · exact absurd hlt (not_lt.mpr (h.transactions T hrunning).1)
  · exact hT

theorem register_front (h : Queues first s) {T : ID} {rest : List ExecutorMessage}
    (hfront : s.executorMessages = .registerTransaction T :: rest) :
    T = s.registered ∧ s.registered < s.next ∧
      rest.filterMap registration? =
        List.range' (s.registered + 1) (s.next - (s.registered + 1)) := by
  have hregistrations := h.registrations
  rw [hfront, List.filterMap_cons_some (b := T) (by rfl)] at hregistrations
  cases hcount : s.next - s.registered with
  | zero => simp [hcount] at hregistrations
  | succ count =>
      rw [hcount, List.range'_succ, List.cons.injEq] at hregistrations
      have hnext : s.next - (s.registered + 1) = count := by lia
      rw [hnext]
      exact ⟨hregistrations.1, by lia, hregistrations.2⟩

theorem registrations_tail (h : Queues first s) {message : ExecutorMessage}
    {rest : List ExecutorMessage} (hfront : s.executorMessages = message :: rest)
    (hmessage : registration? message = none) :
    rest.filterMap registration? = List.range' s.registered (s.next - s.registered) := by
  have hregistrations := h.registrations
  rwa [hfront, List.filterMap_cons_none hmessage] at hregistrations

theorem executes_front (h : Queues first s) {message : ExecutorMessage}
    {rest : List ExecutorMessage} (hfront : s.executorMessages = message :: rest) :
    (∀ message' ∈ rest, ClearOf message message') ∧ rest.Pairwise ClearOf := by
  have hexecutes := h.executes
  rwa [hfront, List.pairwise_cons] at hexecutes

theorem execute_front (h : Queues first s) {T : ID} {rest : List ExecutorMessage}
    (hfront : s.executorMessages = .transactionExecute T :: rest) : T < s.registered := by
  have hmem : ExecutorMessage.transactionExecute T ∈ s.executorMessages := by simp [hfront]
  have hnext := (h.committed T (h.execute_waits T hmem).1).2.1
  by_contra hle
  have hrange : T ∈ rest.filterMap registration? := by
    rw [h.registrations_tail hfront rfl, List.mem_range'_1]
    lia
  obtain ⟨message, hin, hmessage⟩ := List.mem_filterMap.mp hrange
  have hclear := (h.executes_front hfront).1 message hin T rfl
  cases message <;> simp_all [registration?]

theorem open_waits (h : Queues first s) {T : ID} (hopen : s.IsOpen first T) :
    T ∉ s.transactions ∧ s.oldest ≤ T := by
  obtain ⟨hfirst, -, hcommitted⟩ := hopen
  refine ⟨fun hT => hcommitted (h.transactions T hT).2.2, ?_⟩
  by_contra hlt
  exact hcommitted (h.finalized T hfirst (not_le.mp hlt))

/-! One field at a time. -/

theorem registrations_move (h : Queues first s) (ho : Offers first s)
    (hmove : Move planner clusterRanks edge first s s') :
    s'.executorMessages.filterMap registration? =
      List.range' s'.registered (s'.next - s'.registered) := by
  cases hmove
  case register =>
    have hle := h.registered_le
    have hnext : s.next + 1 - s.registered = s.next - s.registered + 1 := by lia
    have hlast : s.registered + (s.next - s.registered) = s.next := by lia
    simp [h.registrations, hnext, List.range'_concat, hlast, registration?]
  case commit =>
    rw [List.filterMap_append, h.registrations]
    simp [registration?]
  case handleRegister hfront => exact (h.register_front hfront).2.2
  case handleExecute hfront => exact h.registrations_tail hfront rfl
  case skipStart hfront _ => exact h.registrations_tail hfront rfl
  case start hfront _ _ => exact h.registrations_tail hfront rfl
  case skipFinalize hfront _ => exact h.registrations_tail hfront rfl
  case finalize hfront _ => exact h.registrations_tail hfront rfl
  case push pass message rest hrunning hfront =>
    have hproposal := ho.front_proposal hrunning hfront
    rw [List.filterMap_append, h.registrations]
    cases message <;> simp_all [registration?, State.Proposal]
  all_goals exact h.registrations

theorem executes_move (h : Queues first s) (ho : Offers first s)
    (hmove : Move planner clusterRanks edge first s s') :
    s'.executorMessages.Pairwise ClearOf := by
  cases hmove
  case register =>
    refine List.pairwise_append.mpr ⟨h.executes, List.pairwise_singleton _ _, ?_⟩
    intro message hin message' hin' T hT
    subst hT
    rw [List.mem_singleton.mp hin']
    have hlt := (h.committed T (h.execute_waits T hin).1).2.1
    simp [hlt.ne']
  case commit T hopen =>
    refine List.pairwise_append.mpr ⟨h.executes, List.pairwise_singleton _ _, ?_⟩
    intro message hin message' hin' T' hT'
    subst hT'
    rw [List.mem_singleton.mp hin']
    have hcommitted := (h.execute_waits T' hin).1
    simp only [ne_eq, ExecutorMessage.transactionExecute.injEq, reduceCtorEq, not_false_eq_true,
      and_true]
    rintro rfl
    exact hopen.2.2 hcommitted
  case push pass message rest hrunning hfront =>
    have hproposal := ho.front_proposal hrunning hfront
    refine List.pairwise_append.mpr ⟨h.executes, List.pairwise_singleton _ _, ?_⟩
    intro message₁ _ message₂ hin T _
    rw [List.mem_singleton.mp hin]
    cases message <;> simp_all [State.Proposal]
  case handleRegister hfront => exact (h.executes_front hfront).2
  case handleExecute hfront => exact (h.executes_front hfront).2
  case skipStart hfront _ => exact (h.executes_front hfront).2
  case start hfront _ _ => exact (h.executes_front hfront).2
  case skipFinalize hfront _ => exact (h.executes_front hfront).2
  case finalize hfront _ => exact (h.executes_front hfront).2
  all_goals exact h.executes

theorem execute_waits_move (h : Queues first s) (ho : Offers first s)
    (hmove : Move planner clusterRanks edge first s s') :
    ∀ T, .transactionExecute T ∈ s'.executorMessages →
      T ∈ s'.committed ∧ T ∉ s'.transactions ∧ s'.oldest ≤ T := by
  cases hmove
  case register => exact fun T hT => h.execute_waits T (by simpa using hT)
  case commit T hopen =>
    intro T' hT'
    rcases List.mem_append.mp hT' with hin | hin
    · obtain ⟨hcommitted, hrest⟩ := h.execute_waits T' hin
      exact ⟨Finset.mem_insert_of_mem hcommitted, hrest⟩
    · obtain rfl : T' = T := by simpa using hin
      exact ⟨Finset.mem_insert_self _ _, h.open_waits hopen⟩
  case push pass message rest hrunning hfront =>
    intro T hT
    have hproposal := ho.front_proposal hrunning hfront
    rcases List.mem_append.mp hT with hin | hin
    · exact h.execute_waits T hin
    · rw [← List.mem_singleton.mp hin] at hproposal
      exact hproposal.elim
  case handleExecute T rest hfront =>
    intro T' hT'
    obtain ⟨hcommitted, hwaits, hle⟩ := h.execute_waits T' (by simp [hfront, hT'])
    have hclear := (h.executes_front hfront).1 _ hT' T rfl
    refine ⟨hcommitted, ?_, hle⟩
    simp only [Finset.mem_insert, not_or]
    exact ⟨fun heq => hclear.1 (by rw [heq]), hwaits⟩
  case finalize T rest hfront hrunning =>
    intro T' hT'
    obtain ⟨hcommitted, hwaits, hle⟩ := h.execute_waits T' (by simp [hfront, hT'])
    have holdest := h.finalize_oldest ho hfront hrunning
    refine ⟨hcommitted, fun hin => hwaits (Finset.mem_of_mem_erase hin), ?_⟩
    have hne : T' ≠ T := fun heq => hwaits (heq ▸ hrunning)
    lia
  case handleRegister hfront => exact fun T hT => h.execute_waits T (by simp [hfront, hT])
  case skipStart hfront _ => exact fun T hT => h.execute_waits T (by simp [hfront, hT])
  case start hfront _ _ => exact fun T hT => h.execute_waits T (by simp [hfront, hT])
  case skipFinalize hfront _ => exact fun T hT => h.execute_waits T (by simp [hfront, hT])
  all_goals exact h.execute_waits

theorem committed_move (h : Queues first s) (ho : Offers first s)
    (hmove : Move planner clusterRanks edge first s s') :
    ∀ T ∈ s'.committed, first ≤ T ∧ T < s'.next ∧
      (T < s'.oldest ∨ T ∈ s'.transactions ∨ .transactionExecute T ∈ s'.executorMessages) := by
  have hpop : ∀ {message : ExecutorMessage} {rest : List ExecutorMessage},
      s.executorMessages = message :: rest → (∀ T, message ≠ .transactionExecute T) →
      ∀ T ∈ s.committed, first ≤ T ∧ T < s.next ∧
        (T < s.oldest ∨ T ∈ s.transactions ∨ .transactionExecute T ∈ rest) := by
    intro message rest hfront hmessage T hT
    obtain ⟨hfirst, hnext, hwhere⟩ := h.committed T hT
    refine ⟨hfirst, hnext, ?_⟩
    rw [hfront, List.mem_cons] at hwhere
    rcases hwhere with hlt | hin | heq | hin
    · exact .inl hlt
    · exact .inr (.inl hin)
    · exact absurd heq.symm (hmessage T)
    · exact .inr (.inr hin)
  cases hmove
  case register =>
    intro T hT
    obtain ⟨hfirst, hnext, hwhere⟩ := h.committed T hT
    exact ⟨hfirst, by simp only; lia, by simpa using hwhere⟩
  case commit T hopen =>
    intro T' hT'
    rcases Finset.mem_insert.mp hT' with rfl | hin
    · exact ⟨hopen.1, hopen.2.1, .inr (.inr (by simp))⟩
    · obtain ⟨hfirst, hnext, hwhere⟩ := h.committed T' hin
      refine ⟨hfirst, hnext, ?_⟩
      simp only [List.mem_append]
      tauto
  case push =>
    intro T hT
    obtain ⟨hfirst, hnext, hwhere⟩ := h.committed T hT
    refine ⟨hfirst, hnext, ?_⟩
    simp only [List.mem_append]
    tauto
  case handleExecute T rest hfront =>
    intro T' hT'
    obtain ⟨hfirst, hnext, hwhere⟩ := h.committed T' hT'
    refine ⟨hfirst, hnext, ?_⟩
    simp only [hfront, List.mem_cons, ExecutorMessage.transactionExecute.injEq] at hwhere
    simp only [Finset.mem_insert]
    tauto
  case finalize T rest hfront hrunning =>
    intro T' hT'
    obtain ⟨hfirst, hnext, hwhere⟩ := hpop hfront (by simp) T' hT'
    refine ⟨hfirst, hnext, ?_⟩
    have holdest := h.finalize_oldest ho hfront hrunning
    rcases hwhere with hlt | hin | hin
    · exact .inl (Nat.lt_succ_of_lt hlt)
    · by_cases heq : T' = T
      · exact .inl (by simp only; lia)
      · exact .inr (.inl (Finset.mem_erase.mpr ⟨heq, hin⟩))
    · exact .inr (.inr hin)
  case handleRegister hfront => exact hpop hfront (by simp)
  case skipStart hfront _ => exact hpop hfront (by simp)
  case start hfront _ _ => exact hpop hfront (by simp)
  case skipFinalize hfront _ => exact hpop hfront (by simp)
  all_goals exact h.committed

theorem transactions_move (h : Queues first s) (ho : Offers first s)
    (hmove : Move planner clusterRanks edge first s s') :
    ∀ T ∈ s'.transactions, s'.oldest ≤ T ∧ T < s'.registered ∧ T ∈ s'.committed := by
  cases hmove
  case commit =>
    intro T hT
    obtain ⟨hle, hlt, hcommitted⟩ := h.transactions T hT
    exact ⟨hle, hlt, Finset.mem_insert_of_mem hcommitted⟩
  case handleRegister =>
    intro T hT
    obtain ⟨hle, hlt, hcommitted⟩ := h.transactions T hT
    exact ⟨hle, Nat.lt_succ_of_lt hlt, hcommitted⟩
  case handleExecute T rest hfront =>
    intro T' hT'
    rcases Finset.mem_insert.mp hT' with rfl | hin
    · obtain ⟨hcommitted, -, hle⟩ := h.execute_waits T' (by simp [hfront])
      exact ⟨hle, h.execute_front hfront, hcommitted⟩
    · exact h.transactions T' hin
  case finalize T rest hfront hrunning =>
    intro T' hT'
    obtain ⟨hne, hin⟩ := Finset.mem_erase.mp hT'
    obtain ⟨hle, hlt, hcommitted⟩ := h.transactions T' hin
    have holdest := h.finalize_oldest ho hfront hrunning
    exact ⟨by simp only; lia, hlt, hcommitted⟩
  all_goals exact h.transactions

theorem finalized_move (h : Queues first s) (ho : Offers first s)
    (hmove : Move planner clusterRanks edge first s s') :
    ∀ T, first ≤ T → T < s'.oldest → T ∈ s'.committed := by
  cases hmove
  case commit => exact fun T hfirst hlt => Finset.mem_insert_of_mem (h.finalized T hfirst hlt)
  case finalize T rest hfront hrunning =>
    intro T' hfirst hlt
    by_cases heq : T' = T
    · exact heq ▸ (h.transactions T hrunning).2.2
    · have holdest := h.finalize_oldest ho hfront hrunning
      exact h.finalized T' hfirst (by simp only at hlt; lia)
  all_goals exact h.finalized

theorem bounds_move (h : Queues first s) (ho : Offers first s)
    (hmove : Move planner clusterRanks edge first s s') :
    first ≤ s'.oldest ∧ s'.oldest ≤ s'.registered ∧ s'.registered ≤ s'.next := by
  have hbounds : first ≤ s.oldest ∧ s.oldest ≤ s.registered ∧ s.registered ≤ s.next :=
    ⟨h.first_le, h.oldest_le, h.registered_le⟩
  cases hmove
  case register => exact ⟨hbounds.1, hbounds.2.1, Nat.le_succ_of_le hbounds.2.2⟩
  case handleRegister hfront =>
    exact ⟨hbounds.1, Nat.le_succ_of_le hbounds.2.1, (h.register_front hfront).2.1⟩
  case finalize T rest hfront hrunning =>
    have holdest := h.finalize_oldest ho hfront hrunning
    have hlt := (h.transactions T hrunning).2.1
    exact ⟨Nat.le_succ_of_le hbounds.1, by simp only; lia, hbounds.2.2⟩
  all_goals exact hbounds

theorem move (h : Queues first s) (ho : Offers first s)
    (hmove : Move planner clusterRanks edge first s s') : Queues first s' where
  first_le := (h.bounds_move ho hmove).1
  oldest_le := (h.bounds_move ho hmove).2.1
  registered_le := (h.bounds_move ho hmove).2.2
  registrations := h.registrations_move ho hmove
  executes := h.executes_move ho hmove
  execute_waits := h.execute_waits_move ho hmove
  committed := h.committed_move ho hmove
  transactions := h.transactions_move ho hmove
  finalized := h.finalized_move ho hmove

end Queues

/-! ## Tasks -/

namespace Tasks

theorem running (h : Tasks edge first s) {T c : ID} {phase : Phase}
    (htask : s.phase T c = some phase) (hphase : phase ≠ .finished) : T ∈ s.transactions := by
  obtain ⟨-, -, hrunning | ⟨-, hfinished⟩⟩ := h.phase_key T c phase htask
  · exact hrunning
  · exact absurd hfinished hphase

theorem phase_none (h : Tasks edge first s) {T c : ID} (hc : c ∉ s.keys T) :
    s.phase T c = none := by
  by_contra hsome
  obtain ⟨phase, htask⟩ := Option.ne_none_iff_exists'.mp hsome
  exact hc (h.phase_key T c phase htask).1

theorem phase_none_of_waits (h : Tasks edge first s) {T : ID} (hT : T ∉ s.transactions)
    (hle : s.oldest ≤ T) (c : ID) : s.phase T c = none := by
  by_contra hsome
  obtain ⟨phase, htask⟩ := Option.ne_none_iff_exists'.mp hsome
  obtain ⟨-, -, hin | ⟨hlt, -⟩⟩ := h.phase_key T c phase htask
  · exact hT hin
  · exact absurd hlt (not_lt.mpr hle)

theorem updatings_move (h : Tasks edge first s) (hq : Queues first s)
    (hmove : Move planner clusterRanks edge first s s') :
    ∀ T c, c ∈ s'.updatings T ↔ T ∈ s'.transactions ∧ s'.phase T c ≠ none := by
  have hupdatings := h.updatings
  cases hmove
  case handleExecute T rest hfront =>
    obtain ⟨-, hwaits, hle⟩ := hq.execute_waits T (by simp [hfront])
    have hnone := h.phase_none_of_waits hwaits hle
    intro T' c
    simp only [Finset.mem_insert]
    grind
  case start | finalize | announce | generate | collect | buffer | finish =>
    intro T' c'
    simp only [setPhase, Function.update_apply]
    grind
  all_goals exact hupdatings

theorem phase_key_move (h : Tasks edge first s) (hq : Queues first s) (ho : Offers first s)
    (hmove : Move planner clusterRanks edge first s s') :
    ∀ T c phase, s'.phase T c = some phase → c ∈ s'.keys T ∧ T ∈ s'.committed ∧
      (T ∈ s'.transactions ∨ T < s'.oldest ∧ phase = .finished) := by
  have hkey := h.phase_key
  cases hmove
  case register =>
    intro T c phase htask
    obtain ⟨hin, hcommitted, hwhere⟩ := hkey T c phase htask
    have hne := (hq.committed T hcommitted).2.1.ne
    exact ⟨by simpa [Function.update_of_ne hne] using hin, hcommitted, hwhere⟩
  case send | commit | handleExecute =>
    simp only [Function.update_apply]
    grind
  case start T c rest hfront hrunning hfresh =>
    have hoffered := ho.start T c (by simp [hfront])
    have hcommitted := (hq.transactions T hrunning).2.2
    simp only [setPhase]
    intro T' c' phase htask
    split at htask
    · rename_i heq
      obtain ⟨rfl, rfl⟩ := heq
      exact ⟨hoffered.2.1, hcommitted, .inl hrunning⟩
    · exact hkey T' c' phase htask
  case finalize T rest hfront hrunning =>
    have holdest := hq.finalize_oldest ho hfront hrunning
    obtain ⟨-, hclosed⟩ := ho.finalize T (by simp [hfront])
    simp only
    grind
  case announce | generate | collect | buffer | finish =>
    simp only [setPhase, Function.update_apply]
    grind
  all_goals exact hkey

theorem futures_key_move (h : Tasks edge first s) (hq : Queues first s) (ho : Offers first s)
    (hmove : Move planner clusterRanks edge first s s') :
    ∀ T c, ∀ d ∈ s'.futures T c, d ∈ s'.keys T ∧ s'.phase T d = none ∧ edge c d := by
  have hkey := h.phase_key
  have hfutures := h.futures_key
  simp only [State.futures] at hfutures ⊢
  cases hmove
  case register =>
    intro T c d hd
    obtain ⟨hin, hrest⟩ := hfutures T c d hd
    have hsome : s.phase T c ≠ none := fun hnone => by simp [hnone] at hd
    obtain ⟨phase, htask⟩ := Option.ne_none_iff_exists'.mp hsome
    have hne := (hq.committed T (hkey T c phase htask).2.1).2.1.ne
    exact ⟨by simpa [Function.update_of_ne hne] using hin, hrest⟩
  case send =>
    simp only [Function.update_apply]
    grind
  case start T c rest hfront hrunning hfresh =>
    have hannounced := (ho.start T c (by simp [hfront])).2.2
    simp only [State.futures] at hannounced
    simp only [setPhase]
    grind [Phase.futures]
  case collect =>
    have hnone := @h.phase_none
    simp only [setPhase, Function.update_apply]
    grind [Phase.futures]
  case announce | generate | buffer | finish =>
    simp only [setPhase, Function.update_apply]
    grind [Phase.futures]
  all_goals exact hfutures

theorem futures_disjoint_move (h : Tasks edge first s)
    (hmove : Move planner clusterRanks edge first s s') :
    ∀ T c c' d, d ∈ s'.futures T c → d ∈ s'.futures T c' → c = c' := by
  have hkey := h.futures_key
  have hdisjoint := h.futures_disjoint
  simp only [State.futures] at hkey hdisjoint ⊢
  cases hmove
  case start | announce | generate | collect | buffer | finish =>
    simp only [setPhase]
    grind [Phase.futures]
  all_goals exact hdisjoint

theorem done_move (h : Tasks edge first s) (hq : Queues first s) (ho : Offers first s)
    (hmove : Move planner clusterRanks edge first s s') :
    ∀ T, first ≤ T → T < s'.oldest → ∀ c ∈ s'.keys T, s'.phase T c = some .finished := by
  have hdone := h.done
  have holdest : ∀ T ∈ s.transactions, s.oldest ≤ T := fun T hT => (hq.transactions T hT).1
  have hrunning := @h.running
  cases hmove
  case register =>
    intro T hfirst hlt c hc
    have hnext : T ≠ s.next := (lt_of_lt_of_le hlt (hq.oldest_le.trans hq.registered_le)).ne
    simp only [Function.update_of_ne hnext] at hc
    exact hdone T hfirst hlt c hc
  case send T targets hopen =>
    intro T' hfirst hlt c hc
    have hne : T' ≠ T := (lt_of_lt_of_le hlt (hq.open_waits hopen).2).ne
    simp only [Function.update_of_ne hne] at hc
    exact hdone T' hfirst hlt c hc
  case finalize T rest hfront hrunning =>
    obtain ⟨-, hclosed⟩ := ho.finalize T (by simp [hfront])
    have hT := hq.finalize_oldest ho hfront hrunning
    simp only
    grind
  case start | announce | generate | collect | buffer | finish =>
    simp only [setPhase, Function.update_apply]
    grind
  all_goals exact hdone

theorem move (h : Tasks edge first s) (hq : Queues first s) (ho : Offers first s)
    (hmove : Move planner clusterRanks edge first s s') : Tasks edge first s' where
  updatings := h.updatings_move hq hmove
  phase_key := h.phase_key_move hq ho hmove
  futures_key := h.futures_key_move hq ho hmove
  futures_disjoint := h.futures_disjoint_move hmove
  done := h.done_move hq ho hmove

end Tasks

/-! ## Proposals stay valid -/

/-- The part of the invariant that does not speak of the planner's view. -/
structure Core (edge : ID → ID → Prop) (first : ID) (s : State) : Prop where
  queues : Queues first s
  tasks : Tasks edge first s
  offers : Offers first s

namespace Core

theorem offered_move (h : Core edge first s) (hmove : Move planner clusterRanks edge first s s')
    {T c : ID} (ht : s.Offered T c) : s'.Offered T c := by
  have hkey := h.tasks.phase_key
  obtain ⟨hwhere, hin, hfutures⟩ := ht
  simp only [State.futures] at hfutures
  simp only [State.Offered, State.Announced, State.futures]
  cases hmove
  case register =>
    have hnext : T ≠ s.next := by
      have hbounds := And.intro h.queues.oldest_le h.queues.registered_le
      have htransactions := h.queues.transactions T
      grind
    simpa [Function.update_of_ne hnext] using ⟨hwhere, hin, hfutures⟩
  case finalize T' rest hfront hrunning =>
    have hT := h.queues.finalize_oldest h.offers hfront hrunning
    simp only
    grind
  case send | handleExecute | start | announce | generate | collect | buffer | finish =>
    simp only [setPhase, Function.update_apply]
    grind [Phase.futures]
  all_goals exact ⟨hwhere, hin, hfutures⟩

theorem closed_move (h : Core edge first s) (hmove : Move planner clusterRanks edge first s s')
    {T : ID} (ht : s.Closed first T) : s'.Closed first T := by
  have hkey := h.tasks.phase_key
  have htransactions := h.queues.transactions
  obtain ⟨hfirst, hwhere⟩ := ht
  simp only [State.Closed]
  cases hmove
  case register =>
    have hbounds := And.intro h.queues.oldest_le h.queues.registered_le
    simp only [Function.update_apply]
    grind
  case send T' targets hopen =>
    have hwaits := h.queues.open_waits hopen
    simp only [Function.update_apply]
    grind
  case finalize T' rest hfront hrunning =>
    have hT := h.queues.finalize_oldest h.offers hfront hrunning
    simp only
    grind
  case start T' c rest hfront hrunning hfresh =>
    have hupdatings := h.tasks.updatings T' c
    have hoffered := h.offers.start T' c (by simp [hfront])
    simp only [setPhase]
    grind [State.Offered, State.Announced]
  case handleExecute | announce | generate | collect | buffer | finish =>
    simp only [setPhase, Function.update_apply]
    grind
  all_goals exact ⟨hfirst, hwhere⟩

theorem proposal_move (h : Core edge first s) (hmove : Move planner clusterRanks edge first s s')
    {message : ExecutorMessage} (ht : s.Proposal first message) : s'.Proposal first message := by
  cases message with
  | startUpdateCluster T c => exact h.offered_move hmove ht
  | finalizeTransaction T => exact h.closed_move hmove ht
  | transactionExecute T => exact ht
  | registerTransaction T => exact ht

theorem frozen_move (h : Core edge first s) (hmove : Move planner clusterRanks edge first s s')
    {T : ID} (hlt : T < s.oldest) : T < s'.oldest ∧ s'.keys T = s.keys T ∧ s'.phase T = s.phase T := by
  have holdest : ∀ T' ∈ s.transactions, T ≠ T' :=
    fun T' hT' => (hlt.trans_le (h.queues.transactions T' hT').1).ne
  have hrunning := @h.tasks.running
  cases hmove
  case register =>
    have hnext : T ≠ s.next := (hlt.trans_le (h.queues.oldest_le.trans h.queues.registered_le)).ne
    exact ⟨hlt, by simp [Function.update_of_ne hnext], rfl⟩
  case send T' targets hopen =>
    have hne : T ≠ T' := (hlt.trans_le (h.queues.open_waits hopen).2).ne
    exact ⟨hlt, by simp [Function.update_of_ne hne], rfl⟩
  case finalize => exact ⟨Nat.lt_succ_of_lt hlt, rfl, rfl⟩
  case start T' c rest hfront hrun hfresh =>
    exact ⟨hlt, rfl, by funext c'; simp [setPhase, holdest T' hrun]⟩
  case announce T' c htask | buffer T' c _ htask | finish T' c _ htask =>
    have hne := holdest T' (hrunning htask (by simp))
    exact ⟨hlt, rfl, by funext c'; simp [setPhase, hne]⟩
  case generate T' c htask | collect T' c _ htask _ =>
    have hne := holdest T' (hrunning htask (by simp))
    exact ⟨hlt, by simp [Function.update_of_ne hne], by funext c'; simp [setPhase, hne]⟩
  all_goals exact ⟨hlt, rfl, rfl⟩

end Core

end Prf.Protocol
