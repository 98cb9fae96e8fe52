import Prf.Proof.Termination
import Prf.Proof.UserThreads

/-!
# The user threads of a program

No two threads have the same `current_transaction`, and a transaction that is not done is always
somebody's, a thread's or a handler's. The steps of the threads keep this, on top of what one thread
knows and of what every state of the composed system keeps.
-/

namespace Prf

open State

variable {θ ι V : Type}

namespace Session

variable {G : Graph ι V} {planner : Planner} {first : ID} {s : Session θ ι V}

/-! ## All threads -/

def Building (first : ID) (u : UserThread ι V) : Prop :=
  u.transactions = [] ∧ u.handlers = [] ∧
    (u.point = .free ∧ u.currentTransaction = none ∨ u.currentTransaction = some first ∧
      (u.point = .invokesHooks ∨ u.point = .initializes first))

def PastBuild (G : Graph ι V) (u : UserThread ι V) : Prop :=
  u.point ≠ .invokesHooks ∧ u.point.endsBuild = false ∧
    ∀ x value, u.point = .sends x value → (G.primitive x).isSink = true

variable [DecidableEq ι]

structure Inv (planner : Planner) (G : Graph ι V) (first : ID) (s : Session θ ι V) : Prop where
  reached : Reached planner G first s.state
  thread : ∀ t, (s.thread t).WellFormed s.state
  distinct : ∀ t u T, (s.thread t).currentTransaction = some T →
    (s.thread u).currentTransaction = some T → t = u
  watched : ∀ T, first ≤ T → T < s.state.nextTransactionId → T ∉ s.alreadyDone →
    ∃ t, (s.thread t).Watches T
  alreadyDone : ∀ T, T ∈ s.alreadyDone ↔ T ∈ s.state.finalized
  built : s.built = true → first ∈ s.state.committed ∧ ∀ t, PastBuild G (s.thread t)
  unbuilt : s.built = false → ∀ t, Building first (s.thread t)

variable [DecidableEq θ]

theorem Inv.update (h : Inv planner G first s) (t : θ) {u : UserThread ι V} {state : State ι V}
    (hreached : Reached planner G first state) (hfinalized : state.finalized = s.state.finalized)
    (hnext : s.state.nextTransactionId ≤ state.nextTransactionId)
    (hcommitted : s.state.committed ⊆ state.committed)
    (hmine : ∀ T ∈ state.committed, T ∈ s.state.committed ∨
      (s.thread t).currentTransaction = some T)
    (hthread : u.WellFormed state)
    (hcurrent : ∀ T, u.currentTransaction = some T →
      (s.thread t).currentTransaction = some T ∨ s.state.nextTransactionId ≤ T)
    (hwatched : ∀ T ∉ s.alreadyDone, T < state.nextTransactionId →
      (s.thread t).Watches T ∨ s.state.nextTransactionId ≤ T →
      u.Watches T ∨ ∃ t' ≠ t, (s.thread t').Watches T)
    (hbuilt : s.built = true → PastBuild G u) (hunbuilt : s.built = false → Building first u) :
    Inv planner G first { s.setThread t u with state := state } := by
  have hother : ∀ {t'}, t' ≠ t → Function.update s.thread t u t' = s.thread t' :=
    fun hne => Function.update_of_ne hne _ _
  have hbuild : state.buildTransaction = s.state.buildTransaction := by
    obtain ⟨_, hsim⟩ := hreached.simulated
    obtain ⟨_, hsim'⟩ := h.reached.simulated
    rw [hsim.build, hsim'.build]
  refine ⟨hreached, fun t' => ?_, fun t' v T hT hv => ?_, fun T hfirst hlt hdone => ?_,
    fun T => by rw [hfinalized]; exact h.alreadyDone T,
    fun hs => ⟨hcommitted (h.built hs).1, fun t' => ?_⟩, fun hs t' => ?_⟩
  · by_cases heq : t' = t
    · subst heq
      simpa [setThread] using hthread
    · simp only [setThread, hother heq]
      refine (h.thread t').mono hbuild hnext hcommitted fun T hT hin => ?_
      exact (hmine T hin).resolve_right fun hmine => heq (h.distinct _ _ T hT hmine)
  · have hfresh : ∀ {t'} T, t' ≠ t → (s.thread t').currentTransaction = some T →
        u.currentTransaction ≠ some T := by
      intro t' T hne hT hu
      rcases hcurrent T hu with hold | hnew
      · exact hne (h.distinct _ _ T hT hold)
      · exact absurd ((h.thread t').bounds T hT).2 (not_lt.mpr hnew)
    by_cases ht : t' = t <;> by_cases hv' : v = t
    · rw [ht, hv']
    · subst ht
      simp only [setThread, Function.update_self, hother hv'] at hT hv
      exact absurd hT (hfresh T hv' hv)
    · subst hv'
      simp only [setThread, Function.update_self, hother ht] at hT hv
      exact absurd hv (hfresh T ht hT)
    · simp only [setThread, hother ht, hother hv'] at hT hv
      exact h.distinct _ _ T hT hv
  · have hwhere : u.Watches T ∨ ∃ t' ≠ t, (s.thread t').Watches T := by
      by_cases hold : T < s.state.nextTransactionId
      · obtain ⟨t', ht'⟩ := h.watched T hfirst hold hdone
        by_cases heq : t' = t
        · exact hwatched T hdone hlt (.inl (heq ▸ ht'))
        · exact .inr ⟨t', heq, ht'⟩
      · exact hwatched T hdone hlt (.inr (not_lt.mp hold))
    rcases hwhere with hu | ⟨t', hne, ht'⟩
    · exact ⟨t, by simpa [setThread] using hu⟩
    · exact ⟨t', by simpa [setThread, hother hne] using ht'⟩
  · by_cases heq : t' = t
    · subst heq
      simpa [setThread] using hbuilt hs
    · simpa [setThread, hother heq] using (h.built hs).2 t'
  · by_cases heq : t' = t
    · subst heq
      simpa [setThread] using hunbuilt hs
    · simpa [setThread, hother heq] using h.unbuilt hs t'

/-! ## What the state of the program allows -/

omit [DecidableEq θ] in
theorem Inv.isOpen (h : Inv planner G first s) {t : θ} {T : ID}
    (hT : (s.thread t).currentTransaction = some T)
    (hpoint : ¬ UserThread.Commits T (s.thread t).point) : s.state.IsOpen T :=
  ⟨((h.thread t).bounds T hT).1, ((h.thread t).bounds T hT).2,
    fun hin => hpoint (((h.thread t).committed T hT).mp hin)⟩

omit [DecidableEq θ] in
theorem Inv.fresh (h : Inv planner G first s) :
    s.state.buildTransaction = first ∧ first ≤ s.state.nextTransactionId ∧
      s.state.nextTransactionId ∉ s.state.committed := by
  obtain ⟨registered, hsim⟩ := h.reached.simulated
  have hqueues := hsim.inv.core.queues
  refine ⟨hsim.build, hqueues.first_le.trans (hqueues.oldest_le.trans hqueues.registered_le), ?_⟩
  exact fun hin => lt_irrefl _ (hqueues.committed _ hin).2.1

omit [DecidableEq θ] in
theorem Inv.ne_build (h : Inv planner G first s) (hbuilt : s.built = true) {T : ID}
    (hopen : s.state.IsOpen T) : T ≠ s.state.buildTransaction := by
  rintro rfl
  exact hopen.2.2 (h.fresh.1 ▸ (h.built hbuilt).1)

omit [DecidableEq θ] in
theorem Inv.built_of_object (h : Inv planner G first s) {t : θ}
    (hobject : (s.thread t).transactions ≠ [] ∨ (s.thread t).handlers ≠ []) : s.built = true := by
  by_contra hs
  obtain ⟨htransactions, hhandlers, -⟩ := h.unbuilt (by simpa using hs) t
  exact hobject.elim (absurd htransactions) (absurd hhandlers)

omit [DecidableEq θ] in
theorem Inv.commits (h : Inv planner G first s) {t : θ} {T : ID}
    (hT : (s.thread t).currentTransaction = some T)
    (hpoint : ¬ UserThread.Commits T (s.thread t).point)
    (hhooks : s.built = true ∨ s.state.afterBuildHooks = []) :
    Reached planner G first (s.state.commit T) := by
  have hopen := h.isOpen hT hpoint
  refine h.reached.tail (.commit hopen fun heq => ?_)
  rcases hhooks with hbuilt | hhooks
  · exact absurd heq (h.ne_build hbuilt hopen)
  · exact hhooks

/-! ## One step -/

theorem Inv.begin (h : Inv planner G first s) {t : θ} (hbuilt : s.built = true)
    (hnone : (s.thread t).currentTransaction = none) {point : UserPoint ι V}
    (hpoint : point = .free ∨ ∃ x value, point = .sends x value)
    (hsink : ∀ x value, point = .sends x value → (G.primitive x).isSink = true) :
    Inv planner G first (s.begin t point) := by
  obtain ⟨hbuild, hle, hnew⟩ := h.fresh
  refine h.update t (h.reached.tail .register) rfl (Nat.le_succ _) subset_rfl
    (fun T hT => .inl hT) ((h.thread t).constructed hnone (by exact ⟨rfl, rfl, rfl⟩)
      (hbuild ▸ hle) hnew hpoint)
    (fun T hT => .inr (Option.some.inj hT).le) (fun T _ hlt hwatched => .inl ?_) (fun _ => ?_) ?_
  · rcases hwatched with (hcurrent | hhandler) | hge
    · rw [hnone] at hcurrent
      cases hcurrent
    · exact .inr hhandler
    · exact .inl (congrArg some (le_antisymm hge (Nat.lt_succ_iff.mp hlt)))
  · exact ⟨by rcases hpoint with rfl | ⟨x, value, rfl⟩ <;> simp,
      by rcases hpoint with rfl | ⟨x, value, rfl⟩ <;> rfl, hsink⟩
  · simp [hbuilt]

theorem Inv.sendTo (h : Inv planner G first s) {t : θ} {T : ID} {x : ι} {value : V}
    {point : UserPoint ι V} (hbuilt : s.built = true)
    (hT : (s.thread t).currentTransaction = some T) (hsink : (G.primitive x).isSink = true)
    (hpoint : ¬ UserThread.Commits T (s.thread t).point)
    (hthread : UserThread.WellFormed s.state { s.thread t with point := point })
    (hpast : PastBuild G { s.thread t with point := point }) :
    Inv planner G first (s.sendTo G t T x value point) := by
  have hopen := h.isOpen hT hpoint
  refine h.update t (h.reached.tail (.send hopen (h.ne_build hbuilt hopen) hsink))
    (finalized_append rfl (by simp [Event.finalized?])) le_rfl subset_rfl (fun T hT => .inl hT)
    (hthread.mono rfl le_rfl subset_rfl fun _ _ hin => hin) (fun T hT => .inl hT)
    (fun T _ hlt hwatched => .inl ?_) (fun _ => hpast) (by simp [hbuilt])
  exact hwatched.resolve_right (not_le.mpr hlt)

theorem Inv.setThread (h : Inv planner G first s) {t : θ} {u : UserThread ι V}
    (hbuilt : s.built = true) (hthread : u.WellFormed s.state)
    (hcurrent : u.currentTransaction = (s.thread t).currentTransaction)
    (hhandlers : ∀ T, some T ∈ (s.thread t).handlers → T < s.state.nextTransactionId →
      some T ∈ u.handlers ∨ ∃ t' ≠ t, (s.thread t').Watches T)
    (hpast : PastBuild G u) : Inv planner G first (s.setThread t u) := by
  refine h.update t h.reached rfl le_rfl subset_rfl (fun T hT => .inl hT) hthread
    (fun T hT => .inl (hcurrent ▸ hT)) (fun T _ hlt hwatched => ?_) (fun _ => hpast) (by simp [hbuilt])
  rcases hwatched.resolve_right (not_le.mpr hlt) with hT | hT
  · exact .inl (.inl (hcurrent ▸ hT))
  · exact (hhandlers T hT hlt).imp .inr id

/-- `~Transaction` up to its wait. -/
theorem Inv.destruct (h : Inv planner G first s) {t : θ} {index : ℕ} {s' : Session θ ι V}
    (hpoint : (s.thread t).point = .free ∨
      (s.thread t).point = .sent ∧ ∃ T, (s.thread t).transactions[index]? = some (some T))
    (hstep : s.destruct t index = some s') : Inv planner G first s' := by
  simp only [Session.destruct] at hstep
  split at hstep
  · cases hstep
  · rename_i hindex
    obtain rfl := Option.some.inj hstep
    obtain ⟨hlt, hget⟩ := List.getElem?_eq_some_iff.mp hindex
    have hfree : (s.thread t).point = .free := by
      rcases hpoint with hfree | ⟨-, T, hT⟩
      · exact hfree
      · simp [hindex] at hT
    have hbuilt := h.built_of_object (.inl (List.ne_nil_of_mem (List.mem_of_getElem? hindex)))
    refine h.setThread hbuilt ((h.thread t).nested hfree (fun T hT => List.mem_of_mem_eraseIdx hT)
      ((List.eraseIdx_sublist _ _).countP_le)) rfl (fun T hT _ => .inl hT) ?_
    exact (h.built hbuilt).2 t
  · rename_i T hindex
    obtain rfl := Option.some.inj hstep
    have hmem := List.mem_of_getElem? hindex
    have hbuilt := h.built_of_object (.inl (List.ne_nil_of_mem hmem))
    have hT := (h.thread t).objects T hmem
    have hnot : ¬ UserThread.Commits T (s.thread t).point := by
      rcases hpoint with hfree | ⟨hsent, -⟩
      · simp [hfree, UserThread.Commits]
      · simp [hsent, UserThread.Commits]
    refine h.update t (h.commits hT hnot (.inl hbuilt)) rfl le_rfl (Finset.subset_insert _ _)
      (fun T' hT' => ?_) ((h.thread t).commits hT (by exact ⟨rfl, rfl, rfl⟩)
        (.inr ⟨index, hindex, rfl⟩)) (fun T hT => .inl hT)
      (fun T' _ hlt hwatched => .inl (hwatched.resolve_right (not_le.mpr hlt)))
      (fun _ => ⟨by simp, rfl, by simp⟩) (by simp [hbuilt])
    rcases Finset.mem_insert.mp hT' with rfl | hin
    · exact .inr hT
    · exact .inl hin

theorem Inv.getJoinHandler (h : Inv planner G first s) {t : θ} {index : ℕ} {T : ID}
    (hfree : (s.thread t).point = .free)
    (hindex : (s.thread t).transactions[index]? = some (some T)) :
    Inv planner G first { s.setThread t ((s.thread t).handedOver index T) with
      state := s.state.commit T } := by
  have hmem := List.mem_of_getElem? hindex
  have hbuilt := h.built_of_object (.inl (List.ne_nil_of_mem hmem))
  have hT := (h.thread t).objects T hmem
  refine h.update t (h.commits hT (by simp [hfree, UserThread.Commits]) (.inl hbuilt)) rfl le_rfl
    (Finset.subset_insert _ _) (fun T' hT' => ?_) ((h.thread t).handedOver hfree hindex rfl)
    (by simp [UserThread.handedOver]) (fun T' _ hlt hwatched => .inl ?_)
    (fun hs => (h.built hs).2 t) (by simp [hbuilt])
  · rcases Finset.mem_insert.mp hT' with rfl | hin
    · exact .inr hT
    · exact .inl hin
  · rcases hwatched.resolve_right (not_le.mpr hlt) with hcurrent | hhandler
    · obtain rfl := Option.some.inj (hT.symm.trans hcurrent)
      exact .inr (by simp [UserThread.handedOver])
    · exact .inr (by simp [UserThread.handedOver, hhandler])

theorem Inv.move (h : Inv planner G first s) {t u : θ} {index : ℕ} {message : Option ID}
    {s₁ : Session θ ι V} (htfree : (s.thread t).point = .free)
    (hindex : (s.thread t).handlers[index]? = some message)
    (hs₁ : s₁ = s.setThread t { s.thread t with
      handlers := (s.thread t).handlers.set index none }) :
    Inv planner G first (s₁.setThread u { s₁.thread u with
      handlers := (s₁.thread u).handlers ++ [message] }) := by
  have hmem := List.mem_of_getElem? hindex
  have hbuilt := h.built_of_object (.inr (List.ne_nil_of_mem hmem))
  have hpast := (h.built hbuilt).2
  have hset : ∀ {T}, some T ∈ (s.thread t).handlers.set index none → some T ∈ (s.thread t).handlers := by
    intro T hT
    rcases List.mem_or_eq_of_mem_set hT with hin | heq
    · exact hin
    · cases heq
  have hkept : ∀ {T}, some T ∈ (s.thread t).handlers →
      some T ∈ (s.thread t).handlers.set index none ∨ message = some T := by
    intro T hT
    obtain ⟨i, hi⟩ := List.mem_iff_getElem?.mp hT
    by_cases heq : i = index
    · subst heq
      exact .inr (Option.some.inj (hindex.symm.trans hi))
    · refine .inl (List.mem_of_getElem? (i := i) ?_)
      rw [List.getElem?_set_ne (Ne.symm heq), hi]
  by_cases htu : u = t
  · subst htu hs₁
    have hthread : UserThread.WellFormed s.state { s.thread u with
        handlers := (s.thread u).handlers.set index none ++ [message] } := by
      refine (h.thread u).withHandlers (fun T hT => ?_) (by simp [htfree])
      rcases List.mem_append.mp hT with hin | hin
      · exact (h.thread u).handlers T (hset hin)
      · exact (h.thread u).handlers T (List.mem_singleton.mp hin ▸ hmem)
    have hinv := h.setThread hbuilt hthread rfl (fun T hT _ => .inl ?_) (hpast u)
    · simpa [Session.setThread] using hinv
    · rcases hkept hT with hin | rfl <;> simp [*]
  · have hgiven : Inv planner G first (s.setThread u { s.thread u with
        handlers := (s.thread u).handlers ++ [message] }) := by
      refine h.setThread hbuilt ((h.thread u).withHandlers (fun T hT => ?_) fun i T hpoint => ?_) rfl
        (fun T hT _ => .inl (List.mem_append_left _ hT)) (hpast u)
      · rcases List.mem_append.mp hT with hin | hin
        · exact (h.thread u).handlers T hin
        · exact (h.thread t).handlers T (List.mem_singleton.mp hin ▸ hmem)
      · have hi := (h.thread u).drops i T hpoint
        rw [List.getElem?_append_left (List.getElem?_eq_some_iff.mp hi).1, hi]
    have hsame : (s.setThread u { s.thread u with
        handlers := (s.thread u).handlers ++ [message] }).thread t = s.thread t :=
      Function.update_of_ne (Ne.symm htu) _ _
    have hboth := hgiven.setThread (t := t) (u := { s.thread t with
        handlers := (s.thread t).handlers.set index none }) hbuilt
      ((h.thread t).withHandlers (fun T hT => (h.thread t).handlers T (hset hT)) (by simp [htfree]))
      (by rw [hsame]) (fun T hT _ => ?_) (hpast t)
    · subst hs₁
      simp only [Session.setThread, Function.update_of_ne htu]
      rw [Function.update_comm (Ne.symm htu)]
      exact hboth
    · rw [hsame] at hT
      rcases hkept hT with hin | rfl
      · exact .inl hin
      · exact .inr ⟨u, htu, .inr (by simp [Session.setThread])⟩

/-! ## The build -/

theorem Inv.build (h : Inv planner G first s) {t : θ}
    (hnone : (s.thread t).currentTransaction = none)
    (hfirst : s.state.nextTransactionId = s.state.buildTransaction) :
    Inv planner G first { s.setThread t { s.thread t with
        point := .invokesHooks
        currentTransaction := some s.state.nextTransactionId } with
      state := s.state.register } := by
  obtain ⟨hbuild, hle, hnew⟩ := h.fresh
  have hunbuilt : s.built = false := by
    by_contra hs
    have hcommitted := (h.built (by simpa using hs)).1
    rw [← hbuild, ← hfirst] at hcommitted
    exact hnew hcommitted
  obtain ⟨htransactions, hhandlers, -⟩ := h.unbuilt hunbuilt t
  refine h.update t (h.reached.tail .register) rfl (Nat.le_succ _) subset_rfl (fun T hT => .inl hT)
    ((h.thread t).builds htransactions (by exact ⟨rfl, rfl, rfl⟩) hfirst.ge hnew)
    (fun T hT => .inr (Option.some.inj hT).le) (fun T _ hlt hwatched => .inl ?_) (by simp [hunbuilt])
    fun _ => ⟨htransactions, hhandlers, .inr ⟨by simp [hfirst, hbuild], .inl rfl⟩⟩
  rcases hwatched with (hcurrent | hhandler) | hge
  · rw [hnone] at hcurrent
    cases hcurrent
  · simp [hhandlers] at hhandler
  · exact .inl (congrArg some (le_antisymm hge (Nat.lt_succ_iff.mp hlt)))

theorem Inv.endBuild (h : Inv planner G first s) {t : θ} {T : ID}
    (hpoint : (s.thread t).point = .invokesHooks)
    (hT : (s.thread t).currentTransaction = some T) (hhooks : s.state.afterBuildHooks = []) :
    Inv planner G first { s.setThread t { s.thread t with point := .initializes T } with
      state := s.state.commit T } := by
  have hunbuilt : s.built = false := by
    by_contra hs
    exact ((h.built (by simpa using hs)).2 t).1 hpoint
  obtain ⟨htransactions, hhandlers, hwhere⟩ := h.unbuilt hunbuilt t
  obtain rfl : T = first := by simpa [hpoint, hT] using hwhere
  refine h.update t (h.commits hT (by simp [hpoint, UserThread.Commits]) (.inr hhooks)) rfl le_rfl
    (Finset.subset_insert _ _) (fun T' hT' => ?_) ((h.thread t).commits hT (by exact ⟨rfl, rfl, rfl⟩)
      (.inl ⟨rfl, htransactions⟩)) (fun T hT => .inl hT)
    (fun T' _ hlt hwatched => .inl (hwatched.resolve_right (not_le.mpr hlt))) (by simp [hunbuilt])
    fun _ => ⟨htransactions, hhandlers, .inr ⟨hT, .inr rfl⟩⟩
  rcases Finset.mem_insert.mp hT' with rfl | hin
  · exact .inr hT
  · exact .inl hin

omit [DecidableEq θ] in
theorem Inv.afterBuildHook (h : Inv planner G first s) {t : θ} {T : ID} {x : ι} {value : V}
    {rest : List (ι × V)} (hpoint : (s.thread t).point = .invokesHooks)
    (hT : (s.thread t).currentTransaction = some T)
    (hhooks : s.state.afterBuildHooks = (x, value) :: rest) :
    Inv planner G first { s with state :=
      { s.state.topSend G T x value with afterBuildHooks := rest } } := by
  have hunbuilt : s.built = false := by
    by_contra hs
    exact ((h.built (by simpa using hs)).2 t).1 hpoint
  have hfirst : T = s.state.buildTransaction := by
    obtain ⟨-, -, hwhere⟩ := h.unbuilt hunbuilt t
    rw [h.fresh.1]
    simpa [hpoint, hT] using hwhere
  subst hfirst
  have hopen := h.isOpen hT (by simp [hpoint, UserThread.Commits])
  have hfinalized : State.finalized { s.state.topSend G s.state.buildTransaction x value with
      afterBuildHooks := rest } = s.state.finalized :=
    finalized_append rfl (by simp [Event.finalized?])
  exact
    { reached := h.reached.tail (.afterBuildHook hhooks hopen)
      thread := fun t => (h.thread t).mono rfl le_rfl subset_rfl fun _ _ hin => hin
      distinct := h.distinct
      watched := h.watched
      alreadyDone := fun T => by rw [hfinalized]; exact h.alreadyDone T
      built := h.built
      unbuilt := h.unbuilt }

/-! ## Waits -/

theorem Inv.wake (h : Inv planner G first s) {t : θ} {T : ID}
    (hawaits : (s.thread t).point.awaits = some T) (hdone : T ∈ s.alreadyDone) :
    Inv planner G first { s.setThread t (s.thread t).woken with
      built := s.built || (s.thread t).point.endsBuild } := by
  have hother : ∀ {t'}, t' ≠ t →
      Function.update s.thread t (s.thread t).woken t' = s.thread t' :=
    fun hne => Function.update_of_ne hne _ _
  have hpast : PastBuild G (s.thread t).woken := by
    simp [PastBuild, UserThread.woken_point (u := s.thread t) (by simp [hawaits]),
      UserPoint.endsBuild]
  have hcurrent : ∀ {t' T'},
      (Function.update s.thread t (s.thread t).woken t').currentTransaction = some T' →
      (s.thread t').currentTransaction = some T' := by
    intro t' T' hT'
    by_cases heq : t' = t
    · subst heq
      rw [Function.update_self] at hT'
      exact UserThread.woken_currentTransaction hT'
    · rwa [hother heq] at hT'
  -- Before the end of the build it is the build transaction that the thread has waited for.
  have hbuilding : s.built = false → (s.thread t).currentTransaction = some first ∧
      (s.thread t).point = .initializes first := by
    intro hbuilt
    obtain ⟨-, -, ⟨hpoint, -⟩ | ⟨hT, hpoint | hpoint⟩⟩ := h.unbuilt hbuilt t
    · simp [hpoint, UserPoint.awaits] at hawaits
    · simp [hpoint, UserPoint.awaits] at hawaits
    · exact ⟨hT, hpoint⟩
  refine ⟨h.reached, fun t' => ?_, fun t' u T' hT' hu => h.distinct t' u T' (hcurrent hT') (hcurrent hu),
    fun T' hfirst hlt hdone' => ?_, h.alreadyDone, fun _ => ⟨?_, fun t' => ?_⟩, fun hs => ?_⟩
  · by_cases heq : t' = t
    · subst heq
      simpa [Session.setThread] using (h.thread t').woken (by simp [hawaits])
    · simpa [Session.setThread, hother heq] using h.thread t'
  · obtain ⟨t', hwatches⟩ := h.watched T' hfirst hlt hdone'
    refine ⟨t', ?_⟩
    by_cases heq : t' = t
    · subst heq
      simp only [Session.setThread, Function.update_self]
      refine (h.thread t').watches_woken hawaits ?_ hwatches
      rintro rfl
      exact hdone' hdone
    · simpa [Session.setThread, hother heq] using hwatches
  · cases hbuilt : s.built with
    | true => exact (h.built hbuilt).1
    | false =>
        obtain ⟨hT, hpoint⟩ := hbuilding hbuilt
        exact ((h.thread t).committed first hT).mpr (by simp [hpoint, UserThread.Commits])
  · by_cases heq : t' = t
    · subst heq
      simpa [Session.setThread] using hpast
    · simp only [Session.setThread, hother heq]
      cases hbuilt : s.built with
      | true => exact (h.built hbuilt).2 t'
      | false =>
          obtain ⟨-, -, ⟨hpoint, -⟩ | ⟨hT, -⟩⟩ := h.unbuilt hbuilt t'
          · simp [PastBuild, hpoint, UserPoint.endsBuild]
          · exact absurd (h.distinct t' t first hT (hbuilding hbuilt).1) heq
  · have hbuilt : s.built = false := by simpa using (Bool.or_eq_false_iff.mp hs).1
    simp [(hbuilding hbuilt).2, UserPoint.endsBuild] at hs

/-! ## The threads of the program -/

omit [DecidableEq θ] in
/-- The `Executor` calls `done` for the transactions it finalises. -/
theorem finalized_of_internal {s s' : State ι V} {action : Action ι V}
    (h : State.step G planner s action = some s') (hinternal : action.isInternal) :
    s'.finalized = s.finalized ++ (doneBy s action).toList := by
  cases action with
  | register | afterBuildHook | send | commit => cases hinternal
  | executor =>
      simp only [State.step] at h
      split at h
      · cases h
      · rename_i message rest hfront
        cases message with
        | transactionExecute T | registerTransaction T =>
            obtain rfl := Option.some.inj h
            simp [doneBy, doneNext, hfront, State.finalized]
        | startUpdateCluster T c =>
            simp only [State.handleExecutorMessage] at h
            split at h
            · obtain rfl := Option.some.inj h
              simp [doneBy, doneNext, hfront, State.finalized]
            · split at h
              all_goals
                obtain rfl := Option.some.inj h
                simp [doneBy, doneNext, hfront, State.finalized]
        | finalizeTransaction T =>
            simp only [State.handleExecutorMessage] at h
            split at h
            · rename_i hskipped
              obtain rfl := Option.some.inj h
              simp only [doneBy, doneNext, hfront]
              simp [hskipped, State.finalized]
            · rename_i hrunning
              split at h
              · cases h
              · obtain rfl := Option.some.inj h
                have hsome : doneBy s (.executor : Action ι V) = some T := by
                  simp only [doneBy, doneNext, hfront]
                  exact if_pos (not_not.mp hrunning)
                rw [hsome]
                exact finalized_finalize rfl
  | task i =>
      simp only [State.step] at h
      split at h
      · cases h
      · rename_i task hi
        obtain ⟨T, c, phase⟩ := task
        cases phase with
        | executing sub =>
            simp only [State.runTask] at h
            split at h
            · obtain rfl := Option.some.inj h
              simp [doneBy, State.finalized, State.setPhase]
            · split at h
              · cases h
              · obtain rfl := Option.some.inj h
                rw [finalized_append rfl (finalized?_updateEvents s.store T _)]
                simp [doneBy]
        | finished => simp [State.runTask] at h
        | queued | announced | registered | buffered =>
            obtain rfl := Option.some.inj h
            simp [doneBy, State.finalized, State.setPhase, State.pushPlanner]
  | plannerReceive =>
      simp only [State.step] at h
      split at h
      · rw [State.receivePlannerMessage] at h
        split at h
        · obtain rfl := Option.some.inj h
          simp [doneBy, State.finalized]
        · obtain ⟨states, -, rfl⟩ := Option.map_eq_some_iff.mp h
          simp [doneBy, State.finalized]
      · cases h
  | plannerHandle =>
      simp only [State.step] at h
      split at h
      · obtain ⟨states, -, rfl⟩ := Option.map_eq_some_iff.mp h
        simp [doneBy, State.finalized]
      · cases h
  | plannerPass =>
      simp only [State.step] at h
      split at h
      · cases h
      · obtain rfl := Option.some.inj h
        rw [State.runPlanner]
        split <;> simp [doneBy, State.finalized]

omit [DecidableEq θ] in
theorem Inv.internal (h : Inv planner G first s) {action : Action ι V} {state : State ι V}
    (hinternal : action.isInternal) (hstep : State.step G planner s.state action = some state) :
    Inv planner G first { s with
      state := state
      alreadyDone := s.alreadyDone ∪ (doneBy s.state action).toFinset } := by
  have husers := usersPart_of_internal hstep hinternal
  simp only [usersPart, Prod.mk.injEq] at husers
  obtain ⟨hnext, hcommitted, -, -⟩ := husers
  have hreached : Reached planner G first state := h.reached.tail (step_of_eq hstep)
  have hbuild : state.buildTransaction = s.state.buildTransaction := by
    obtain ⟨_, hsim⟩ := hreached.simulated
    rw [hsim.build, h.fresh.1]
  exact
    { reached := hreached
      thread := fun t => (h.thread t).mono hbuild hnext.ge hcommitted.ge
        fun T _ hin => hcommitted ▸ hin
      distinct := h.distinct
      watched := fun T hfirst hlt hdone => h.watched T hfirst (hnext ▸ hlt)
        fun hin => hdone (Finset.mem_union_left _ hin)
      alreadyDone := fun T => by
        rw [Finset.mem_union, h.alreadyDone, finalized_of_internal hstep hinternal, List.mem_append,
          Option.mem_toFinset, Option.mem_toList, Option.mem_def]
      built := fun hs => ⟨hcommitted.symm ▸ (h.built hs).1, (h.built hs).2⟩
      unbuilt := h.unbuilt }

/-! ## Runs -/

omit [DecidableEq θ] in
theorem Inv.init : Inv planner G first (init G first : Session θ ι V) where
  reached := .refl
  thread := fun t =>
    { bounds := by simp [Session.init]
      committed := by simp [Session.init]
      inside := fun h => h.elim
      objects := by simp [Session.init]
      unique := by simp [Session.init]
      destructs := by simp [Session.init]
      initializes := by simp [Session.init]
      sends := by simp [Session.init]
      drops := by simp [Session.init]
      handlers := by simp [Session.init]
      awaits := by simp [Session.init, UserPoint.awaits] }
  distinct := by simp [Session.init]
  watched := fun T hle hlt => absurd hle (not_le.mpr hlt)
  alreadyDone := by simp [Session.init, State.init, State.finalized]
  built := by simp [Session.init]
  unbuilt := fun _ t => ⟨rfl, rfl, .inl ⟨rfl, rfl⟩⟩

theorem Inv.stepFree (h : Inv planner G first s) {t : θ} {action : UserAction θ ι V}
    {s' : Session θ ι V} (hactor : action.actor = some t) (hfree : (s.thread t).point = .free)
    (hstep : s.stepFree G action = some s') : Inv planner G first s' := by
  cases action with
  | afterBuildHook | endBuild | sendInside | endSend | wake | internal => cases hactor
  | build t =>
      obtain rfl := Option.some.inj hactor
      rw [Session.stepFree, Option.ite_none_right_eq_some] at hstep
      obtain ⟨⟨hnone, hfirst⟩, heq⟩ := hstep
      obtain rfl := Option.some.inj heq
      exact h.build hnone hfirst
  | construct t =>
      obtain rfl := Option.some.inj hactor
      rw [Session.stepFree, Option.ite_none_right_eq_some] at hstep
      obtain ⟨hbuilt, hstep⟩ := hstep
      split at hstep
      · rename_i hnone
        obtain rfl := Option.some.inj hstep
        exact h.begin hbuilt hnone (.inl rfl) (by simp)
      · obtain rfl := Option.some.inj hstep
        exact h.setThread hbuilt
          ((h.thread t).nested hfree (fun T hT => by simpa using hT) (by simp [List.countP_append]))
          rfl (fun T hT _ => .inl hT) ((h.built hbuilt).2 t)
  | send t x value =>
      obtain rfl := Option.some.inj hactor
      rw [Session.stepFree, Option.ite_none_right_eq_some] at hstep
      obtain ⟨⟨hbuilt, hsink⟩, hstep⟩ := hstep
      split at hstep
      · rename_i hnone
        obtain rfl := Option.some.inj hstep
        refine h.begin hbuilt hnone (.inr ⟨x, value, rfl⟩) fun x' value' heq => ?_
        obtain ⟨rfl, rfl⟩ := UserPoint.sends.inj heq
        exact hsink
      · rename_i T hT
        obtain rfl := Option.some.inj hstep
        refine h.sendTo hbuilt hT hsink (by simp [hfree, UserThread.Commits]) ?_ ⟨by simp, rfl, by simp⟩
        rw [← hfree]
        exact h.thread t
  | destruct t index =>
      obtain rfl := Option.some.inj hactor
      exact h.destruct (.inl hfree) hstep
  | getJoinHandler t index =>
      obtain rfl := Option.some.inj hactor
      simp only [Session.stepFree] at hstep
      split at hstep
      · rename_i T hindex
        obtain rfl := Option.some.inj hstep
        exact h.getJoinHandler hfree hindex
      · cases hstep
  | join t index =>
      obtain rfl := Option.some.inj hactor
      simp only [Session.stepFree] at hstep
      split at hstep
      · cases hstep
      · obtain rfl := Option.some.inj hstep
        exact h
      · rename_i T hindex
        obtain rfl := Option.some.inj hstep
        have hbuilt := h.built_of_object (.inr (List.ne_nil_of_mem (List.mem_of_getElem? hindex)))
        exact h.setThread hbuilt ((h.thread t).waits hfree hindex (.inl rfl)) rfl
          (fun T hT _ => .inl hT) ⟨by simp, rfl, by simp⟩
  | drop t index =>
      obtain rfl := Option.some.inj hactor
      simp only [Session.stepFree] at hstep
      split at hstep
      · cases hstep
      · rename_i hindex
        obtain rfl := Option.some.inj hstep
        have hbuilt := h.built_of_object (.inr (List.ne_nil_of_mem (List.mem_of_getElem? hindex)))
        refine h.setThread hbuilt ((h.thread t).withHandlers (fun T hT => ?_) (by simp [hfree])) rfl
          (fun T hT _ => .inl ?_) ((h.built hbuilt).2 t)
        · exact (h.thread t).handlers T (List.mem_of_mem_eraseIdx hT)
        · obtain ⟨hlt, hget⟩ := List.getElem?_eq_some_iff.mp hindex
          have hperm := (List.getElem_cons_eraseIdx_perm hlt).mem_iff (a := some T)
          rw [hget] at hperm
          exact (List.mem_cons.mp (hperm.mpr hT)).resolve_left (by simp)
      · rename_i T hindex
        obtain rfl := Option.some.inj hstep
        have hbuilt := h.built_of_object (.inr (List.ne_nil_of_mem (List.mem_of_getElem? hindex)))
        exact h.setThread hbuilt ((h.thread t).waits hfree hindex (.inr rfl)) rfl
          (fun T hT _ => .inl hT) ⟨by simp, rfl, by simp⟩
  | move t index u =>
      obtain rfl := Option.some.inj hactor
      simp only [Session.stepFree] at hstep
      split at hstep
      · cases hstep
      · rename_i message hindex
        obtain rfl := Option.some.inj hstep
        exact h.move hfree hindex rfl

theorem Inv.stepInside (h : Inv planner G first s) {action : UserAction θ ι V}
    {s' : Session θ ι V} (hstep : s.stepInside G action = some s') : Inv planner G first s' := by
  cases action with
  | build | construct | send | destruct | getJoinHandler | join | drop | move | internal => cases hstep
  | afterBuildHook t =>
      simp only [Session.stepInside] at hstep
      split at hstep
      · rename_i T x value rest hpoint hT hhooks
        obtain rfl := Option.some.inj hstep
        exact h.afterBuildHook hpoint hT hhooks
      · cases hstep
  | endBuild t =>
      simp only [Session.stepInside] at hstep
      split at hstep
      · rename_i T hpoint hT hhooks
        obtain rfl := Option.some.inj hstep
        exact h.endBuild hpoint hT hhooks
      · cases hstep
  | sendInside t =>
      simp only [Session.stepInside] at hstep
      split at hstep
      · rename_i x value T hpoint hT
        obtain rfl := Option.some.inj hstep
        obtain ⟨T', hlast⟩ := (h.thread t).sends (.inl ⟨x, value, hpoint⟩)
        have hbuilt := h.built_of_object (.inl (List.ne_nil_of_mem (List.mem_of_getLast? hlast)))
        have hsink := ((h.built hbuilt).2 t).2.2 x value hpoint
        exact h.sendTo hbuilt hT hsink (by simp [hpoint, UserThread.Commits])
          ((h.thread t).sent hpoint) ⟨by simp, rfl, by simp⟩
      · cases hstep
  | endSend t =>
      simp only [Session.stepInside] at hstep
      split at hstep
      · rename_i hpoint
        refine h.destruct (.inr ⟨hpoint, ?_⟩) hstep
        rw [← List.getLast?_eq_getElem?]
        exact (h.thread t).sends (.inr hpoint)
      · cases hstep
  | wake t =>
      simp only [Session.stepInside] at hstep
      split at hstep
      · rename_i T hawaits
        rw [Option.ite_none_right_eq_some] at hstep
        obtain ⟨hdone, heq⟩ := hstep
        obtain rfl := Option.some.inj heq
        exact h.wake hawaits hdone
      · cases hstep

theorem Inv.step (h : Inv planner G first s) {action : UserAction θ ι V} {s' : Session θ ι V}
    (hstep : Session.step G planner s action = some s') : Inv planner G first s' := by
  rw [Session.step.eq_def] at hstep
  split at hstep
  · rename_i action
    rw [Option.ite_none_right_eq_some] at hstep
    obtain ⟨hinternal, hstep⟩ := hstep
    obtain ⟨state, hstate, rfl⟩ := Option.map_eq_some_iff.mp hstep
    exact h.internal hinternal hstate
  · split at hstep
    · rename_i t hactor
      rw [Option.ite_none_right_eq_some] at hstep
      exact h.stepFree hactor (UserPoint.eq_free hstep.1) hstep.2
    · exact h.stepInside hstep

theorem inv_of_run {actions : List (UserAction θ ι V)} {s' : Session θ ι V} (h : Inv planner G first s)
    (hrun : run G planner s actions = some s') : Inv planner G first s' := by
  induction actions generalizing s with
  | nil =>
      obtain rfl := Option.some.inj hrun
      exact h
  | cons action actions ih =>
      rw [run, Option.bind_eq_some_iff] at hrun
      obtain ⟨s₁, hs₁, hrest⟩ := hrun
      exact ih (h.step hs₁) hrest

end Session

end Prf
