import Prf.Proof.Refinement
import Prf.Proof.Store

/-!
# What has been sent

The trace of a run records every send. The stored values, and the cleanups a transaction has
collected, are the sends of the transactions: nothing else writes a value, except the hooks of
`GlobalCellLoop`s, and nothing but the finalisation of a transaction removes one.
-/

namespace Prf

open Relation

variable {ι V : Type} [DecidableEq ι] {G : Graph ι V}

def Event.sent? (T : ID) (x : ι) : Event ι V → Option V
  | topSend T' x' value => if T' = T ∧ x' = x then some value else none
  | taskSend T' x' value => if T' = T ∧ x' = x then some value else none
  | _ => none

/-- The last value sent to `x` in `T`. -/
def lastSent (trace : List (Event ι V)) (T : ID) (x : ι) : Option V :=
  (trace.filterMap (Event.sent? T x)).getLast?

theorem lastSent_append (trace events : List (Event ι V)) (T : ID) (x : ι) :
    lastSent (trace ++ events) T x = (lastSent events T x).or (lastSent trace T x) :=
  Log.last_append (Event.sent? T x) trace events

theorem lastSent_finalize (trace : List (Event ι V)) (T : ID) (deliveries : List (Delivery ι V))
    (view : ι → Option V) (T' : ID) (x : ι) :
    lastSent (trace ++ deliveries.map (.deliver T) ++ [.finalize T view]) T' x =
      lastSent trace T' x := by
  rw [List.append_assoc]
  apply Log.last_append_silent
  intro event hevent
  obtain ⟨delivery, rfl⟩ | rfl := State.mem_finalizeEvents hevent <;> rfl

theorem lastSent_topSend (trace : List (Event ι V)) (T T' : ID) (x y : ι) (value : V) :
    lastSent (trace ++ [.topSend T x value]) T' y =
      if T = T' ∧ x = y then some value else lastSent trace T' y := by
  calc lastSent (trace ++ [Event.topSend T x value]) T' y
      = (Event.sent? T' y (.topSend T x value)).or (lastSent trace T' y) :=
        Log.last_concat (Event.sent? T' y) trace (.topSend T x value)
    _ = if T = T' ∧ x = y then some value else lastSent trace T' y := by
      rw [Event.sent?]
      split <;> simp

def updated (G : Graph ι V) (store : Store ι V) (T : ID) (x : ι) : Option V :=
  match (G.primitive x).updater x (G.sample store T) with
  | .ok (some value, _) => some value
  | _ => none

theorem lastSent_updateEvents (trace : List (Event ι V)) (store : Store ι V) (T T' : ID)
    (x y : ι) :
    lastSent (trace ++ State.updateEvents G store T x) T' y =
      if T = T' ∧ x = y then (updated G store T x).or (lastSent trace T' y)
      else lastSent trace T' y := by
  rw [lastSent_append, State.updateEvents, updated]
  cases hupd : (G.primitive x).updater x (G.sample store T) with
  | error e => simp [lastSent, Event.sent?]
  | ok result =>
      obtain ⟨value, hooks⟩ := result
      cases value with
      | none => simp [lastSent, Event.sent?]
      | some value =>
          by_cases h : T = T' ∧ x = y
          · simp [lastSent, Event.sent?, h]
          · simp only [lastSent, Event.sent?, h, if_false, List.filterMap_cons, List.filterMap_nil,
              List.getLast?_nil, Option.none_or]

omit [DecidableEq ι] in
/-- Only a `GlobalCellLoop` hands out a hook, and then it sends nothing. -/
theorem updater_hooks {x : ι} {sample : ι → Option V} {value : Option V} {hooks : List (Hook ι V)}
    (h : (G.primitive x).updater x sample = .ok (value, hooks)) :
    ((G.primitive x).isGlobalCellLoop = true → value = none) ∧
      ∀ hook ∈ hooks, hook.cell = x ∧ (G.primitive x).isGlobalCellLoop = true := by
  cases hx : G.primitive x with
  | globalCellLoop looped =>
      cases looped with
      | none => simp [hx, Primitive.updater] at h
      | some c =>
          cases hc : sample c with
          | none => simp [hx, Primitive.updater, Primitive.unsafeSample, hc, bind, Except.bind] at h
          | some v =>
              simp only [hx, Primitive.updater, Primitive.unsafeSample, hc, bind, Except.bind, pure,
                Except.pure, Except.ok.injEq, Prod.mk.injEq] at h
              obtain ⟨rfl, rfl⟩ := h
              simp [Primitive.isGlobalCellLoop]
  | _ =>
      refine ⟨by simp [Primitive.isGlobalCellLoop], ?_⟩
      have hnil : hooks = [] := by
        rw [hx] at h
        simp only [Primitive.updater, Primitive.unsafeSample, bind, Except.bind, pure,
          Except.pure] at h
        grind
      simp [hnil]

def TaskPhase.hooks : TaskPhase ι V → List (Hook ι V)
  | executing sub => sub.beforeUpdateHooks
  | registered _ hooks => hooks
  | _ => []

namespace State

variable {planner : Planner} {first : ID} {s s' : State ι V}

/-- The oldest transaction that is not finalised. -/
def oldest (s : State ι V) : ID :=
  s.buildTransaction + s.finalized.length

def Reached (planner : Planner) (G : Graph ι V) (first : ID) (s : State ι V) : Prop :=
  ReflTransGen (Step G planner) (State.init G first) s

omit [DecidableEq ι] in
theorem Simulated.oldest_eq {registered oldest : ID}
    (h : Simulated planner G first s registered oldest) : oldest = s.oldest := by
  have hle : first ≤ oldest := h.inv.core.queues.first_le
  rw [State.oldest, h.finalized, List.length_range', h.build]
  lia

theorem Reached.simulated (h : Reached planner G first s) :
    ∃ registered, Simulated planner G first s registered s.oldest := by
  obtain ⟨registered, oldest, hsim, -⟩ := simulated_init.steps h
  exact ⟨registered, hsim.oldest_eq ▸ hsim⟩

omit [DecidableEq ι] in
theorem oldest_congr (hbuild : s'.buildTransaction = s.buildTransaction)
    (hfinalized : s'.finalized = s.finalized) : s'.oldest = s.oldest := by
  rw [oldest, oldest, hbuild, hfinalized]

omit [DecidableEq ι] in
theorem oldest_finalize {T : ID} {deliveries : List (Delivery ι V)} {view : ι → Option V}
    (hbuild : s'.buildTransaction = s.buildTransaction)
    (htrace : s'.trace = s.trace ++ deliveries.map (.deliver T) ++ [.finalize T view]) :
    s'.oldest = s.oldest + 1 := by
  rw [oldest, oldest, hbuild, finalized_finalize htrace, List.length_append, List.length_singleton,
    Nat.add_assoc]

/-! ## Hooks -/

structure HooksGlobal (G : Graph ι V) (s : State ι V) : Prop where
  queued : ∀ hook ∈ s.executor.beforeUpdateHooks, (G.primitive hook.cell).isGlobalCellLoop = true
  buffered : ∀ T, ∀ hook ∈ s.executor.beforeUpdateHooksBuffers T,
    (G.primitive hook.cell).isGlobalCellLoop = true
  collected : ∀ T c phase, s.phaseOf T c = some phase →
    ∀ hook ∈ phase.hooks, (G.primitive hook.cell).isGlobalCellLoop = true

theorem HooksGlobal.step (h : HooksGlobal G s) (hwf : WellFormed G s)
    (hnone : ∀ T c, T ∈ s.executor.transactions → c ∉ s.executor.transactionUpdatings T →
      s.phaseOf T c = none) (hstep : Step G planner s s') : HooksGlobal G s' := by
  cases hstep
  case handleRegister => exact ⟨by simp, h.buffered, h.collected⟩
  case start T c rest hfront hrunning hfresh =>
    exact ⟨h.queued, h.buffered,
      forall_phase_append h.collected (hnone T c hrunning hfresh) rfl (by simp [TaskPhase.hooks])⟩
  case finalize T rest store deliveries hfront hrunning hfinalize =>
    refine ⟨fun hook hhook => ?_, fun T' hook hhook => ?_, h.collected⟩
    · rcases List.mem_append.mp hhook with hin | hin
      · exact h.queued hook hin
      · exact h.buffered T hook hin
    · by_cases heq : T' = T
      · subst heq
        simp at hhook
      · simp only [Function.update_of_ne heq] at hhook
        exact h.buffered T' hook hhook
  case announce hi =>
    exact ⟨h.queued, h.buffered, forall_phase_set hwf h.collected hi rfl (by simp [TaskPhase.hooks])⟩
  case generate i T c hi =>
    refine ⟨h.queued, h.buffered, forall_phase_set hwf h.collected hi rfl ?_⟩
    rw [TaskPhase.hooks, (G.generateSubTransaction_snd_fields (s.inner T) c).2.2.2]
    simp
  case update i T c sub sub' r x rest store hi hfront hupdate =>
    refine ⟨h.queued, h.buffered, forall_phase_set hwf h.collected hi rfl fun hook hhook => ?_⟩
    have hsub := h.collected T c _ (phaseOf_of_getElem? hwf.tasks_nodup hi)
    rw [TaskPhase.hooks] at hhook
    rcases Graph.update_cases hupdate with ⟨hooks, hupd, -, rfl⟩ | ⟨value, hooks, hupd, -, rfl⟩
    · rcases List.mem_append.mp hhook with hin | hin
      · exact hsub hook hin
      · obtain ⟨rfl, hglobal⟩ := (updater_hooks hupd).2 hook hin
        exact hglobal
    · rw [Graph.send_hooks] at hhook
      rcases List.mem_append.mp hhook with hin | hin
      · exact hsub hook hin
      · obtain ⟨rfl, hglobal⟩ := (updater_hooks hupd).2 hook hin
        exact hglobal
  case collect i T c sub hi hfront =>
    have hsub := h.collected T c _ (phaseOf_of_getElem? hwf.tasks_nodup hi)
    exact ⟨h.queued, h.buffered, forall_phase_set hwf h.collected hi rfl hsub⟩
  case buffer i T c futures hooks hi =>
    have hregistered := h.collected T c _ (phaseOf_of_getElem? hwf.tasks_nodup hi)
    refine ⟨h.queued, fun T' hook hhook => ?_,
      forall_phase_set hwf h.collected hi rfl (by simp [TaskPhase.hooks])⟩
    by_cases heq : T' = T
    · subst heq
      simp only [Function.update_self] at hhook
      rcases List.mem_append.mp hhook with hin | hin
      · exact h.buffered T' hook hin
      · exact hregistered hook hin
    · simp only [Function.update_of_ne heq] at hhook
      exact h.buffered T' hook hhook
  case finish i T c futures hi =>
    exact ⟨h.queued, h.buffered, forall_phase_set hwf h.collected hi rfl (by simp [TaskPhase.hooks])⟩
  all_goals exact ⟨h.queued, h.buffered, h.collected⟩

/-! ## Values -/

/-- The stored values are the sends, less what finalised transactions have removed. -/
structure Stored (G : Graph ι V) (s : State ι V) : Prop where
  unregistered : ∀ T x, s.nextTransactionId ≤ T → lastSent s.trace T x = none
  global : ∀ T x, (G.primitive x).isGlobalCellLoop = true → lastSent s.trace T x = none
  stored : ∀ x T value, (G.primitive x).isGlobalCellLoop = false →
    (s.store x)[T]? = some value → lastSent s.trace T x = some value
  kept : ∀ x T value, lastSent s.trace T x = some value → (s.store x)[T]? = some value ∨
    T < s.oldest ∧ ((G.primitive x).isCell = true → ∃ T' ∈ s.store x, T < T' ∧ T' < s.oldest)
  afterBuild : ∀ entry ∈ s.afterBuildHooks, entry ∈ G.afterBuildHooks

namespace Stored

theorem of_eq (h : Stored G s) (hstore : s'.store = s.store)
    (htrace : ∀ T x, lastSent s'.trace T x = lastSent s.trace T x) (holdest : s'.oldest = s.oldest)
    (hnext : s.nextTransactionId ≤ s'.nextTransactionId)
    (hhooks : s'.afterBuildHooks = s.afterBuildHooks) : Stored G s' where
  unregistered T x hle := (htrace T x).trans (h.unregistered T x (hnext.trans hle))
  global T x hx := (htrace T x).trans (h.global T x hx)
  stored x T value hx hvalue := (htrace T x).trans (h.stored x T value hx (hstore ▸ hvalue))
  kept x T value hvalue := by
    rw [hstore, holdest]
    exact h.kept x T value (htrace T x ▸ hvalue)
  afterBuild := hhooks ▸ h.afterBuild

theorem send (h : Stored G s) {T : ID} {x : ι} {w : V}
    (hstore : s'.store = Function.update s.store x ((s.store x).insert T w))
    (htrace : ∀ T' y, lastSent s'.trace T' y =
      if T = T' ∧ x = y then some w else lastSent s.trace T' y)
    (hT : T < s.nextTransactionId) (hx : (G.primitive x).isGlobalCellLoop = false)
    (holdest : s'.oldest = s.oldest) (hnext : s'.nextTransactionId = s.nextTransactionId)
    (hhooks : ∀ entry ∈ s'.afterBuildHooks, entry ∈ s.afterBuildHooks) : Stored G s' := by
  have hget : ∀ y T', (s'.store y)[T']? =
      if T = T' ∧ x = y then some w else (s.store y)[T']? := by
    intro y T'
    rw [hstore]
    by_cases hxy : x = y
    · subst hxy
      simp [Std.ExtTreeMap.getElem?_insert]
    · simp [Function.update_of_ne (Ne.symm hxy), hxy]
  have hmem : ∀ y T', T' ∈ s.store y → T' ∈ s'.store y := by
    intro y T' hin
    rw [Std.ExtTreeMap.mem_iff_isSome_getElem?] at hin ⊢
    rw [hget]
    split
    · rfl
    · exact hin
  refine ⟨fun T' y hle => ?_, fun T' y hy => ?_, fun y T' v hy hv => ?_, fun y T' v hv => ?_,
    fun entry hentry => h.afterBuild entry (hhooks entry hentry)⟩
  · rw [hnext] at hle
    have hne : ¬ (T = T' ∧ x = y) := fun heq => absurd (heq.1 ▸ hT) (not_lt.mpr hle)
    rw [htrace, if_neg hne]
    exact h.unregistered T' y hle
  · have hne : ¬ (T = T' ∧ x = y) := fun heq => by simp [← heq.2, hx] at hy
    rw [htrace, if_neg hne]
    exact h.global T' y hy
  · rw [hget] at hv
    rw [htrace]
    split
    · rename_i heq
      rwa [if_pos heq] at hv
    · rename_i hne
      rw [if_neg hne] at hv
      exact h.stored y T' v hy hv
  · rw [htrace] at hv
    rw [hget, holdest]
    split
    · rename_i heq
      rw [if_pos heq] at hv
      exact .inl hv
    · rename_i hne
      rw [if_neg hne] at hv
      refine (h.kept y T' v hv).imp id fun hold => ⟨hold.1, fun hcell => ?_⟩
      obtain ⟨T'', hin, hlt⟩ := hold.2 hcell
      exact ⟨T'', hmem y T'' hin, hlt⟩

omit [DecidableEq ι] in
theorem initialValue_global {x : ι} {value : V} (h : (x, value) ∈ G.afterBuildHooks) :
    (G.primitive x).isGlobalCellLoop = false := by
  rw [Graph.afterBuildHooks, List.mem_filterMap] at h
  obtain ⟨y, -, hy⟩ := h
  rw [Option.map_eq_some_iff] at hy
  obtain ⟨v, hv, heq⟩ := hy
  obtain ⟨rfl, -⟩ := Prod.mk.inj heq
  cases hprimitive : G.primitive y <;>
    simp_all [Primitive.initialValue, Primitive.isGlobalCellLoop]

theorem applyHooks_of_ne {T : ID} (hooks : List (Hook ι V)) {store : Store ι V} {x : ι}
    (h : ∀ hook ∈ hooks, hook.cell ≠ x) : applyHooks T hooks store x = store x := by
  rw [applyHooks]
  induction hooks generalizing store with
  | nil => rfl
  | cons hook hooks ih =>
      rw [List.foldl_cons, ih fun hook' hin => h hook' (List.mem_cons_of_mem _ hin),
        Function.update_of_ne (h hook List.mem_cons_self).symm]

theorem finalize (h : Stored G s) {t : InnerTransaction ι V} {store : Store ι V}
    {deliveries : List (Delivery ι V)} (hid : t.id = s.oldest)
    (hfinalize : G.finalizeTransaction s.store t = .ok (store, deliveries))
    (hstore : s'.store = store) (htrace : ∀ T x, lastSent s'.trace T x = lastSent s.trace T x)
    (holdest : s'.oldest = s.oldest + 1) (hnext : s'.nextTransactionId = s.nextTransactionId)
    (hhooks : s'.afterBuildHooks = s.afterBuildHooks) : Stored G s' := by
  subst hstore
  obtain ⟨hrefresh, hsame, -, -⟩ := Graph.finalizeTransaction_spec hfinalize
  rw [hid] at hrefresh
  refine ⟨fun T x hle => (htrace T x).trans (h.unregistered T x (hnext ▸ hle)),
    fun T x hx => (htrace T x).trans (h.global T x hx), fun x T v hx hv => ?_, fun x T v hv => ?_,
    hhooks ▸ h.afterBuild⟩
  · rw [htrace]
    refine h.stored x T v hx ?_
    by_cases hin : x ∈ t.cleanups
    · rw [Graph.refresh_getElem? (hrefresh x hin)] at hv
      split at hv <;> split at hv
      · cases hv
      · exact hv
      · cases hv
      · exact hv
    · rwa [hsame x hin] at hv
  · rw [htrace] at hv
    rw [holdest]
    by_cases hin : x ∈ t.cleanups
    · have hget := Graph.refresh_getElem? (hrefresh x hin)
      cases hcell : (G.primitive x).isCell with
      | false =>
          simp only [hcell, Bool.false_eq_true, if_false] at hget
          rcases h.kept x T v hv with hstored | ⟨hlt, -⟩
          · by_cases heq : T = s.oldest
            · exact .inr ⟨by lia, by simp⟩
            · left
              rw [hget, if_neg heq, hstored]
          · exact .inr ⟨Nat.lt_succ_of_lt hlt, by simp⟩
      | true =>
          simp only [hcell, if_true] at hget
          have holdest : s.oldest ∈ s'.store x := by
            have hmem : s.oldest ∈ s.store x := by
              have hx := hrefresh x hin
              rw [Graph.refresh, if_pos hcell] at hx
              exact CellInternal.mem_of_refresh hx
            rw [Std.ExtTreeMap.mem_iff_isSome_getElem?] at hmem ⊢
            rwa [hget, if_neg (lt_irrefl _)]
          by_cases hlt : T < s.oldest
          · exact .inr ⟨Nat.lt_succ_of_lt hlt, fun _ => ⟨_, holdest, hlt, Nat.lt_succ_self _⟩⟩
          · left
            rw [hget, if_neg hlt]
            exact (h.kept x T v hv).resolve_right fun hold => hlt hold.1
    · rw [hsame x hin]
      refine (h.kept x T v hv).imp id fun hold => ⟨Nat.lt_succ_of_lt hold.1, fun hcell => ?_⟩
      obtain ⟨T', hmem, hlt, hlt'⟩ := hold.2 hcell
      exact ⟨T', hmem, hlt, Nat.lt_succ_of_lt hlt'⟩

end Stored

/-! ## Cleanups -/

/-- What has been sent in a transaction is in its cleanups, or in those of a task of it. -/
def CleanupsAreSends (s : State ι V) : Prop :=
  ∀ T x, lastSent s.trace T x ≠ none ↔ x ∈ (s.inner T).cleanups ∨
    ∃ c sub, s.phaseOf T c = some (.executing sub) ∧ x ∈ sub.cleanups

theorem CleanupsAreSends.set_inner (h : CleanupsAreSends s) {T : ID} {t : InnerTransaction ι V}
    (hinner : s'.inner = Function.update s.inner T t) (htasks : s'.tasks = s.tasks)
    (ht : ∀ x, lastSent s'.trace T x ≠ none ↔ x ∈ t.cleanups ∨
      ∃ c sub, s.phaseOf T c = some (.executing sub) ∧ x ∈ sub.cleanups)
    (htrace : ∀ T' x, T' ≠ T → lastSent s'.trace T' x = lastSent s.trace T' x) :
    CleanupsAreSends s' := by
  intro T' x
  have hphase : ∀ c, s'.phaseOf T' c = s.phaseOf T' c := fun c => by rw [phaseOf, htasks, phaseOf]
  simp only [hphase]
  rw [hinner]
  by_cases heq : T' = T
  · subst heq
    rw [Function.update_self]
    exact ht x
  · rw [Function.update_of_ne heq, htrace T' x heq]
    exact h T' x

theorem CleanupsAreSends.set_phase (h : CleanupsAreSends s) (hwf : WellFormed G s) {i : ℕ}
    {T c : ID} {phase phase' : TaskPhase ι V} (hi : s.tasks[i]? = some ⟨T, c, phase⟩)
    (htasks : s'.tasks = s.tasks.set i ⟨T, c, phase'⟩)
    (hinner : ∀ T' x, T' ≠ T → (x ∈ (s'.inner T').cleanups ↔ x ∈ (s.inner T').cleanups))
    (htrace : ∀ T' x, T' ≠ T → lastSent s'.trace T' x = lastSent s.trace T' x)
    (hT : ∀ x, lastSent s'.trace T x ≠ none ↔ x ∈ (s'.inner T).cleanups ∨
      (∃ sub, phase' = .executing sub ∧ x ∈ sub.cleanups) ∨
      ∃ c' sub, c' ≠ c ∧ s.phaseOf T c' = some (.executing sub) ∧ x ∈ sub.cleanups) :
    CleanupsAreSends s' := by
  intro T' x
  have hphase := phaseOf_of_set hwf hi htasks
  by_cases heq : T' = T
  · subst heq
    rw [hT]
    refine or_congr_right ?_
    constructor
    · rintro (⟨sub, hsub, hx⟩ | ⟨c', sub, hne, hsub, hx⟩)
      · exact ⟨c, sub, by rw [hphase, if_pos ⟨rfl, rfl⟩, hsub], hx⟩
      · exact ⟨c', sub, by rw [hphase, if_neg fun h => hne h.2]; exact hsub, hx⟩
    · rintro ⟨c', sub, hsub, hx⟩
      rw [hphase] at hsub
      by_cases hc : c' = c
      · rw [if_pos ⟨rfl, hc⟩] at hsub
        exact .inl ⟨sub, Option.some.inj hsub, hx⟩
      · rw [if_neg fun h => hc h.2] at hsub
        exact .inr ⟨c', sub, hc, hsub, hx⟩
  · rw [htrace T' x heq, hinner T' x heq, h T' x]
    refine or_congr_right (exists_congr fun c' => exists_congr fun sub => ?_)
    rw [hphase, if_neg fun h => heq h.1]

structure Recorded (G : Graph ι V) (s : State ι V) : Prop where
  hooks : HooksGlobal G s
  values : Stored G s
  cleanups : CleanupsAreSends s

theorem recorded_init : Recorded G (State.init G first) where
  hooks := ⟨by simp [State.init], by simp [State.init], by simp [State.init, phaseOf]⟩
  values := by
    constructor <;> simp [State.init, lastSent]
  cleanups := by
    intro T x
    simp [State.init, lastSent, phaseOf, InnerTransaction.new]

theorem Stored.of_hooks (h : Stored G s) {T : ID} {hooks : List (Hook ι V)}
    (hhooks : ∀ hook ∈ hooks, (G.primitive hook.cell).isGlobalCellLoop = true)
    (hstore : s'.store = applyHooks T hooks s.store) (htrace : s'.trace = s.trace)
    (holdest : s'.oldest = s.oldest) (hnext : s'.nextTransactionId = s.nextTransactionId)
    (hbuild : s'.afterBuildHooks = s.afterBuildHooks) : Stored G s' := by
  have hsame : ∀ x, (G.primitive x).isGlobalCellLoop = false → s'.store x = s.store x := by
    intro x hx
    rw [hstore]
    refine Stored.applyHooks_of_ne hooks fun hook hin heq => ?_
    rw [← heq, hhooks hook hin] at hx
    cases hx
  refine ⟨fun T x hle => ?_, fun T x hx => ?_, fun x T v hx hv => ?_, fun x T v hv => ?_,
    hbuild ▸ h.afterBuild⟩
  · rw [htrace]
    exact h.unregistered T x (hnext ▸ hle)
  · rw [htrace]
    exact h.global T x hx
  · rw [htrace]
    exact h.stored x T v hx (hsame x hx ▸ hv)
  · rw [htrace] at hv
    cases hx : (G.primitive x).isGlobalCellLoop with
    | true =>
        rw [h.global T x hx] at hv
        cases hv
    | false =>
        rw [hsame x hx, holdest]
        exact h.kept x T v hv

theorem CleanupsAreSends.split (h : CleanupsAreSends s) {T c : ID} {phase : TaskPhase ι V}
    (hphase : s.phaseOf T c = some phase) (x : ι) :
    lastSent s.trace T x ≠ none ↔ x ∈ (s.inner T).cleanups ∨
      (∃ sub, phase = .executing sub ∧ x ∈ sub.cleanups) ∨
      ∃ c' sub, c' ≠ c ∧ s.phaseOf T c' = some (.executing sub) ∧ x ∈ sub.cleanups := by
  rw [h T x]
  refine or_congr_right ⟨?_, ?_⟩
  · rintro ⟨c', sub, hsub, hx⟩
    by_cases hc : c' = c
    · subst hc
      exact .inl ⟨sub, Option.some.inj (hphase.symm.trans hsub), hx⟩
    · exact .inr ⟨c', sub, hc, hsub, hx⟩
  · rintro (⟨sub, rfl, hx⟩ | ⟨c', sub, -, hsub, hx⟩)
    · exact ⟨c, sub, hphase, hx⟩
    · exact ⟨c', sub, hsub, hx⟩

omit [DecidableEq ι] in
theorem Simulated.phaseOf_none {registered : ID}
    (h : Simulated planner G first s registered s.oldest) {T : ID} (hT : s.nextTransactionId ≤ T)
    (c : ID) : s.phaseOf T c = none := by
  by_contra hsome
  obtain ⟨phase, hphase⟩ := Option.ne_none_iff_exists'.mp hsome
  have habstract : (s.abstract registered s.oldest).phase T c = some phase.abstract := by
    simp [abstract, hphase]
  have hinv := h.inv
  have hcommitted := (hinv.core.tasks.phase_key T c _ habstract).2.1
  exact absurd (hinv.core.queues.committed T hcommitted).2.1 (not_lt.mpr hT)

omit [DecidableEq ι] in
theorem Simulated.open_waits {registered : ID}
    (h : Simulated planner G first s registered s.oldest) {T : ID} (hopen : s.IsOpen T) :
    T ∉ s.executor.transactions ∧ s.oldest ≤ T := by
  refine h.inv.core.queues.open_waits (s := s.abstract registered s.oldest) ?_
  rw [← h.build]
  exact hopen

omit [DecidableEq ι] in
theorem Simulated.finalize_oldest {registered : ID}
    (h : Simulated planner G first s registered s.oldest) {T : ID} {rest : List ExecutorMessage}
    (hfront : s.executorMessages = .finalizeTransaction T :: rest)
    (hrunning : T ∈ s.executor.transactions) : T = s.oldest :=
  h.inv.core.queues.finalize_oldest h.inv.core.offers hfront hrunning

omit [DecidableEq ι] in
theorem Simulated.phaseOf_none_of_open {registered : ID}
    (h : Simulated planner G first s registered s.oldest) {T : ID} (hopen : s.IsOpen T) (c : ID) :
    s.phaseOf T c = none := by
  obtain ⟨hwaits, hle⟩ := h.open_waits hopen
  have hnone := h.inv.core.tasks.phase_none_of_waits hwaits hle c
  simpa [abstract] using hnone

omit [DecidableEq ι] in
theorem Simulated.phaseOf_none_of_fresh {registered : ID}
    (h : Simulated planner G first s registered s.oldest) {T c : ID}
    (hrunning : T ∈ s.executor.transactions) (hfresh : c ∉ s.executor.transactionUpdatings T) :
    s.phaseOf T c = none := by
  have hupdatings := (h.inv.core.tasks.updatings T c).not.mp hfresh
  simpa [abstract, hrunning] using hupdatings

omit [DecidableEq ι] in
theorem Simulated.task_bounds {registered : ID}
    (h : Simulated planner G first s registered s.oldest) {T c : ID} {phase : TaskPhase ι V}
    (hphase : s.phaseOf T c = some phase) (hunfinished : phase ≠ .finished) :
    T ∈ s.executor.transactions ∧ s.oldest ≤ T ∧ T < s.nextTransactionId := by
  have habstract : (s.abstract registered s.oldest).phase T c = some phase.abstract := by
    simp [abstract, hphase]
  have hinv := h.inv
  have hrunning : T ∈ s.executor.transactions := by
    refine hinv.core.tasks.running habstract ?_
    cases phase <;> simp_all [TaskPhase.abstract]
  obtain ⟨hle, -, hcommitted⟩ := hinv.core.queues.transactions T hrunning
  exact ⟨hrunning, hle, (hinv.core.queues.committed T hcommitted).2.1⟩

theorem Stored.step (h : Stored G s) (hhooks : HooksGlobal G s) {registered : ID}
    (hsim : Simulated planner G first s registered s.oldest) (hstep : Step G planner s s') :
    Stored G s' := by
  have hwf := hsim.wellFormed
  cases hstep
  case register => exact h.of_eq rfl (fun _ _ => rfl) rfl (Nat.le_succ _) rfl
  case afterBuildHook x value rest hentries hopen =>
    have hentry : (x, value) ∈ s.afterBuildHooks := by simp [hentries]
    refine h.send (T := s.buildTransaction) (x := x) (w := value) ?_
      (fun T y => lastSent_topSend _ _ _ _ _ _) hopen.2.1
      (Stored.initialValue_global (h.afterBuild _ hentry))
      (oldest_congr rfl (finalized_append rfl (by simp [Event.finalized?]))) rfl
      (fun entry hin => by simp only [hentries]; exact List.mem_cons_of_mem _ hin)
    simp only [topSend, Graph.send_fst, hwf.inner_id]
  case send T x value hopen huser hsink =>
    have hx : (G.primitive x).isGlobalCellLoop = false := by
      cases hprimitive : G.primitive x <;>
        simp_all [Primitive.isSink, Primitive.isGlobalCellLoop]
    refine h.send (T := T) (x := x) (w := value) ?_
      (fun T y => lastSent_topSend _ _ _ _ _ _) hopen.2.1 hx
      (oldest_congr rfl (finalized_append rfl (by simp [Event.finalized?]))) rfl
      (fun entry hin => hin)
    simp only [topSend, Graph.send_fst, hwf.inner_id]
  case handleRegister T rest hfront =>
    exact h.of_hooks hhooks.queued rfl rfl rfl rfl rfl
  case finalize T rest store deliveries hfront hrunning hfinalize =>
    have hT := hsim.finalize_oldest hfront hrunning
    refine h.finalize (hwf.inner_id T |>.trans hT) hfinalize rfl (fun T' x => ?_) ?_ rfl rfl
    · exact lastSent_finalize _ _ _ _ _ _
    · exact oldest_finalize rfl rfl
  case update i T c sub sub' r x rest store hi hfront hupdate =>
    have hphase := phaseOf_of_getElem? hwf.tasks_nodup hi
    have hT := (hsim.task_bounds hphase (by simp)).2.2
    have hid : (sub.pop x rest).id = T := (hwf.sub T c sub hphase).id
    have holdest : State.oldest { s with
        tasks := s.tasks.set i ⟨T, c, .executing sub'⟩
        store := store
        trace := s.trace ++ updateEvents G s.store T x } = s.oldest :=
      oldest_congr rfl (finalized_append rfl (finalized?_updateEvents s.store T x))
    rcases Graph.update_cases hupdate with ⟨hooks, hupd, rfl, -⟩ | ⟨value, hooks, hupd, rfl, -⟩
    · rw [hid] at hupd
      refine h.of_eq rfl (fun T' y => ?_) holdest le_rfl rfl
      rw [lastSent_updateEvents, updated, hupd]
      simp
    · rw [hid] at hupd
      have hx : (G.primitive x).isGlobalCellLoop = false := by
        by_contra hglobal
        have := (updater_hooks hupd).1 (by simpa using hglobal)
        cases this
      refine h.send (T := T) (x := x) (w := value) ?_ (fun T' y => ?_) hT hx holdest rfl
        (fun entry hin => hin)
      · simp only [Graph.send_fst]
        exact congrArg (fun id => Function.update s.store x ((s.store x).insert id value)) hid
      · rw [lastSent_updateEvents, updated, hupd]
        simp
  all_goals exact h.of_eq rfl (fun _ _ => rfl) rfl le_rfl rfl

theorem CleanupsAreSends.of_eq (h : CleanupsAreSends s) (hinner : s'.inner = s.inner)
    (htasks : s'.tasks = s.tasks)
    (htrace : ∀ T x, lastSent s'.trace T x = lastSent s.trace T x) : CleanupsAreSends s' := by
  intro T x
  have hphase : ∀ c, s'.phaseOf T c = s.phaseOf T c := fun c => by rw [phaseOf, htasks, phaseOf]
  simp only [hphase, htrace, hinner]
  exact h T x

theorem CleanupsAreSends.topSend (h : CleanupsAreSends s) {T : ID} {x : ι} {value : V}
    (hinner : s'.inner = Function.update s.inner T (G.send x value s.store (s.inner T)).2)
    (htasks : s'.tasks = s.tasks) (htrace : s'.trace = s.trace ++ [.topSend T x value]) :
    CleanupsAreSends s' := by
  refine h.set_inner hinner htasks (fun y => ?_) fun T' y hne => ?_
  · rw [htrace, lastSent_topSend, Graph.send_cleanups, Finset.mem_insert]
    by_cases hy : y = x
    · simp [hy]
    · have hne : ¬ (T = T ∧ x = y) := fun heq => hy heq.2.symm
      rw [if_neg hne, h T y]
      simp [hy]
  · have hne : ¬ (T = T' ∧ x = y) := fun heq => hne heq.1.symm
    rw [htrace, lastSent_topSend, if_neg hne]

theorem CleanupsAreSends.step (h : CleanupsAreSends s) (hvalues : Stored G s) {registered : ID}
    (hsim : Simulated planner G first s registered s.oldest) (hstep : Step G planner s s') :
    CleanupsAreSends s' := by
  have hwf := hsim.wellFormed
  cases hstep
  case register =>
    refine h.set_inner (T := s.nextTransactionId) rfl rfl (fun x => ?_) fun _ _ _ => rfl
    have hnone := hvalues.unregistered s.nextTransactionId x le_rfl
    have hsilent : lastSent s.register.trace s.nextTransactionId x = none := hnone
    simp [hsilent, hsim.phaseOf_none le_rfl, InnerTransaction.new]
  case afterBuildHook => exact h.topSend rfl rfl rfl
  case send => exact h.topSend rfl rfl rfl
  case start T c rest hfront hrunning hfresh =>
    intro T' x
    have hphase : ∀ c', phaseOf { s with tasks := s.tasks ++ [⟨T, c, .queued⟩] } T' c' =
        if T' = T ∧ c' = c then some .queued else s.phaseOf T' c' :=
      phaseOf_append (hsim.phaseOf_none_of_fresh hrunning hfresh) .queued rfl T'
    refine (h T' x).trans (or_congr_right (exists_congr fun c' => exists_congr fun sub => ?_))
    refine and_congr_left fun _ => ?_
    have hphase := hphase c'
    simp only [phaseOf] at hphase ⊢
    rw [hphase]
    split
    · rename_i heq
      obtain ⟨rfl, rfl⟩ := heq
      have hnone := hsim.phaseOf_none_of_fresh hrunning hfresh
      rw [phaseOf] at hnone
      simp [hnone]
    · rfl
  case finalize T rest store deliveries hfront hrunning hfinalize =>
    exact h.of_eq rfl rfl fun T' x => lastSent_finalize _ _ _ _ _ _
  case announce i T c hi =>
    refine h.set_phase hwf hi rfl (fun _ _ _ => .rfl) (fun _ _ _ => rfl) fun x => ?_
    have hsplit := h.split (phaseOf_of_getElem? hwf.tasks_nodup hi) x
    simpa using hsplit
  case generate i T c hi =>
    refine h.set_phase hwf hi rfl (fun T' x hne => ?_) (fun _ _ _ => rfl) fun x => ?_
    · simp [Function.update_of_ne hne]
    · have hsplit := h.split (phaseOf_of_getElem? hwf.tasks_nodup hi) x
      have hcleanups := (G.generateSubTransaction_snd_fields (s.inner T) c).2.2.1
      have hsame : (G.generateSubTransaction (s.inner T) c).1.cleanups = (s.inner T).cleanups := rfl
      simpa [hcleanups, hsame] using hsplit
  case update i T c sub sub' r x rest store hi hfront hupdate =>
    have hphase := phaseOf_of_getElem? hwf.tasks_nodup hi
    have hid : (sub.pop x rest).id = T := (hwf.sub T c sub hphase).id
    refine h.set_phase hwf hi rfl (fun _ _ _ => .rfl) (fun T' y hne => ?_) fun y => ?_
    · have hne : ¬ (T = T' ∧ x = y) := fun heq => hne heq.1.symm
      rw [lastSent_updateEvents, if_neg hne]
    · have hsplit := h.split hphase y
      simp only [TaskPhase.executing.injEq, exists_eq_left'] at hsplit ⊢
      have hsame : ∀ hooks, (Graph.withHooks (sub.pop x rest) hooks).cleanups = sub.cleanups :=
        fun _ => rfl
      rw [lastSent_updateEvents, updated]
      rcases Graph.update_cases hupdate with ⟨hooks, hupd, -, rfl⟩ | ⟨value, hooks, hupd, -, rfl⟩
      · rw [hid] at hupd
        rw [hupd, hsame]
        simpa using hsplit
      · rw [hid] at hupd
        rw [hupd, Graph.send_cleanups, hsame, Finset.mem_insert]
        by_cases hy : y = x
        · simp [hy]
        · have hne : ¬ (T = T ∧ x = y) := fun heq => hy heq.2.symm
          rw [if_neg hne]
          simpa [hy] using hsplit
  case collect i T c sub hi hfront =>
    have hframe := G.registerExecutionResult_frame (s.inner T) sub
    refine h.set_phase hwf hi rfl (fun T' x hne => ?_) (fun _ _ _ => rfl) fun x => ?_
    · simp [Function.update_of_ne hne]
    · have hsplit := h.split (phaseOf_of_getElem? hwf.tasks_nodup hi) x
      simp only [TaskPhase.executing.injEq, exists_eq_left'] at hsplit
      have hcleanups : (G.registerExecutionResult (s.inner T) sub.executeResult).1.cleanups =
          (s.inner T).cleanups ∪ sub.cleanups := by
        rw [hframe]
      simp only [Function.update_self, hcleanups, Finset.mem_union, or_assoc]
      simpa using hsplit
  case buffer i T c futures hooks hi =>
    refine h.set_phase hwf hi rfl (fun _ _ _ => .rfl) (fun _ _ _ => rfl) fun x => ?_
    have hsplit := h.split (phaseOf_of_getElem? hwf.tasks_nodup hi) x
    simpa using hsplit
  case finish i T c futures hi =>
    refine h.set_phase hwf hi rfl (fun _ _ _ => .rfl) (fun _ _ _ => rfl) fun x => ?_
    have hsplit := h.split (phaseOf_of_getElem? hwf.tasks_nodup hi) x
    simpa using hsplit
  all_goals exact h.of_eq rfl rfl fun _ _ => rfl

theorem Reached.recorded (h : Reached planner G first s) : Recorded G s := by
  induction h with
  | refl => exact recorded_init
  | tail hreach hstep ih =>
      obtain ⟨registered, hsim⟩ := Reached.simulated hreach
      exact
        { hooks := ih.hooks.step hsim.wellFormed
            (fun T c => hsim.phaseOf_none_of_fresh) hstep
          values := ih.values.step ih.hooks hsim hstep
          cleanups := ih.cleanups.step ih.values hsim hstep }

end State

end Prf
