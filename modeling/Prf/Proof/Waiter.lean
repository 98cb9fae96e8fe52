import Prf.Library.Termination
import Prf.Waiter

/-!
# What a waiter promises

Whoever has learnt from a `Waiter` that something is done may delete it, so the call of `done` has
to be over by then; and whoever waits has to be woken, also when `done` comes between the evaluation
of the predicate and the blocking. Both rest on `done` storing and notifying under `mtx`.
-/

namespace Prf

namespace WaiterPoint

def holdsLock : WaiterPoint → Bool
  | outside | blocked | woken => false
  | _ => true

/-- The thread is in `done`. -/
def inDone : WaiterPoint → Bool
  | stores | notifies | leavesDone => true
  | _ => false

/-- How many steps a thread may need to get out, once `done` has been called. -/
def weight : WaiterPoint → ℕ
  | .outside => 0
  | .stores => 3
  | .notifies => 2
  | .leavesDone => 1
  | .checks => 2
  | .blocks => 5
  | .blocked => 4
  | .woken => 3
  | .returns => 1
  | .loads => 2
  | .sampled _ => 1

end WaiterPoint

namespace Waiter

variable {θ : Type} {w w' : Waiter θ} {t : θ}

/-! ## The line under the lock -/

def current (w : Waiter θ) : WaiterPoint :=
  w.mtx.elim .outside w.point

def Fits (w : Waiter θ) : WaiterPoint → Prop
  | .stores => w.doneCalls ≤ 1 → w.alreadyDone = false
  | .notifies | .leavesDone => w.alreadyDone = true ∧ (w.doneCalls ≤ 1 → w.observed = false)
  | .blocks => w.alreadyDone = false
  | .returns => w.alreadyDone = true
  | .sampled result => result = true → w.alreadyDone = true
  | _ => True

structure Inv (w : Waiter θ) : Prop where
  holder : ∀ t, (w.point t).holdsLock = true ↔ w.mtx = some t
  fits : w.Fits w.current
  observed : w.observed = true → w.alreadyDone = true
  called : w.alreadyDone = true ∨ w.current = .stores ↔ 0 < w.doneCalls
  sleeps : w.alreadyDone = true → w.current = .notifies ∨ ∀ t, w.point t ≠ .blocked

theorem inv_init : (init : Waiter θ).Inv := by
  constructor <;> simp [init, current, Fits, WaiterPoint.holdsLock]

theorem Inv.current_eq (h : w.Inv) (hholds : (w.point t).holdsLock = true) :
    w.current = w.point t := by
  rw [current, (h.holder t).mp hholds]
  rfl

theorem Inv.next (h : w.Inv) (point : WaiterPoint) (hmine : w.mtx = none ∨ w.mtx = some t)
    (hself : w'.point t = point)
    (hothers : ∀ u, u ≠ t → (w'.point u).holdsLock = (w.point u).holdsLock)
    (hmtx : w'.mtx = if point.holdsLock then some t else none) (hfits : w'.Fits point)
    (hobserved : w'.observed = true → w'.alreadyDone = true)
    (hcalled : w'.alreadyDone = true ∨ point = .stores ↔ 0 < w'.doneCalls)
    (hsleeps : w'.alreadyDone = true → point = .notifies ∨ ∀ u, w'.point u ≠ .blocked) :
    w'.Inv := by
  have hcurrent : w'.current = if point.holdsLock then point else .outside := by
    rw [current, hmtx]
    split
    · exact hself
    · rfl
  have halone : ∀ u, u ≠ t → (w'.point u).holdsLock = false := by
    intro u hu
    by_contra hholds
    rw [hothers u hu] at hholds
    have hlocked := (h.holder u).mp (by simpa using hholds)
    rcases hmine with hnone | hsome
    · simp [hnone] at hlocked
    · exact hu (Option.some.inj (hlocked.symm.trans hsome))
  refine ⟨fun u => ?_, ?_, hobserved, ?_, fun hdone => ?_⟩
  · by_cases hu : u = t
    · rw [hu, hself, hmtx]
      split <;> simp_all
    · rw [halone u hu, hmtx]
      split <;> simp [Ne.symm hu]
  · rw [hcurrent]
    split
    · exact hfits
    · trivial
  · rw [hcurrent, ← hcalled]
    cases point <;> simp [WaiterPoint.holdsLock]
  · rw [hcurrent]
    refine (hsleeps hdone).imp_left ?_
    rintro rfl
    rfl

theorem Inv.line (h : w.Inv) {point : WaiterPoint} (hpoint : w.point t = point)
    (hholds : point.holdsLock = true) : w.mtx = some t ∧ w.current = point ∧ w.Fits point := by
  subst hpoint
  have hcurrent := h.current_eq hholds
  exact ⟨(h.holder t).mp hholds, hcurrent, hcurrent ▸ h.fits⟩

theorem notifyAll_point_ne (w : Waiter θ) (t : θ) : w.notifyAll.point t ≠ .blocked := by
  simp only [notifyAll]
  split
  · exact fun h => by cases h
  · assumption

theorem notifyAll_holdsLock (w : Waiter θ) (t : θ) :
    (w.notifyAll.point t).holdsLock = (w.point t).holdsLock := by
  simp only [notifyAll]
  split
  case isTrue hblocked => rw [hblocked]; rfl
  case isFalse => rfl

theorem notifyAll_weight_le (w : Waiter θ) (t : θ) :
    (w.notifyAll.point t).weight ≤ (w.point t).weight := by
  simp only [notifyAll]
  split
  case isTrue hblocked =>
    rw [hblocked]
    decide
  case isFalse => exact le_rfl

variable [DecidableEq θ]

theorem goto_point (w : Waiter θ) (t u : θ) (point : WaiterPoint) :
    (w.goto t point).point u = if u = t then point else w.point u :=
  Function.update_apply ..

theorem Inv.move (h : w.Inv) (point : WaiterPoint) (hmine : w.mtx = none ∨ w.mtx = some t)
    (hpoint : w'.point = (w.goto t point).point)
    (hmtx : w'.mtx = if point.holdsLock then some t else none)
    (hdone : w'.alreadyDone = w.alreadyDone) (hcalls : w'.doneCalls = w.doneCalls)
    (hbefore : w.current ≠ .stores ∧ w.current ≠ .notifies)
    (hafter : point ≠ .stores ∧ (point = .blocked → w.alreadyDone = false)) (hfits : w'.Fits point)
    (hobserved : w'.observed = true → w'.alreadyDone = true) : w'.Inv := by
  have hothers : ∀ u, u ≠ t → w'.point u = w.point u := fun u hu => by
    rw [hpoint, goto_point, if_neg hu]
  have hself : w'.point t = point := by rw [hpoint, goto_point, if_pos rfl]
  refine h.next point hmine hself (fun u hu => by rw [hothers u hu]) hmtx hfits hobserved ?_
    fun hd => ?_
  · rw [hdone, hcalls, ← h.called]
    simp [hbefore.1, hafter.1]
  · rw [hdone] at hd
    refine .inr fun u => ?_
    have hasleep := (h.sleeps hd).resolve_left hbefore.2 u
    by_cases hu : u = t
    · rw [hu, hself]
      intro hblocked
      exact absurd hd (by simp [hafter.2 hblocked])
    · rwa [hothers u hu]

/-! ## A step -/

theorem Inv.store (h : w.Inv) (hpoint : w.point t = .stores) :
    Inv { w.goto t .notifies with alreadyDone := true } := by
  obtain ⟨hmtx, hcurrent, hfits⟩ := h.line hpoint rfl
  refine h.next .notifies (.inr hmtx) (by simp [goto_point]) (fun u hu => ?_) hmtx ?_ ?_ ?_ ?_
  · simp [goto_point, hu]
  · refine ⟨rfl, fun hcalls => ?_⟩
    by_contra hobserved
    have hdone := h.observed (by simpa [goto] using hobserved)
    simp [hfits hcalls] at hdone
  · exact fun _ => rfl
  · simpa [goto] using h.called.mp (.inr hcurrent)
  · exact fun _ => .inl rfl

theorem Inv.notify (h : w.Inv) (hpoint : w.point t = .notifies) :
    (w.notifyAll.goto t .leavesDone).Inv := by
  obtain ⟨hmtx, hcurrent, hdone, hunseen⟩ := h.line hpoint rfl
  refine h.next .leavesDone (.inr hmtx) (by simp [goto_point]) (fun u hu => ?_) hmtx
    ⟨hdone, hunseen⟩ (fun _ => hdone) ?_ fun _ => .inr fun u => ?_
  · simp [goto_point, hu, notifyAll_holdsLock]
  · simpa [goto, notifyAll, hdone] using h.called.mp (.inl hdone)
  · rw [goto_point]
    split
    · exact fun hblocked => by cases hblocked
    · exact notifyAll_point_ne w u

theorem Inv.advance (h : w.Inv) (hadvance : w.advance t = some w') : w'.Inv := by
  unfold Waiter.advance at hadvance
  cases hpoint : w.point t with
  | outside => simp [hpoint] at hadvance
  | blocked => simp [hpoint] at hadvance
  | stores =>
    simp only [hpoint, Option.some.injEq] at hadvance
    exact hadvance ▸ h.store hpoint
  | notifies =>
    simp only [hpoint, Option.some.injEq] at hadvance
    exact hadvance ▸ h.notify hpoint
  | woken =>
    simp only [hpoint, enter, Option.ite_none_right_eq_some, Option.some.injEq] at hadvance
    obtain ⟨hfree, rfl⟩ := hadvance
    have hidle : w.current = .outside := by rw [current, hfree]; rfl
    exact h.move .checks (.inl hfree) rfl rfl rfl rfl (by simp [hidle]) (by simp) trivial h.observed
  | leavesDone =>
    obtain ⟨hmtx, hcurrent, -⟩ := h.line hpoint rfl
    simp only [hpoint, Option.some.injEq] at hadvance
    subst hadvance
    exact h.move .outside (.inr hmtx) rfl rfl rfl rfl (by simp [hcurrent]) (by simp) trivial
      h.observed
  | checks =>
    obtain ⟨hmtx, hcurrent, -⟩ := h.line hpoint rfl
    simp only [hpoint, Option.some.injEq] at hadvance
    subst hadvance
    have hbefore : w.current ≠ .stores ∧ w.current ≠ .notifies := by simp [hcurrent]
    cases hdone : w.alreadyDone with
    | true => exact h.move .returns (.inr hmtx) rfl hmtx rfl rfl hbefore (by simp) hdone h.observed
    | false => exact h.move .blocks (.inr hmtx) rfl hmtx rfl rfl hbefore (by simp) hdone h.observed
  | blocks =>
    obtain ⟨hmtx, hcurrent, hfits⟩ := h.line hpoint rfl
    simp only [hpoint, Option.some.injEq] at hadvance
    subst hadvance
    exact h.move .blocked (.inr hmtx) rfl rfl rfl rfl (by simp [hcurrent]) ⟨by simp, fun _ => hfits⟩
      trivial h.observed
  | returns =>
    obtain ⟨hmtx, hcurrent, hfits⟩ := h.line hpoint rfl
    simp only [hpoint, Option.some.injEq] at hadvance
    subst hadvance
    exact h.move .outside (.inr hmtx) rfl rfl rfl rfl (by simp [hcurrent]) (by simp) trivial
      fun _ => hfits
  | loads =>
    obtain ⟨hmtx, hcurrent, -⟩ := h.line hpoint rfl
    simp only [hpoint, Option.some.injEq] at hadvance
    subst hadvance
    exact h.move (.sampled w.alreadyDone) (.inr hmtx) rfl hmtx rfl rfl (by simp [hcurrent])
      (by simp) (fun hdone => hdone) h.observed
  | sampled result =>
    obtain ⟨hmtx, hcurrent, hfits⟩ := h.line hpoint rfl
    simp only [hpoint, Option.some.injEq] at hadvance
    subst hadvance
    refine h.move .outside (.inr hmtx) rfl rfl rfl rfl (by simp [hcurrent]) (by simp) trivial ?_
    simp only [Bool.or_eq_true]
    exact fun hor => hor.elim h.observed hfits

theorem Inv.wake (h : w.Inv) (hpoint : w.point t = .blocked) : (w.goto t .woken).Inv := by
  have hholds : ∀ u, ((w.goto t .woken).point u).holdsLock = (w.point u).holdsLock := by
    intro u
    rw [goto_point]
    split
    case isTrue hu => rw [hu, hpoint]; rfl
    case isFalse => rfl
  have hcurrent : (w.goto t .woken).current = w.current := by
    simp only [current, goto]
    cases hmtx : w.mtx with
    | none => rfl
    | some u =>
      have hlocked := (h.holder u).mpr hmtx
      have hu : u ≠ t := by
        rintro rfl
        simp [hpoint, WaiterPoint.holdsLock] at hlocked
      simp [hu]
  refine ⟨fun u => ?_, ?_, h.observed, ?_, fun hdone => ?_⟩
  · rw [hholds]
    exact h.holder u
  · rw [hcurrent]
    exact h.fits
  · rw [hcurrent]
    exact h.called
  · rw [hcurrent]
    refine (h.sleeps hdone).imp_right fun hnone u => ?_
    rw [goto_point]
    split
    · simp
    · exact hnone u

theorem Inv.enterDone (h : w.Inv) (hfree : w.mtx = none) :
    Inv { w.goto t .stores with mtx := some t, doneCalls := w.doneCalls + 1 } := by
  have hidle : w.current = .outside := by rw [current, hfree]; rfl
  have hawake : w.alreadyDone = true → ∀ u, w.point u ≠ .blocked := fun hdone =>
    (h.sleeps hdone).resolve_left (by simp [hidle])
  refine h.next .stores (.inl hfree) (by simp [goto_point]) (fun u hu => ?_) rfl (fun hcalls => ?_)
    h.observed (by simp) fun hdone => .inr fun u => ?_
  · simp [goto_point, hu]
  · have hnever : w.doneCalls = 0 := by
      simpa using hcalls
    by_contra hdone
    have hcalled := h.called.mp (.inl (by simpa [goto] using hdone))
    omega
  · show (w.goto t .stores).point u ≠ .blocked
    rw [goto_point]
    split
    · simp
    · exact hawake hdone u

theorem Inv.step (h : w.Inv) {action : WaiterAction θ} (hstep : w.step action = some w') :
    w'.Inv := by
  cases action with
  | done t =>
    simp only [Waiter.step, enter, Option.ite_none_right_eq_some, Option.map_eq_some_iff,
      Option.some.injEq] at hstep
    obtain ⟨-, _, ⟨hfree, rfl⟩, rfl⟩ := hstep
    exact h.enterDone hfree
  | wait t =>
    simp only [Waiter.step, enter, Option.ite_none_right_eq_some, Option.some.injEq] at hstep
    obtain ⟨-, hfree, rfl⟩ := hstep
    have hidle : w.current = .outside := by rw [current, hfree]; rfl
    exact h.move .checks (.inl hfree) rfl rfl rfl rfl (by simp [hidle]) (by simp) trivial h.observed
  | sample t =>
    simp only [Waiter.step, enter, Option.ite_none_right_eq_some, Option.some.injEq] at hstep
    obtain ⟨-, hfree, rfl⟩ := hstep
    have hidle : w.current = .outside := by rw [current, hfree]; rfl
    exact h.move .loads (.inl hfree) rfl rfl rfl rfl (by simp [hidle]) (by simp) trivial h.observed
  | spurious t =>
    simp only [Waiter.step, Option.ite_none_right_eq_some, Option.some.injEq] at hstep
    exact hstep.2 ▸ h.wake hstep.1
  | advance t => exact h.advance hstep

theorem Inv.run {actions : List (WaiterAction θ)} (h : w.Inv)
    (hrun : actions.foldlM Waiter.step w = some w') : w'.Inv :=
  Termination.keeps (fun _ _ _ h hstep => h.step hstep) h hrun

/-! ## The way out -/

theorem advance_ne_none (hholds : (w.point t).holdsLock = true) :
    w.advance t ≠ none := by
  unfold Waiter.advance
  cases hpoint : w.point t <;> simp_all [WaiterPoint.holdsLock]

/-- Once `done` has been called, only those that no call is keeping are at rest. -/
theorem Inv.rest (h : w.Inv) (hcalled : 0 < w.doneCalls) (hrest : ∀ t, w.advance t = none) (t : θ) :
    w.point t = .outside := by
  have hfree : w.mtx = none := by
    by_contra hlocked
    obtain ⟨u, hu⟩ := Option.ne_none_iff_exists'.mp hlocked
    exact advance_ne_none ((h.holder u).mpr hu) (hrest u)
  have hidle : w.current = .outside := by rw [current, hfree]; rfl
  have hdone : w.alreadyDone = true := by simpa [hidle] using h.called.mpr hcalled
  have hawake := (h.sleeps hdone).resolve_left (by simp [hidle])
  have hunlocked : (w.point t).holdsLock = false := by
    by_contra hholds
    have hlocked := (h.holder t).mp (by simpa using hholds)
    simp [hfree] at hlocked
  have hstuck := hrest t
  cases hpoint : w.point t with
  | outside => rfl
  | blocked => exact absurd hpoint (hawake t)
  | woken => simp [Waiter.advance, hpoint, enter, hfree] at hstuck
  | _ => simp [hpoint, WaiterPoint.holdsLock] at hunlocked

theorem doneCalls_step {action : WaiterAction θ} (hown : action.isCall = false)
    (hstep : w.step action = some w') : w'.doneCalls = w.doneCalls := by
  cases action with
  | done t => cases hown
  | wait t => cases hown
  | sample t => cases hown
  | spurious t =>
    simp only [Waiter.step, Option.ite_none_right_eq_some, Option.some.injEq] at hstep
    exact hstep.2 ▸ rfl
  | advance t =>
    simp only [Waiter.step, Waiter.advance] at hstep
    cases hpoint : w.point t with
    | woken =>
      simp only [hpoint, enter, Option.ite_none_right_eq_some, Option.some.injEq] at hstep
      exact hstep.2 ▸ rfl
    | outside => simp [hpoint] at hstep
    | blocked => simp [hpoint] at hstep
    | _ =>
      simp only [hpoint, Option.some.injEq] at hstep
      exact hstep ▸ rfl

variable [Fintype θ]

def remaining (w : Waiter θ) : ℕ := ∑ t, (w.point t).weight

omit [DecidableEq θ] in
theorem remaining_lt (hself : (w'.point t).weight < (w.point t).weight)
    (hothers : ∀ u, u ≠ t → (w'.point u).weight ≤ (w.point u).weight) :
    w'.remaining < w.remaining := by
  apply Finset.sum_lt_sum
  · intro u _
    by_cases hu : u = t
    · exact hu ▸ hself.le
    · exact hothers u hu
  · exact ⟨t, Finset.mem_univ t, hself⟩

theorem remaining_goto_lt {point : WaiterPoint} (hpoint : w'.point = (w.goto t point).point)
    (hlt : point.weight < (w.point t).weight) : w'.remaining < w.remaining := by
  apply remaining_lt (t := t)
  · rwa [hpoint, goto_point, if_pos rfl]
  · intro u hu
    rw [hpoint, goto_point, if_neg hu]

omit [DecidableEq θ] in
theorem remaining_le (w : Waiter θ) : w.remaining ≤ 5 * Fintype.card θ := by
  have hweight : ∀ t, (w.point t).weight ≤ 5 := by
    intro t
    cases w.point t <;> simp [WaiterPoint.weight]
  calc w.remaining ≤ ∑ _t : θ, 5 := Finset.sum_le_sum fun t _ => hweight t
    _ = 5 * Fintype.card θ := by simp [mul_comm]

/-- Once `done` has been called, every line brings its thread nearer to the end of its call. -/
theorem Inv.remaining_advance_lt (h : w.Inv) (hcalled : 0 < w.doneCalls)
    (hadvance : w.advance t = some w') : w'.remaining < w.remaining := by
  unfold Waiter.advance at hadvance
  cases hpoint : w.point t with
  | outside => simp [hpoint] at hadvance
  | blocked => simp [hpoint] at hadvance
  | checks =>
    have hcurrent := (h.line hpoint rfl).2.1
    have hdone : w.alreadyDone = true := by simpa [hcurrent] using h.called.mpr hcalled
    simp only [hpoint, hdone, if_true, Option.some.injEq] at hadvance
    exact hadvance ▸ remaining_goto_lt rfl (by rw [hpoint]; decide)
  | notifies =>
    simp only [hpoint, Option.some.injEq] at hadvance
    subst hadvance
    refine remaining_lt (t := t) ?_ fun u hu => ?_
    · rw [goto_point, if_pos rfl, hpoint]
      decide
    · rw [goto_point, if_neg hu]
      exact notifyAll_weight_le w u
  | woken =>
    simp only [hpoint, enter, Option.ite_none_right_eq_some, Option.some.injEq] at hadvance
    exact hadvance.2 ▸ remaining_goto_lt rfl (by rw [hpoint]; decide)
  | _ =>
    simp only [hpoint, Option.some.injEq] at hadvance
    exact hadvance ▸ remaining_goto_lt rfl (by simp [hpoint, WaiterPoint.weight])

theorem Inv.remaining_lt (h : w.Inv) (hcalled : 0 < w.doneCalls) {action : WaiterAction θ}
    (hown : action.isCall = false) (hstep : w.step action = some w') :
    w'.remaining < w.remaining := by
  cases action with
  | done t => cases hown
  | wait t => cases hown
  | sample t => cases hown
  | spurious t =>
    simp only [Waiter.step, Option.ite_none_right_eq_some, Option.some.injEq] at hstep
    exact hstep.2 ▸ remaining_goto_lt rfl (by rw [hstep.1]; decide)
  | advance t => exact h.remaining_advance_lt hcalled hstep

theorem Inv.length_le (h : w.Inv) (hcalled : 0 < w.doneCalls) {actions : List (WaiterAction θ)}
    (hown : ∀ action ∈ actions, action.isCall = false)
    (hrun : actions.foldlM Waiter.step w = some w') :
    actions.length ≤ w.remaining ∧ 0 < w'.doneCalls := by
  induction actions generalizing w with
  | nil =>
    obtain rfl := Option.some.inj hrun
    exact ⟨Nat.zero_le _, hcalled⟩
  | cons action actions ih =>
    obtain ⟨hown, howns⟩ := List.forall_mem_cons.mp hown
    rw [List.foldlM_cons] at hrun
    obtain ⟨v, hstep, hrun⟩ := Option.bind_eq_some_iff.mp hrun
    have hlt := h.remaining_lt hcalled hown hstep
    have hcalls := doneCalls_step hown hstep
    obtain ⟨hlength, hstill⟩ := ih (h.step hstep) (hcalls ▸ hcalled) howns hrun
    refine ⟨?_, hstill⟩
    rw [List.length_cons]
    omega

/-- Once a `wait` has returned or a `sample` has returned true, `done` has been called, and where it
is called only once its call is over. And once it has been called, whoever is at the `Waiter` is
through after a bounded number of steps, also when it is woken for no reason. -/
theorem released {actions : List (WaiterAction θ)}
    (hrun : actions.foldlM Waiter.step init = some w) :
    (w.observed = true → 0 < w.doneCalls ∧ (w.doneCalls ≤ 1 → ∀ t, (w.point t).inDone = false)) ∧
      (0 < w.doneCalls → ∀ (actions' : List (WaiterAction θ)) (w' : Waiter θ),
        (∀ action ∈ actions', action.isCall = false) →
        actions'.foldlM Waiter.step w = some w' →
        actions'.length ≤ 5 * Fintype.card θ ∧
          ((∀ t, w'.advance t = none) → ∀ t, w'.point t = .outside)) := by
  have h : w.Inv := inv_init.run hrun
  refine ⟨fun hobserved => ⟨?_, fun hcalls t => ?_⟩, fun hcalled actions' w' hown hrun' => ?_⟩
  · exact h.called.mp (.inl (h.observed hobserved))
  · by_contra hin
    have hin : (w.point t).inDone = true := by simpa using hin
    have hholds : (w.point t).holdsLock = true := by
      cases hpoint : w.point t <;> simp_all [WaiterPoint.inDone, WaiterPoint.holdsLock]
    obtain ⟨-, -, hfits⟩ := h.line rfl hholds
    have hdone := h.observed hobserved
    cases hpoint : w.point t <;> simp_all [WaiterPoint.inDone, Fits]
  · obtain ⟨hlength, hstill⟩ := h.length_le hcalled hown hrun'
    exact ⟨hlength.trans w.remaining_le, (h.run hrun').rest hstill⟩

/-- `false` waits and has gone to sleep before `true` calls `done`. -/
def slept : List (WaiterAction Bool) :=
  [.wait false, .advance false, .advance false, .done true, .advance true, .advance true,
    .advance true, .advance false, .advance false, .advance false]

theorem released_slept :
    ((slept.foldlM step init).getD init).observed = true ∧
      (∀ t, (((slept.foldlM step init).getD init).point t).inDone = false) ∧
      ∀ (actions : List (WaiterAction Bool)) (w : Waiter Bool),
        (∀ action ∈ actions, action.isCall = false) →
        actions.foldlM step ((slept.foldlM step init).getD init) = some w →
        actions.length ≤ 5 * Fintype.card Bool ∧
          ((∀ t, w.advance t = none) → ∀ t, w.point t = .outside) := by
  have hsome : (slept.foldlM step init).isSome = true := by decide
  have hrun : slept.foldlM step init = some ((slept.foldlM step init).getD init) := by
    obtain ⟨w, hw⟩ := Option.isSome_iff_exists.mp hsome
    rw [hw]
    rfl
  have hobserved : ((slept.foldlM step init).getD init).observed = true := by decide
  have h := released hrun
  obtain ⟨hcalled, hover⟩ := h.1 hobserved
  exact ⟨hobserved, hover (by decide), h.2 hcalled⟩

end Waiter

end Prf
