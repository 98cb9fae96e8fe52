import Prf.Thread

/-!
# The wake-up of `stop_execution`

`notify_stop` takes no lock, so it can come between the evaluation of a predicate and the blocking of
its thread, and then nobody wakes that thread. This is the only way in which it is missed.
-/

namespace Prf

open Relation

namespace Threads

variable {θ α : Type} [DecidableEq θ] {q q' : Threads θ α}

/-- The step is `notify_stop`. -/
def NotifiesStop (q q' : Threads θ α) : Prop :=
  q.stopExecution = .stored ∧ q'.stopExecution = .notified

/-- The flag is set, `notify_stop` is over, and a thread sleeps on. -/
def StopLost (q : Threads θ α) : Prop :=
  q.stopTheThreads = true ∧ q.stopExecution = .notified ∧ ∃ t, q.point t = .blocked

theorem goto_point (t u : θ) (point : Point α) :
    (q.goto t point).point u = if u = t then point else q.point u :=
  Function.update_apply ..

omit [DecidableEq θ] in
theorem notifyAll_point (t : θ) :
    q.notifyAll.point t = q.point t ∧ q.point t ≠ .blocked ∨ q.notifyAll.point t = .woken := by
  cases h : q.point t <;> simp [notifyAll, h]

theorem NotifyOne.point_cases (h : NotifyOne q q') (t : θ) :
    q'.point t = q.point t ∨ q'.point t = .woken := by
  cases h with
  | nobody => exact .inl rfl
  | wakes u hblocked =>
      rw [goto_point]
      split
      · exact .inr rfl
      · exact .inl rfl

theorem NotifyOne.stop_eq (h : NotifyOne q q') :
    q'.stopTheThreads = q.stopTheThreads ∧ q'.stopExecution = q.stopExecution := by
  cases h <;> exact ⟨rfl, rfl⟩

/-- What a step of a thread or of `stop_execution` changes for a thread that is not running freely:
it comes to block only where its predicate is false, and it sleeps only after that. -/
theorem Step.point_cases (hstep : Step q q') (t : θ) :
    (q'.point t = .blocks → q.point t = .blocks ∨ q.stopTheThreads = false) ∧
      (q'.point t = .blocked → q.point t = .blocks ∨
        q.point t = .blocked ∧ ¬ NotifiesStop q q') := by
  cases hstep with
  | notifyPushed u value hpoint hnotify | notifyTook u value hpoint hdata hnotify =>
      have hcases := hnotify.point_cases t
      have hstop := hnotify.stop_eq
      simp only [goto_point, NotifiesStop]
      grind [goto]
  | notifyStop hpoint =>
      have hcases := notifyAll_point (q := q) t
      grind
  | _ =>
      simp only [goto, lock, unlock, append, remove, Function.update_apply, NotifiesStop]
      grind

structure StopHeard (q : Threads θ α) : Prop where
  stored : q.stopExecution ≠ .idle → q.stopTheThreads = true
  heard : q.stopExecution = .notified → ∀ t, q.point t ≠ .blocks ∧ q.point t ≠ .blocked

theorem Step.stop_cases (hstep : Step q q') :
    q'.stopTheThreads = q.stopTheThreads ∧ q'.stopExecution = q.stopExecution ∨
      q'.stopTheThreads = true ∧ q'.stopExecution = .stored ∨
      q'.stopTheThreads = q.stopTheThreads ∧ NotifiesStop q q' ∨
      q'.stopExecution = .idle := by
  cases hstep with
  | notifyPushed u value hpoint hnotify | notifyTook u value hpoint hdata hnotify =>
      exact .inl hnotify.stop_eq
  | storeStop hpoint => exact .inr (.inl ⟨rfl, rfl⟩)
  | notifyStop hpoint => exact .inr (.inr (.inl ⟨rfl, hpoint, rfl⟩))
  | resetStop hpoint => exact .inr (.inr (.inr rfl))
  | _ => exact .inl ⟨rfl, rfl⟩

theorem Step.eq_of_notifiesStop (hstep : Step q q') (h : NotifiesStop q q') :
    q' = { q.notifyAll with stopExecution := .notified } := by
  obtain ⟨hstored, hnotified⟩ := h
  cases hstep with
  | notifyPushed u value hpoint hnotify | notifyTook u value hpoint hdata hnotify =>
      have hsame := hnotify.stop_eq.2
      simp_all [goto]
  | notifyStop hpoint => rfl
  | storeStop hpoint => cases hnotified
  | resetStop hpoint => cases hnotified
  | _ => exact absurd (hstored.symm.trans hnotified) (by decide)

theorem Step.stored (hstep : Step q q') (h : q.stopExecution ≠ .idle → q.stopTheThreads = true) :
    q'.stopExecution ≠ .idle → q'.stopTheThreads = true := by
  have hcases := hstep.stop_cases
  simp only [NotifiesStop] at hcases
  grind

/-- A `notify_stop` that finds no thread about to block is heard by all, and from then on every
predicate is true. -/
theorem Step.stopHeard (hstep : Step q q') (h : q.StopHeard)
    (hnotifies : NotifiesStop q q' → ∀ t, q.point t ≠ .blocks) : q'.StopHeard where
  stored := hstep.stored h.stored
  heard := by
    intro hnotified t
    have hpoint := hstep.point_cases t
    rcases hstep.stop_cases with ⟨-, hsame⟩ | ⟨-, hstored⟩ | ⟨-, hnotify⟩ | hidle
    · have hbefore : q.stopExecution = .notified := hsame ▸ hnotified
      have hstop := h.stored (by simp [hbefore])
      have hheard := h.heard hbefore t
      simp_all
    · simp [hnotified] at hstored
    · have hblocks := hnotifies hnotify t
      have hstop := h.stored (by simp [hnotify.1])
      simp_all
    · simp [hnotified] at hidle

/-- In every run in which no `notify_stop` finds a thread between its false predicate and its
blocking, the wake-up is not lost. -/
theorem not_stopLost
    (hrun : ReflTransGen (fun q q' : Threads θ α =>
      Step q q' ∧ (NotifiesStop q q' → ∀ t, q.point t ≠ .blocks)) init q) :
    ¬ q.StopLost := by
  have hheard : q.StopHeard := by
    induction hrun with
    | refl => exact ⟨by simp [init], by simp [init]⟩
    | tail _ hstep ih => exact hstep.1.stopHeard ih hstep.2
  rintro ⟨-, hnotified, t, hblocked⟩
  exact (hheard.heard hnotified t).2 hblocked

/-- A consumer is asleep when `stop_execution` begins, and wakes up. -/
theorem not_stopLost_sleeping :
    ∃ q : Threads Unit ℕ, q.stopExecution = .notified ∧ q.point () = .woken ∧
      ¬ q.StopLost := by
  let q₀ : Threads Unit ℕ := init
  let q₁ := (q₀.lock ()).goto () .checks
  let q₂ := q₁.goto () .blocks
  let q₃ := q₂.unlock.goto () .blocked
  let q₄ : Threads Unit ℕ := { q₃ with stopTheThreads := true, stopExecution := .stored }
  have h₁ : Step q₀ q₁ := .enterPop () rfl rfl
  have h₂ : Step q₁ q₂ := .checkFalse () rfl rfl rfl
  have h₃ : Step q₂ q₃ := .block () rfl
  have h₄ : Step q₃ q₄ := .storeStop rfl
  have h₅ : Step q₄ { q₄.notifyAll with stopExecution := .notified } := .notifyStop rfl
  have hblocked : ∀ t, q₄.point t ≠ .blocks := by
    rintro ⟨⟩ h
    cases h
  refine ⟨_, rfl, rfl, not_stopLost (((((ReflTransGen.single ⟨h₁, ?_⟩).tail ⟨h₂, ?_⟩).tail
    ⟨h₃, ?_⟩).tail ⟨h₄, ?_⟩).tail ⟨h₅, fun _ => hblocked⟩)⟩ <;>
  · intro h
    cases h.1

/-- Between its false predicate and its blocking a thread misses both the flag and the
notification. -/
theorem stopLost_window :
    ¬ ∀ (θ α : Type) (_ : DecidableEq θ) (q : Threads θ α), ReflTransGen Step init q →
      ¬ q.StopLost := by
  intro hall
  let q₀ : Threads Unit ℕ := init
  let q₁ := (q₀.lock ()).goto () .checks
  let q₂ := q₁.goto () .blocks
  let q₃ : Threads Unit ℕ := { q₂ with stopTheThreads := true, stopExecution := .stored }
  let q₄ : Threads Unit ℕ := { q₃.notifyAll with stopExecution := .notified }
  have h₁ : Step q₀ q₁ := .enterPop () rfl rfl
  have h₂ : Step q₁ q₂ := .checkFalse () rfl rfl rfl
  have h₃ : Step q₂ q₃ := .storeStop rfl
  have h₄ : Step q₃ q₄ := .notifyStop rfl
  have h₅ : Step q₄ (q₄.unlock.goto () .blocked) := .block () rfl
  exact hall Unit ℕ inferInstance _
    (((((ReflTransGen.single h₁).tail h₂).tail h₃).tail h₄).tail h₅) ⟨rfl, rfl, (), rfl⟩

/-- Every `notify_stop` that finds a thread about to block is one step away from being lost. -/
theorem exists_stopLost (hrun : ReflTransGen Step init q) (hstep : Step q q')
    (hnotifies : NotifiesStop q q') {t : θ} (hblocks : q.point t = .blocks) :
    ∃ q'', Step q' q'' ∧ q''.StopLost := by
  have hstored : ∀ q : Threads θ α, ReflTransGen Step init q →
      q.stopExecution ≠ .idle → q.stopTheThreads = true := by
    intro q hrun
    induction hrun with
    | refl => simp [init]
    | tail _ hstep ih => exact hstep.stored ih
  have hstop := hstored q' (hrun.tail hstep) (by simp [hnotifies.2])
  have hstill : q'.point t = .blocks := by
    rw [hstep.eq_of_notifiesStop hnotifies]
    simp [notifyAll, hblocks]
  exact ⟨_, .block t hstill, hstop, hnotifies.2, t, by rw [goto_point, if_pos rfl]⟩

end Threads

end Prf
