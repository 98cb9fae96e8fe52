import Prf.Proof.ConcurrentQueue
import Prf.Thread

/-!
# The operations as single steps

As long as nothing stops the threads, what they do line by line is what they do operation by
operation: a `push` counts when it has notified, a `pop` when it has removed its value and notified,
and a wait when it blocks. So what holds of the one holds of the other whenever the lock is free.
-/

namespace Prf

open Relation

namespace Point

variable {α : Type}

def holdsLock : Point α → Bool
  | outside | blocked | woken => false
  | _ => true

/-- Where the thread is with the condition variable. A `pop` that has been woken counts as woken
until it has got its value or blocks again. -/
def Waits : Point α → Waiting → Prop
  | blocked, w => w = .blocked
  | woken, w => w = .woken
  | checks, w | blocks, w | loadsStop, w | takes, w | took _, w => w ≠ .blocked
  | _, w => w = .outside

theorem Waits.blocked_iff {point : Point α} {w : Waiting} (h : point.Waits w) :
    point = .blocked ↔ w = .blocked := by
  cases point <;> simp_all [Waits]

end Point

namespace Threads

variable {θ α : Type} [DecidableEq θ] {q q' : Threads θ α} {m m' : ConcurrentQueue θ α} {t : θ}

def Shows (q : Threads θ α) (m : ConcurrentQueue θ α) : Point α → Prop
  | .pushed value => q.data = m.data ++ [value] ∧ q.trace = m.trace ++ [.push value]
  | .took value => m.data = value :: q.data ∧ q.trace = m.trace ++ [.remove value]
  | .blocks => q.data = m.data ∧ q.trace = m.trace ∧ q.data = []
  | _ => q.data = m.data ∧ q.trace = m.trace

structure Simulates (q : Threads θ α) (m : ConcurrentQueue θ α) : Prop where
  running : q.stopTheThreads = false ∧ q.stopExecution = .idle
  holder : ∀ t, (q.point t).holdsLock = true ↔ q.dataLock = some t
  waits : ∀ t, (q.point t).Waits (m.waiting t)
  holds : ∀ t, q.dataLock = some t → q.Shows m (q.point t)
  free : q.dataLock = none → q.data = m.data ∧ q.trace = m.trace

omit [DecidableEq θ] in
theorem simulates_init : (init : Threads θ α).Simulates ConcurrentQueue.empty where
  running := ⟨rfl, rfl⟩
  holder t := by simp [init, Point.holdsLock]
  waits t := rfl
  holds t h := by cases h
  free _ := ⟨rfl, rfl⟩

theorem NotifyOne.simulates (hnotify : NotifyOne q q')
    (hwaits : ∀ u, (q.point u).Waits (m.waiting u)) :
    ∃ m', ConcurrentQueue.NotifyOne m m' ∧ ∀ u, (q'.point u).Waits (m'.waiting u) := by
  cases hnotify with
  | nobody hnobody =>
      exact ⟨m, .nobody fun u hu => hnobody u ((hwaits u).blocked_iff.mpr hu), hwaits⟩
  | wakes u hblocked =>
      refine ⟨_, .wakes u ((hwaits u).blocked_iff.mp hblocked), fun v => ?_⟩
      by_cases hv : v = u
      · simp [hv, goto, ConcurrentQueue.setWaiting, Point.Waits]
      · simpa [hv, goto, ConcurrentQueue.setWaiting] using hwaits v

theorem NotifyOne.holdsLock_eq (hnotify : NotifyOne q q') (u : θ) :
    (q'.point u).holdsLock = (q.point u).holdsLock := by
  cases hnotify with
  | nobody => rfl
  | wakes v hblocked =>
      by_cases hu : u = v
      · simp [hu, goto, hblocked, Point.holdsLock]
      · simp [hu, goto]

theorem NotifyOne.fields (hnotify : NotifyOne q q') :
    q'.data = q.data ∧ q'.trace = q.trace ∧ q'.dataLock = q.dataLock ∧
      q'.stopTheThreads = q.stopTheThreads ∧ q'.stopExecution = q.stopExecution := by
  cases hnotify <;> exact ⟨rfl, rfl, rfl, rfl, rfl⟩

omit [DecidableEq θ] in
theorem Simulates.next (h : q.Simulates m) (hmine : q.dataLock = none ∨ q.dataLock = some t)
    (hstop : q'.stopTheThreads = q.stopTheThreads ∧ q'.stopExecution = q.stopExecution)
    (hlock : q'.dataLock = if (q'.point t).holdsLock then some t else none)
    (hothers : ∀ u, u ≠ t → (q'.point u).holdsLock = (q.point u).holdsLock)
    (hwaits : ∀ u, (q'.point u).Waits (m'.waiting u)) (hshows : q'.Shows m' (q'.point t)) :
    q'.Simulates m' where
  running := by rw [hstop.1, hstop.2]; exact h.running
  holder u := by
    by_cases hu : u = t
    · subst hu
      rw [hlock]
      split <;> simp_all
    · have hfree : (q.point u).holdsLock = false := by
        by_contra hholds
        have hlocked := (h.holder u).mp (by simpa using hholds)
        rcases hmine with hnone | hsome
        · simp [hnone] at hlocked
        · exact hu (Option.some.inj (hlocked.symm.trans hsome))
      rw [hothers u hu, hfree, hlock]
      split <;> simp [Ne.symm hu]
  waits := hwaits
  holds u hu := by
    rw [hlock] at hu
    split at hu
    · obtain rfl := Option.some.inj hu
      exact hshows
    · cases hu
  free hnone := by
    rw [hlock] at hnone
    cases hpoint : q'.point t <;> simp_all [Point.holdsLock, Shows]

theorem Simulates.goto (h : q.Simulates m) (hmine : q.dataLock = none ∨ q.dataLock = some t)
    {q₁ : Threads θ α} {point : Point α} (hpoint : q₁.point = q.point)
    (hstop : q₁.stopTheThreads = q.stopTheThreads ∧ q₁.stopExecution = q.stopExecution)
    (hlock : q₁.dataLock = if point.holdsLock then some t else none)
    {w : Waiting} (hwaiting : m'.waiting = Function.update m.waiting t w) (hwaits : point.Waits w)
    (hshows : (q₁.goto t point).Shows m' point) : (q₁.goto t point).Simulates m' := by
  have hself : (q₁.goto t point).point t = point := Function.update_self ..
  refine h.next hmine hstop (by rw [hself]; exact hlock) (fun u hu => ?_) (fun u => ?_)
    (by rwa [hself])
  · simp [Threads.goto, hu, hpoint]
  · by_cases hu : u = t
    · simpa [hu, Threads.goto, hwaiting] using hwaits
    · simpa [hu, Threads.goto, hwaiting, hpoint] using h.waits u

theorem Simulates.spurious (h : q.Simulates m) (hpoint : q.point t = .blocked) :
    (q.goto t .woken).Simulates (m.setWaiting t .woken) where
  running := h.running
  holder u := by
    have hu := h.holder u
    by_cases hut : u = t
    · subst hut
      simp_all [Threads.goto, Point.holdsLock]
    · simpa [Threads.goto, hut] using hu
  waits u := by
    by_cases hu : u = t
    · simp [hu, Threads.goto, ConcurrentQueue.setWaiting, Point.Waits]
    · simpa [hu, Threads.goto, ConcurrentQueue.setWaiting] using h.waits u
  holds u hu := by
    have hne : u ≠ t := by
      rintro rfl
      have hholds := (h.holder u).mpr hu
      simp [hpoint, Point.holdsLock] at hholds
    have hshows := h.holds u hu
    simp only [Threads.goto, Function.update_of_ne hne]
    cases hpoint' : q.point u <;> rw [hpoint'] at hshows <;> exact hshows
  free := h.free

theorem Simulates.notify (h : q.Simulates m) (hlocked : q.dataLock = some t)
    (hnotify : NotifyOne q q') {m₁ : ConcurrentQueue θ α}
    (hwaiting : m₁.waiting = Function.update m.waiting t .outside)
    (hpoint : (q.point t).Waits .outside) (hdata : q.data = m₁.data) (htrace : q.trace = m₁.trace) :
    ∃ m', ConcurrentQueue.NotifyOne m₁ m' ∧ (q'.goto t .leaves).Simulates m' := by
  have hwaits₁ : ∀ u, (q.point u).Waits (m₁.waiting u) := by
    intro u
    by_cases hu : u = t
    · simpa [hu, hwaiting] using hpoint
    · simpa [hu, hwaiting] using h.waits u
  obtain ⟨m', hnotify', hwaits'⟩ := hnotify.simulates hwaits₁
  obtain ⟨hdata', htrace', hlock', hstop', hidle'⟩ := hnotify.fields
  have hout : m'.waiting t = .outside := by
    rw [hnotify'.waiting_eq] <;> simp [hwaiting]
  have hself : (q'.goto t .leaves).point t = .leaves := Function.update_self ..
  refine ⟨m', hnotify', h.next (.inr hlocked) ⟨hstop', hidle'⟩ ?_ (fun u hu => ?_) (fun u => ?_) ?_⟩
  · rw [hself]
    exact hlock'.trans hlocked
  · simpa [Threads.goto, hu] using hnotify.holdsLock_eq u
  · by_cases hu : u = t
    · rw [hu, hself]
      exact hout
    · simpa [hu, Threads.goto] using hwaits' u
  · rw [hself]
    exact ⟨hdata'.trans (hdata.trans hnotify'.data_eq.symm),
      htrace'.trans (htrace.trans hnotify'.trace_eq.symm)⟩

omit [DecidableEq θ] in
theorem Simulates.waits_at (h : q.Simulates m) {point : Point α} (hpoint : q.point t = point) :
    point.Waits (m.waiting t) :=
  hpoint ▸ h.waits t

omit [DecidableEq θ] in
theorem Simulates.at_point (h : q.Simulates m) {point : Point α} (hpoint : q.point t = point)
    (hholds : point.holdsLock = true) :
    q.dataLock = some t ∧ point.Waits (m.waiting t) ∧ q.Shows m point := by
  have hlocked := (h.holder t).mp (hpoint ▸ hholds)
  exact ⟨hlocked, h.waits_at hpoint, hpoint ▸ h.holds t hlocked⟩

/-- A step of the threads is a step of the queue or does not count. -/
theorem Step.simulates (hstep : Step q q') (h : q.Simulates m) (hidle : q'.stopExecution = .idle) :
    ∃ m', q'.Simulates m' ∧ (m' = m ∨ ConcurrentQueue.Step m m') := by
  have hsame : ∀ t, m.waiting = Function.update m.waiting t (m.waiting t) :=
    fun t => (Function.update_eq_self t m.waiting).symm
  cases hstep with
  | enterPush t value hpoint hlock =>
      have hw := h.waits_at hpoint
      exact ⟨m, h.goto (.inl hlock) rfl ⟨rfl, rfl⟩ rfl (hsame t) hw (h.free hlock), .inl rfl⟩
  | push t value hpoint =>
      obtain ⟨hlocked, hw, hshows⟩ := h.at_point hpoint rfl
      obtain ⟨hdata, htrace⟩ := hshows
      refine ⟨m, h.goto (.inr hlocked) rfl ⟨rfl, rfl⟩ hlocked (hsame t) hw ?_, .inl rfl⟩
      exact ⟨congrArg (· ++ [value]) hdata, congrArg (· ++ [QueueEvent.push value]) htrace⟩
  | notifyPushed t value hpoint hnotify =>
      obtain ⟨hlocked, hw, hdata, htrace⟩ := h.at_point hpoint rfl
      have hout : m.waiting t = .outside := hw
      have hwaiting : (m.append value).waiting = Function.update m.waiting t .outside :=
        hout ▸ hsame t
      obtain ⟨m', hnotify', hsim⟩ := h.notify hlocked hnotify hwaiting (hpoint ▸ rfl) hdata htrace
      exact ⟨m', hsim, .inr (.push t value hout hnotify')⟩
  | enterPop t hpoint hlock =>
      have hw := h.waits_at hpoint
      refine ⟨m, h.goto (.inl hlock) rfl ⟨rfl, rfl⟩ rfl (hsame t) ?_ (h.free hlock), .inl rfl⟩
      simp only [Point.Waits] at hw ⊢
      simp [hw]
  | checkTrue t hpoint hcheck =>
      obtain ⟨hlocked, hw, hshows⟩ := h.at_point hpoint rfl
      exact ⟨m, h.goto (.inr hlocked) rfl ⟨rfl, rfl⟩ hlocked (hsame t) hw hshows, .inl rfl⟩
  | checkFalse t hpoint hdata hstop =>
      obtain ⟨hlocked, hw, hshows⟩ := h.at_point hpoint rfl
      exact ⟨m, h.goto (.inr hlocked) rfl ⟨rfl, rfl⟩ hlocked (hsame t) hw
        ⟨hshows.1, hshows.2, hdata⟩, .inl rfl⟩
  | block t hpoint =>
      obtain ⟨hlocked, hw, hshows⟩ := h.at_point hpoint rfl
      obtain ⟨hdata, htrace, hempty⟩ := hshows
      exact ⟨m.setWaiting t .blocked, h.goto (.inr hlocked) rfl ⟨rfl, rfl⟩ rfl rfl rfl
        ⟨hdata, htrace⟩, .inr (.popWaits t hw (hdata.symm.trans hempty))⟩
  | spurious t hpoint =>
      have hw := h.waits_at hpoint
      exact ⟨_, h.spurious hpoint, .inr (.spurious t hw)⟩
  | relock t hpoint hlock =>
      have hw := h.waits_at hpoint
      refine ⟨m, h.goto (.inl hlock) rfl ⟨rfl, rfl⟩ rfl (hsame t) ?_ (h.free hlock), .inl rfl⟩
      simp only [Point.Waits] at hw ⊢
      simp [hw]
  | stopped t hpoint hstop => simp [h.running.1] at hstop
  | goOn t hpoint hstop =>
      obtain ⟨hlocked, hw, hshows⟩ := h.at_point hpoint rfl
      exact ⟨m, h.goto (.inr hlocked) rfl ⟨rfl, rfl⟩ hlocked (hsame t) hw hshows, .inl rfl⟩
  | take t value rest hpoint hdata =>
      obtain ⟨hlocked, hw, hshows⟩ := h.at_point hpoint rfl
      refine ⟨m, h.goto (.inr hlocked) rfl ⟨rfl, rfl⟩ hlocked (hsame t) hw ?_, .inl rfl⟩
      exact ⟨hshows.1.symm.trans hdata, congrArg (· ++ [QueueEvent.remove value]) hshows.2⟩
  | tookLast t value hpoint hdata =>
      obtain ⟨hlocked, hw, hshows⟩ := h.at_point hpoint rfl
      obtain ⟨hfront, htrace⟩ := hshows
      rw [hdata] at hfront
      exact ⟨(m.remove value []).setWaiting t .outside,
        h.goto (.inr hlocked) rfl ⟨rfl, rfl⟩ hlocked rfl rfl ⟨hdata, htrace⟩,
        .inr (.popLast t value hw hfront)⟩
  | notifyTook t value hpoint hdata hnotify =>
      obtain ⟨hlocked, hw, hfront, htrace⟩ := h.at_point hpoint rfl
      have hpoint' : (q.point t).Waits .outside := by simp [hpoint, Point.Waits]
      obtain ⟨m', hnotify', hsim⟩ : ∃ m', ConcurrentQueue.NotifyOne
          ((m.remove value q.data).setWaiting t .outside) m' ∧ (_ : Threads θ α).Simulates m' :=
        h.notify hlocked hnotify rfl hpoint' rfl htrace
      exact ⟨m', hsim, .inr (.popNotifies t value q.data hw hfront hdata hnotify')⟩
  | enterTryPop t hpoint hlock =>
      have hw := h.waits_at hpoint
      exact ⟨m, h.goto (.inl hlock) rfl ⟨rfl, rfl⟩ rfl (hsame t) hw (h.free hlock), .inl rfl⟩
  | tryFails t hpoint hdata =>
      obtain ⟨hlocked, hw, hshows⟩ := h.at_point hpoint rfl
      exact ⟨m, h.goto (.inr hlocked) rfl ⟨rfl, rfl⟩ hlocked (hsame t) hw hshows,
        .inr (.tryPopFails t hw (hshows.1.symm.trans hdata))⟩
  | tryTakes t value rest hpoint hdata =>
      obtain ⟨hlocked, hw, hshows⟩ := h.at_point hpoint rfl
      refine ⟨m.remove value rest, h.goto (.inr hlocked) rfl ⟨rfl, rfl⟩ hlocked (hsame t) hw ?_,
        .inr (.tryPop t value rest hw (hshows.1.symm.trans hdata))⟩
      exact ⟨rfl, congrArg (· ++ [QueueEvent.remove value]) hshows.2⟩
  | leave t hpoint =>
      obtain ⟨hlocked, hw, hshows⟩ := h.at_point hpoint rfl
      exact ⟨m, h.goto (.inr hlocked) rfl ⟨rfl, rfl⟩ rfl (hsame t) hw hshows, .inl rfl⟩
  | storeStop hpoint => cases hidle
  | notifyStop hpoint => cases hidle
  | resetStop hpoint => simp [h.running.2] at hpoint

/-- Every run that is not stopped is one of the queue. -/
theorem exists_simulates
    (hrun : ReflTransGen (fun q q' : Threads θ α => Step q q' ∧ q'.stopExecution = .idle) init q) :
    ∃ m, ReflTransGen ConcurrentQueue.Step ConcurrentQueue.empty m ∧ q.Simulates m := by
  induction hrun with
  | refl => exact ⟨_, .refl, simulates_init⟩
  | tail _ hstep ih =>
      obtain ⟨m, hreach, hsim⟩ := ih
      obtain ⟨m', hsim', rfl | hstep'⟩ := hstep.1.simulates hsim hstep.2
      · exact ⟨m', hreach, hsim'⟩
      · exact ⟨m', hreach.tail hstep', hsim'⟩

/-- The values come out in order, and where the lock is free no consumer sleeps beside pending values
with nobody on the way to them. -/
theorem inOrder_of_free
    (hrun : ReflTransGen (fun q q' : Threads θ α => Step q q' ∧ q'.stopExecution = .idle) init q)
    (hfree : q.dataLock = none) :
    QueueEvent.removed q.trace ++ q.data = QueueEvent.pushed q.trace ∧
      (q.data ≠ [] → (∃ t, q.point t = .blocked) → ∃ t, q.point t = .woken) := by
  obtain ⟨m, hreach, hsim⟩ := exists_simulates hrun
  obtain ⟨hdata, htrace⟩ := hsim.free hfree
  obtain ⟨horder, hawake⟩ := ConcurrentQueue.invariant hreach
  refine ⟨by rw [hdata, htrace]; exact horder, ?_⟩
  rintro hne ⟨t, hblocked⟩
  obtain ⟨u, hwoken⟩ := hawake (hdata ▸ hne) t ((hsim.waits t).blocked_iff.mp hblocked)
  refine ⟨u, ?_⟩
  have hu := hsim.waits u
  have hholds := hsim.holder u
  rw [hfree] at hholds
  cases hpoint : q.point u <;> simp_all [Point.Waits, Point.holdsLock]

end Threads

end Prf
