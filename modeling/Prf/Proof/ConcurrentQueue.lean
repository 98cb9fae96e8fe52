import Prf.ConcurrentQueue

/-!
# Delivery and wake-ups

What is pushed comes out in order, and a consumer does not sleep beside pending values unless another
one has been woken for them.
-/

namespace Prf

open Relation

namespace ConcurrentQueue

variable {θ α : Type} [DecidableEq θ] {q q' : ConcurrentQueue θ α}

def InOrder (q : ConcurrentQueue θ α) : Prop :=
  QueueEvent.removed q.trace ++ q.data = QueueEvent.pushed q.trace

def Awake (q : ConcurrentQueue θ α) : Prop :=
  ∀ t, q.waiting t = .blocked → ∃ u, q.waiting u = .woken

omit [DecidableEq θ] in
theorem InOrder.append (h : q.InOrder) (value : α) : (q.append value).InOrder := by
  simp only [InOrder, ConcurrentQueue.append, QueueEvent.removed_push, QueueEvent.pushed_push,
    ← List.append_assoc]
  exact congrArg (· ++ [value]) h

omit [DecidableEq θ] in
theorem InOrder.remove (h : q.InOrder) {value : α} {rest : List α} (hdata : q.data = value :: rest) :
    (q.remove value rest).InOrder := by
  rw [InOrder, hdata] at h
  simpa [InOrder, ConcurrentQueue.remove] using h

namespace NotifyOne

theorem data_eq (h : NotifyOne q q') : q'.data = q.data := by
  cases h <;> rfl

theorem trace_eq (h : NotifyOne q q') : q'.trace = q.trace := by
  cases h <;> rfl

theorem waiting_eq (h : NotifyOne q q') {t : θ} (hnot : q.waiting t ≠ .blocked) :
    q'.waiting t = q.waiting t := by
  cases h with
  | nobody _ => rfl
  | wakes u hblocked =>
      have hne : t ≠ u := by
        rintro rfl
        exact hnot hblocked
      exact Function.update_of_ne hne ..

theorem inOrder (h : NotifyOne q q') (hq : q.InOrder) : q'.InOrder := by
  rwa [InOrder, h.data_eq, h.trace_eq]

theorem awake (h : NotifyOne q q') : q'.Awake := by
  cases h with
  | nobody hnobody => exact fun t hblocked => absurd hblocked (hnobody t)
  | wakes t _ => exact fun _ _ => ⟨t, Function.update_self ..⟩

end NotifyOne

theorem Step.inOrder (hstep : Step q q') (h : q.InOrder) : q'.InOrder := by
  cases hstep with
  | push t value hout hnotify => exact hnotify.inOrder (h.append value)
  | popWaits t hruns hempty => exact h
  | popLast t value hruns hdata => exact h.remove hdata
  | popNotifies t value rest hruns hdata hrest hnotify => exact hnotify.inOrder (h.remove hdata)
  | tryPopFails t hout hempty => exact h
  | tryPop t value rest hout hdata => exact h.remove hdata
  | spurious t hblocked => exact h

/-- A step leaves a value beside a blocked consumer only if it has woken one, or if one was awake. -/
theorem Step.awake (hstep : Step q q') (h : q.data ≠ [] → q.Awake) (hdata' : q'.data ≠ []) :
    q'.Awake := by
  cases hstep with
  | push t value hout hnotify => exact hnotify.awake
  | popWaits t hruns hempty => exact absurd hempty hdata'
  | popLast t value hruns hdata => exact absurd rfl hdata'
  | popNotifies t value rest hruns hdata hrest hnotify => exact hnotify.awake
  | tryPopFails t hout hempty => exact absurd hempty hdata'
  | tryPop t value rest hout hdata => exact h (by simp [hdata])
  | spurious t hblocked => exact fun _ _ => ⟨t, Function.update_self ..⟩

theorem invariant (hrun : ReflTransGen Step empty q) : q.InOrder ∧ (q.data ≠ [] → q.Awake) := by
  induction hrun with
  | refl => exact ⟨rfl, fun hdata => absurd rfl hdata⟩
  | tail _ hstep ih => exact ⟨hstep.inOrder ih.1, hstep.awake ih.2⟩

/-- In every run the values removed so far and the content of the queue are the values pushed so far
in push order, and no consumer sleeps beside pending values with nobody on the way to them. -/
theorem delivered (hrun : ReflTransGen Step empty q) :
    QueueEvent.removed q.trace ++ q.data = QueueEvent.pushed q.trace ∧
      ¬ (q.data ≠ [] ∧ (∃ t, q.waiting t = .blocked) ∧ ∀ t, q.waiting t ≠ .woken) := by
  obtain ⟨horder, hawake⟩ := invariant hrun
  refine ⟨horder, ?_⟩
  rintro ⟨hdata, ⟨t, hblocked⟩, hnone⟩
  obtain ⟨u, hwoken⟩ := hawake hdata t hblocked
  exact hnone u hwoken

/-- The second thread blocks, and the first one pushes two values before it is awake. -/
theorem delivered_twoPushes :
    ∃ q : ConcurrentQueue (Fin 2) ℕ, q.data = [7] ∧ q.waiting 1 = .outside ∧
      QueueEvent.removed q.trace ++ q.data = QueueEvent.pushed q.trace ∧
      ¬ (q.data ≠ [] ∧ (∃ t, q.waiting t = .blocked) ∧ ∀ t, q.waiting t ≠ .woken) := by
  let q₀ : ConcurrentQueue (Fin 2) ℕ := empty
  let q₁ := q₀.setWaiting 1 .blocked
  let q₂ := (q₁.append 5).setWaiting 1 .woken
  let q₃ := q₂.append 7
  have h₁ : Step q₀ q₁ := .popWaits 1 (by decide) rfl
  have h₂ : Step q₁ q₂ := .push 0 5 rfl (.wakes 1 rfl)
  have h₃ : Step q₂ q₃ := .push 0 7 rfl (.nobody (by decide))
  have h₄ : Step q₃ ((q₃.remove 5 [7]).setWaiting 1 .outside) :=
    .popNotifies 1 5 [7] (by decide) rfl (by decide) (.nobody (by decide))
  exact ⟨_, rfl, rfl, delivered ((((ReflTransGen.single h₁).tail h₂).tail h₃).tail h₄)⟩

end ConcurrentQueue

end Prf
