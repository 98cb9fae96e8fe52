import Mathlib

/-!
# Replicas fed by a queue

A replica follows a system that steps on by itself. A step that the replica must hear of puts a
message into a queue, and the replica applies the messages in order. `Lags` says that the replica,
with any prefix of the queue applied to it, describes the system exactly as it was once. Whatever
is stable under the steps and could be read off the replica then holds of the system now.
-/

namespace Replica

open Relation

variable {σ ρ μ : Type*}

/-- The replica describes a state from which `s` was reached, and so does each replica on the way
through the queue; the last one describes `s`. -/
def Lags (step : σ → σ → Prop) (apply : ρ → μ → Option ρ) (exact : σ → ρ → Prop) (s : σ) :
    List μ → ρ → Prop
  | [], replica => exact s replica
  | m :: pending, replica =>
      (∃ past, ReflTransGen step past s ∧ exact past replica) ∧
        ∃ replica', apply replica m = some replica' ∧ Lags step apply exact s pending replica'

variable {step : σ → σ → Prop} {apply : ρ → μ → Option ρ} {exact : σ → ρ → Prop} {s s' : σ}
  {m : μ} {pending : List μ} {replica : ρ}

namespace Lags

theorem past (h : Lags step apply exact s pending replica) :
    ∃ past, ReflTransGen step past s ∧ exact past replica := by
  cases pending with
  | nil => exact ⟨s, .refl, h⟩
  | cons m pending => exact h.1

theorem pop (h : Lags step apply exact s (m :: pending) replica) :
    ∃ replica', apply replica m = some replica' ∧ Lags step apply exact s pending replica' :=
  h.2

/-- A step that pushes nothing may not change what the replica describes. -/
theorem keep (hstep : step s s') (hexact : ∀ replica, exact s replica → exact s' replica)
    (h : Lags step apply exact s pending replica) :
    Lags step apply exact s' pending replica := by
  induction pending generalizing replica with
  | nil => exact hexact replica h
  | cons m pending ih =>
      obtain ⟨⟨past, hpast, hexact'⟩, replica', happly, hrest⟩ := h
      exact ⟨⟨past, hpast.tail hstep, hexact'⟩, replica', happly, ih hrest⟩

/-- A step that pushes a message may change it as the message says. -/
theorem push (hstep : step s s')
    (hexact : ∀ replica, exact s replica →
      ∃ replica', apply replica m = some replica' ∧ exact s' replica')
    (h : Lags step apply exact s pending replica) :
    Lags step apply exact s' (pending ++ [m]) replica := by
  induction pending generalizing replica with
  | nil =>
      obtain ⟨replica', happly, hexact'⟩ := hexact replica h
      exact ⟨⟨s, .single hstep, h⟩, replica', happly, hexact'⟩
  | cons m' pending ih =>
      obtain ⟨⟨past, hpast, hexact'⟩, replica', happly, hrest⟩ := h
      exact ⟨⟨past, hpast.tail hstep, hexact'⟩, replica', happly, ih hrest⟩

end Lags

/-- A stable property carries over from the past. -/
theorem stable_of_past {P : σ → Prop} (hstable : ∀ s s', step s s' → P s → P s')
    (hpast : ReflTransGen step s s') (h : P s) : P s' := by
  induction hpast with
  | refl => exact h
  | tail _ hstep ih => exact hstable _ _ hstep ih

end Replica
