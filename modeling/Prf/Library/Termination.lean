import Mathlib

/-!
# Systems that come to rest

A system moves by actions, and some of the actions are its own. When no endless run of these starts
in a state and only finitely many of them are enabled at a time, their runs from that state are
bounded, and each can be continued until none of them is enabled. A simulation that stutters only
finitely often carries the absence of endless runs over from an abstract system.
-/

namespace Termination

variable {σ τ α : Type*}

/-- One of the actions in `own` leads from `s` to `s'`. -/
def Moves (step : σ → α → Option σ) (own : α → Prop) (s' s : σ) : Prop :=
  ∃ a, own a ∧ step s a = some s'

variable {step : σ → α → Option σ} {own : α → Prop}

/-- What every step keeps every run keeps. -/
theorem keeps {P : σ → Prop} (hstep : ∀ s a s', P s → step s a = some s' → P s') {s s' : σ} (h : P s)
    {actions : List α} (hrun : actions.foldlM step s = some s') : P s' := by
  induction actions generalizing s with
  | nil =>
      obtain rfl := Option.some.inj hrun
      exact h
  | cons a actions ih =>
      rw [List.foldlM_cons] at hrun
      obtain ⟨t, ht, hrun⟩ := Option.bind_eq_some_iff.mp hrun
      exact ih (hstep s a t h ht) hrun

/-- No run gets longer than some bound. -/
theorem exists_bound {s : σ} (hacc : Acc (Moves step own) s) (enabled : σ → List α)
    (henabled : ∀ s a s', own a → step s a = some s' → a ∈ enabled s) :
    ∃ bound, ∀ actions : List α, (∀ a ∈ actions, own a) → ∀ s', actions.foldlM step s = some s' →
      actions.length ≤ bound := by
  induction hacc with
  | intro s _ ih =>
      have hnext : ∀ a, ∃ bound, ∀ s', own a → step s a = some s' → ∀ actions : List α,
          (∀ b ∈ actions, own b) → ∀ t, actions.foldlM step s' = some t →
            actions.length ≤ bound := by
        intro a
        by_cases hown : own a
        · cases hstep : step s a with
          | none => exact ⟨0, by simp⟩
          | some s' =>
              obtain ⟨bound, hbound⟩ := ih s' ⟨a, hown, hstep⟩
              refine ⟨bound, fun t _ ht => ?_⟩
              obtain rfl := Option.some.inj ht
              exact hbound
        · exact ⟨0, fun _ h => absurd h hown⟩
      choose bound hbound using hnext
      refine ⟨((enabled s).map bound).sum + 1, fun actions hactions s' hrun => ?_⟩
      cases actions with
      | nil => simp
      | cons a actions =>
          obtain ⟨hown, hactions⟩ := List.forall_mem_cons.mp hactions
          rw [List.foldlM_cons] at hrun
          obtain ⟨t, ht, hrun⟩ := Option.bind_eq_some_iff.mp hrun
          have hlength := hbound a t hown ht actions hactions s' hrun
          have hmem : bound a ∈ (enabled s).map bound :=
            List.mem_map_of_mem (henabled s a t hown ht)
          have hsum := List.le_sum_of_mem hmem
          rw [List.length_cons]
          lia

/-- Some run ends where no action is enabled. -/
theorem exists_rest {s : σ} (hacc : Acc (Moves step own) s) :
    ∃ actions : List α, (∀ a ∈ actions, own a) ∧
      ∃ s', actions.foldlM step s = some s' ∧ ∀ a, own a → step s' a = none := by
  induction hacc with
  | intro s _ ih =>
      by_cases hrest : ∀ a, own a → step s a = none
      · exact ⟨[], by simp, s, rfl, hrest⟩
      · push Not at hrest
        obtain ⟨a, hown, hstep⟩ := hrest
        obtain ⟨t, ht⟩ := Option.ne_none_iff_exists'.mp hstep
        obtain ⟨actions, hactions, s', hrun, hend⟩ := ih t ⟨a, hown, ht⟩
        refine ⟨a :: actions, List.forall_mem_cons.mpr ⟨hown, hactions⟩, s', ?_, hend⟩
        rw [List.foldlM_cons, ht]
        exact hrun

/-- A concrete system has no endless run when each of its moves is matched by one of an abstract
system that has none, or is not noticed there and goes down in a well-founded order. -/
theorem acc_of_simulates {r : σ → σ → Prop} {R : τ → τ → Prop} {stutter : σ → σ → Prop}
    (rel : σ → τ → Prop) (hstutter : WellFounded stutter)
    (hmatch : ∀ s a s', rel s a → r s' s → (∃ a', R a' a ∧ rel s' a') ∨ (stutter s' s ∧ rel s' a))
    {a : τ} (hacc : Acc R a) {s : σ} (hrel : rel s a) : Acc r s := by
  induction hacc generalizing s with
  | intro a _ ih =>
      induction s using hstutter.induction with
      | _ s ihs =>
          refine ⟨s, fun s' hmove => ?_⟩
          rcases hmatch s a s' hrel hmove with ⟨a', hdown, hrel'⟩ | ⟨hdown, hrel'⟩
          · exact ih a' hdown hrel'
          · exact ihs s' hdown hrel'

end Termination
