import Mathlib

/-!
# Equations along a well-founded relation

A system of equations in which every unknown depends on unknowns below it only has exactly one
solution. Going once through the unknowns, each after all those below it, computes it.
-/

namespace Dataflow

variable {α β : Type*} {below : α → α → Prop}

/-- `F m x` only looks at the values of `m` below `x`. -/
def Local (below : α → α → Prop) (F : (α → β) → α → β) : Prop :=
  ∀ m m' x, (∀ y, below y x → m y = m' y) → F m x = F m' x

variable {F : (α → β) → α → β}

theorem solution_unique (hwf : WellFounded below) (hF : Local below F) {m m' : α → β}
    (hm : ∀ x, m x = F m x) (hm' : ∀ x, m' x = F m' x) (x : α) : m x = m' x := by
  induction x using hwf.induction with
  | _ x ih =>
      rw [hm x, hm' x]
      exact hF m m' x ih

/-! ## The solution as a computation -/

/-- A list of all unknowns, each after those below it. -/
structure Enumerates (below : α → α → Prop) (order : List α) : Prop where
  mem : ∀ x, x ∈ order
  nodup : order.Nodup
  sorted : order.Pairwise fun x y => ¬ below y x

section Solve

variable [DecidableEq α] {order : List α} {m m' : α → β}

/-- The equations evaluated one after the other, from `m` on. -/
def solve (F : (α → β) → α → β) (order : List α) (m : α → β) : α → β :=
  order.foldl (fun m x => Function.update m x (F m x)) m

theorem solve_append (before after : List α) :
    solve F (before ++ after) m = solve F after (solve F before m) :=
  List.foldl_append

theorem solve_of_notMem {x : α} (hx : x ∉ order) : solve F order m x = m x := by
  induction order generalizing m with
  | nil => rfl
  | cons y order ih =>
      obtain ⟨hne, hx⟩ := not_or.mp (List.mem_cons.not.mp hx)
      calc solve F (y :: order) m x = Function.update m y (F m y) x := ih hx
        _ = m x := Function.update_of_ne hne _ _

theorem solve_solves (hwf : WellFounded below) (hF : Local below F)
    (horder : Enumerates below order) (x : α) : solve F order m x = F (solve F order m) x := by
  obtain ⟨before, after, rfl⟩ := List.append_of_mem (horder.mem x)
  have hnodup := horder.nodup
  rw [List.nodup_append, List.nodup_cons] at hnodup
  have hx : x ∉ after := hnodup.2.1.1
  have hsorted := horder.sorted
  rw [List.pairwise_append, List.pairwise_cons] at hsorted
  have hafter : ∀ y ∈ after, ¬ below y x := hsorted.2.1.1
  have hsplit : solve F (before ++ x :: after) m =
      solve F after (Function.update (solve F before m) x (F (solve F before m) x)) :=
    solve_append before (x :: after)
  -- what is below `x` keeps the value it had when `x` was evaluated
  have hkept : ∀ y, below y x → solve F before m y = solve F (before ++ x :: after) m y := by
    intro y hy
    have hne : y ≠ x := by
      rintro rfl
      exact hwf.irrefl.irrefl y hy
    rw [hsplit, solve_of_notMem fun hin => hafter y hin hy, Function.update_of_ne hne]
  calc solve F (before ++ x :: after) m x = F (solve F before m) x := by
        rw [hsplit, solve_of_notMem hx, Function.update_self]
    _ = F (solve F (before ++ x :: after) m) x := hF _ _ x hkept

theorem eq_solve (hwf : WellFounded below) (hF : Local below F) (horder : Enumerates below order)
    (hm : ∀ x, m x = F m x) : m = solve F order m' :=
  funext (solution_unique hwf hF hm (solve_solves hwf hF horder))

end Solve

end Dataflow
