import Mathlib

/-!
# Identifiers, ranks and containers

The scalar types of `types.hpp` and `rank.hpp`, and the two standard containers the rest of the
development is written with. A `std::map` keyed by an `ID` is `Std.ExtTreeMap`, which keeps its
entries in ascending key order. A `std::set` is a `Finset`, and a loop over it runs over
`ascending`.
-/

namespace Prf

/-- `ID = u64`. Identifiers are only compared and counted up, never wrapped around. -/
abbrev ID := ℕ

/-- `std::map<ID, α>`. -/
abbrev Map (α : Type) := Std.ExtTreeMap ID α

/-- `std::numeric_limits<u64>::max() + 1`. -/
abbrev u64Size : ℕ := 2 ^ 64

/-- `class Rank`: a `u64`, so the bound travels with the value. -/
structure Rank where
  value : ℕ
  value_lt : value < u64Size
deriving DecidableEq

namespace Rank

/-- `Rank::Rank()`. -/
def zero : Rank := ⟨0, by decide⟩

/-- `Rank::Rank(u64)`. -/
def ofNat (value : ℕ) : Rank := ⟨value % u64Size, Nat.mod_lt _ (by decide)⟩

instance : Inhabited Rank := ⟨zero⟩

/-- `Rank::ensure_after`: the new value of `other`, and whether it was changed. The increment is
taken modulo `2 ^ 64`, as the code's is. -/
def ensureAfter (self other : Rank) : Rank × Bool :=
  if self.value < other.value then (other, false)
  else (⟨(self.value + 1) % u64Size, Nat.mod_lt _ (by decide)⟩, true)

@[simp]
theorem value_zero : zero.value = 0 := rfl

theorem value_injective : Function.Injective value := by
  rintro ⟨value, hlt⟩ ⟨value', hlt'⟩ rfl
  rfl

end Rank

/-- The elements of a `std::set<ID>` in the order in which a range-based `for` visits them. -/
def ascending (s : Finset ID) : List ID :=
  (List.range (s.sup id + 1)).filter (· ∈ s)

@[simp]
theorem mem_ascending {s : Finset ID} {x : ID} : x ∈ ascending s ↔ x ∈ s := by
  simp only [ascending, List.mem_filter, List.mem_range, decide_eq_true_eq, and_iff_right_iff_imp]
  intro hx
  exact Nat.lt_succ_of_le (Finset.le_sup (f := id) hx)

theorem ascending_pairwise (s : Finset ID) : (ascending s).Pairwise (· < ·) :=
  List.Pairwise.filter _ List.pairwise_lt_range

theorem ascending_nodup (s : Finset ID) : (ascending s).Nodup :=
  (ascending_pairwise s).imp Nat.ne_of_lt

@[simp]
theorem ascending_toFinset (s : Finset ID) : (ascending s).toFinset = s := by
  ext x
  simp

/-- `ascending` is Mathlib's sorted enumeration, in a form that evaluates. -/
theorem ascending_eq_sort (s : Finset ID) : ascending s = s.sort (· ≤ ·) := by
  refine List.Perm.eq_of_pairwise' ?_ ?_ ?_
    (r := fun a b : ID => a ≤ b)
  · exact (ascending_pairwise s).imp Nat.le_of_lt
  · exact Finset.pairwise_sort s _
  · rw [List.perm_ext_iff_of_nodup (ascending_nodup s) (Finset.sort_nodup s _)]
    simp

end Prf
