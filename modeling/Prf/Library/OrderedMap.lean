import Mathlib

/-!
# The entry at or below a key

An ordered map read "as of" a key: the value stored under the greatest key not above it. This is
what a search for the upper bound followed by one step back returns, and it is the lookup of every
multi-version store. The rules below say what it is in terms of ordinary lookups, and that dropping
old versions below a kept one does not change it.
-/

namespace OrderedMap

variable {α β : Type} [LinearOrder α]

section SortedList

variable {entries : List (α × β)} {bound : α}

theorem takeWhile_le_eq_filter (hsorted : entries.Pairwise fun e e' => e.1 < e'.1) :
    (entries.takeWhile fun e => e.1 ≤ bound) = entries.filter fun e => e.1 ≤ bound := by
  induction entries with
  | nil => rfl
  | cons e rest ih =>
      obtain ⟨hhead, htail⟩ := List.pairwise_cons.mp hsorted
      by_cases hle : e.1 ≤ bound
      · simp [hle, ih htail]
      · have hnone : rest.filter (fun e' => e'.1 ≤ bound) = [] := by
          rw [List.filter_eq_nil_iff]
          intro e' he'
          simpa using lt_trans (not_le.mp hle) (hhead e' he')
        simp [hle, hnone]

/-- In a list sorted by key, the last entry not above a bound is the one with the greatest key. -/
theorem getLast?_takeWhile_eq_some_iff (hsorted : entries.Pairwise fun e e' => e.1 < e'.1)
    {e : α × β} :
    (entries.takeWhile fun e' => e'.1 ≤ bound).getLast? = some e ↔
      e ∈ entries ∧ e.1 ≤ bound ∧ ∀ e' ∈ entries, e'.1 ≤ bound → e'.1 ≤ e.1 := by
  rw [takeWhile_le_eq_filter hsorted]
  have hsub : (entries.filter fun e' => e'.1 ≤ bound).Pairwise fun e e' => e.1 < e'.1 :=
    hsorted.filter _
  constructor
  · intro hlast
    obtain ⟨front, hfront⟩ := List.getLast?_eq_some_iff.mp hlast
    have hmem : e ∈ entries.filter fun e' => e'.1 ≤ bound := by simp [hfront]
    refine ⟨(List.mem_filter.mp hmem).1, by simpa using (List.mem_filter.mp hmem).2, ?_⟩
    intro e' he' hle
    have hmem' : e' ∈ front ++ [e] := hfront ▸ List.mem_filter.mpr ⟨he', by simpa using hle⟩
    rw [hfront, List.pairwise_append] at hsub
    rcases List.mem_append.mp hmem' with hin | hin
    · exact (hsub.2.2 e' hin e (by simp)).le
    · rw [List.mem_singleton.mp hin]
  · rintro ⟨hmem, hle, hmax⟩
    have hin : e ∈ entries.filter fun e' => e'.1 ≤ bound :=
      List.mem_filter.mpr ⟨hmem, by simpa using hle⟩
    obtain ⟨front, last, hfront⟩ := List.eq_nil_or_concat' _ |>.resolve_left
      (List.ne_nil_of_mem hin)
    rw [hfront, List.getLast?_concat]
    rw [hfront] at hin hsub
    rcases List.mem_append.mp hin with hin | hin
    · have hlast : last ∈ entries.filter fun e' => e'.1 ≤ bound := by simp [hfront]
      have hlt := (List.pairwise_append.mp hsub).2.2 e hin last (by simp)
      have hge := hmax last (List.mem_filter.mp hlast).1 (by simpa using (List.mem_filter.mp hlast).2)
      exact absurd hlt (not_lt.mpr hge)
    · rw [List.mem_singleton.mp hin]

end SortedList

/-- The value under the greatest key of `m` not above `bound`. -/
def floor? (m : Std.ExtTreeMap α β) (bound : α) : Option β :=
  ((m.toList.takeWhile fun e => e.1 ≤ bound).getLast?).map Prod.snd

variable {m m' : Std.ExtTreeMap α β} {bound : α}

theorem toList_pairwise (m : Std.ExtTreeMap α β) : m.toList.Pairwise fun e e' => e.1 < e'.1 := by
  simpa [compare_lt_iff_lt] using m.ordered_keys_toList

theorem head?_toList_eq_some {e : α × β} (hhead : m.toList.head? = some e) :
    e.1 ∈ m ∧ ∀ k ∈ m, e.1 ≤ k := by
  have hmem : e ∈ m.toList := List.mem_of_mem_head? hhead
  refine ⟨?_, fun k hk => ?_⟩
  · rw [Std.ExtTreeMap.mem_iff_isSome_getElem?,
      Std.ExtTreeMap.mem_toList_iff_getElem?_eq_some.mp hmem]
    rfl
  · have hin : (k, m[k]) ∈ m.toList :=
      Std.ExtTreeMap.mem_toList_iff_getElem?_eq_some.mpr (Std.ExtTreeMap.getElem?_eq_some_getElem hk)
    obtain ⟨rest, hrest⟩ := List.head?_eq_some_iff.mp hhead
    have hsorted := toList_pairwise m
    rw [hrest, List.pairwise_cons] at hsorted
    rw [hrest, List.mem_cons] at hin
    rcases hin with heq | hin
    · rw [← heq]
    · exact (hsorted.1 _ hin).le

theorem floor?_eq_some_iff {v : β} :
    floor? m bound = some v ↔
      ∃ k ≤ bound, m[k]? = some v ∧ ∀ k', k < k' → k' ≤ bound → m[k']? = none := by
  simp only [floor?, Option.map_eq_some_iff, Prod.exists, exists_eq_right,
    getLast?_takeWhile_eq_some_iff (toList_pairwise m)]
  refine exists_congr fun k => ?_
  simp only [Std.ExtTreeMap.mem_toList_iff_getElem?_eq_some, Prod.forall]
  constructor
  · rintro ⟨hk, hle, hmax⟩
    refine ⟨hle, hk, fun k' hlt hle' => ?_⟩
    by_contra hsome
    obtain ⟨v', hv'⟩ := Option.ne_none_iff_exists'.mp hsome
    exact absurd hlt (not_lt.mpr (hmax k' v' hv' hle'))
  · rintro ⟨hle, hk, hnone⟩
    refine ⟨hk, hle, fun k' v' hv' hle' => ?_⟩
    by_contra hlt
    rw [hnone k' (not_le.mp hlt) hle'] at hv'
    cases hv'

theorem floor?_eq_none_iff : floor? m bound = none ↔ ∀ k ≤ bound, m[k]? = none := by
  simp only [floor?, Option.map_eq_none_iff, List.getLast?_eq_none_iff,
    takeWhile_le_eq_filter (toList_pairwise m), List.filter_eq_nil_iff, Prod.forall,
    Std.ExtTreeMap.mem_toList_iff_getElem?_eq_some, decide_eq_true_eq]
  constructor
  · intro h k hle
    by_contra hsome
    obtain ⟨v, hv⟩ := Option.ne_none_iff_exists'.mp hsome
    exact h k v hv hle
  · intro h k v hv hle
    rw [h k hle] at hv
    cases hv

theorem floor?_eq_of_getElem? {k : α} {v : β} (hle : k ≤ bound) (hk : m[k]? = some v)
    (hgap : ∀ k', k < k' → k' ≤ bound → m[k']? = none) : floor? m bound = some v :=
  floor?_eq_some_iff.mpr ⟨k, hle, hk, hgap⟩

theorem floor?_congr (h : ∀ k ≤ bound, m[k]? = m'[k]?) : floor? m bound = floor? m' bound := by
  cases hread : floor? m' bound with
  | none =>
      rw [floor?_eq_none_iff] at hread ⊢
      exact fun k hle => (h k hle).trans (hread k hle)
  | some v =>
      rw [floor?_eq_some_iff] at hread ⊢
      obtain ⟨k, hle, hk, hgap⟩ := hread
      exact ⟨k, hle, (h k hle).trans hk, fun k' hlt hle' => (h k' hle').trans (hgap k' hlt hle')⟩

/-- What is stored below a kept version is not missed from there on. -/
theorem floor?_drop {k : α} (hdrop : ∀ k', m[k']? = if k' < k then none else m'[k']?)
    (hk : k ∈ m') (hle : k ≤ bound) : floor? m bound = floor? m' bound := by
  obtain ⟨w, hw⟩ := Option.isSome_iff_exists.mp (Std.ExtTreeMap.mem_iff_isSome_getElem?.mp hk)
  cases hread : floor? m' bound with
  | none =>
      rw [floor?_eq_none_iff.mp hread k hle] at hw
      cases hw
  | some v =>
      obtain ⟨j, hj, hv, hgap⟩ := floor?_eq_some_iff.mp hread
      have hkj : k ≤ j := by
        by_contra hlt
        rw [hgap k (not_le.mp hlt) hle] at hw
        cases hw
      refine floor?_eq_of_getElem? hj ?_ fun k' hlt hle' => ?_
      · rw [hdrop, if_neg (not_lt.mpr hkj), hv]
      · rw [hdrop, if_neg (not_lt.mpr (hkj.trans hlt.le)), hgap k' hlt hle']

end OrderedMap
