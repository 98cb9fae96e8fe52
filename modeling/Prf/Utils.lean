import Prf.Types

/-!
# Numberings

The two helpers of `utils.hpp` the build uses.
-/

namespace Prf

/-- `numbering`: the distinct elements of `xs`, counted up in ascending order. -/
def numbering (xs : List ℕ) : Map ℕ :=
  let numbered : Map ℕ := xs.foldl (fun numbered x => numbered.insert x 0) ∅
  numbered.keys.zipIdx.foldl (fun numbered i => numbered.insert i.1 i.2) numbered

/-- `transpose`. -/
def transpose (m : Map ℕ) : Map ℕ :=
  m.toList.foldl (fun res i => res.insert i.2 i.1) ∅

theorem getElem?_foldl_insert_zero (xs : List ℕ) (m : Map ℕ) (x : ℕ) :
    (xs.foldl (fun numbered x => numbered.insert x 0) m)[x]? =
      if x ∈ xs then some 0 else m[x]? := by
  induction xs generalizing m with
  | nil => simp
  | cons y xs ih =>
      rw [List.foldl_cons, ih]
      by_cases hx : x ∈ xs
      · simp [hx]
      · by_cases hxy : x = y
        · simp [hxy]
        · have hyx : ¬ y = x := fun h => hxy h.symm
          simp [hx, Std.ExtTreeMap.getElem?_insert, hxy, hyx]

theorem getElem?_foldl_insert_zipIdx (ks : List ℕ) (hks : ks.Nodup) (m : Map ℕ) (start x : ℕ) :
    ((ks.zipIdx start).foldl (fun numbered i => numbered.insert i.1 i.2) m)[x]? =
      if x ∈ ks then some (start + ks.idxOf x) else m[x]? := by
  induction ks generalizing m start with
  | nil => simp
  | cons k ks ih =>
      obtain ⟨hk, hks⟩ := List.nodup_cons.mp hks
      rw [List.zipIdx_cons, List.foldl_cons, ih hks]
      by_cases hxk : x = k
      · subst hxk
        simp [hk]
      · have hkx : ¬ k = x := fun h => hxk h.symm
        by_cases hx : x ∈ ks
        · simp [hx, hxk, List.idxOf_cons_ne _ hkx]
          omega
        · simp [hx, hxk, Std.ExtTreeMap.getElem?_insert, hkx]

/-- The distinct elements of `xs`, in the order in which `numbering` counts them. -/
def numbered (xs : List ℕ) : List ℕ :=
  (xs.foldl (fun numbered x => numbered.insert x 0) (∅ : Map ℕ)).keys

theorem numbered_nodup (xs : List ℕ) : (numbered xs).Nodup := by
  have := Std.ExtTreeMap.ordered_keys (t := xs.foldl (fun numbered x => numbered.insert x 0) (∅ : Map ℕ))
  exact this.imp fun h => by
    intro heq
    subst heq
    simp at h

@[simp]
theorem mem_numbered {xs : List ℕ} {x : ℕ} : x ∈ numbered xs ↔ x ∈ xs := by
  rw [numbered, Std.ExtTreeMap.mem_keys, Std.ExtTreeMap.mem_iff_isSome_getElem?,
    getElem?_foldl_insert_zero]
  by_cases hx : x ∈ xs <;> simp [hx]

theorem getElem?_numbering (xs : List ℕ) (x : ℕ) :
    (numbering xs)[x]? = if x ∈ xs then some ((numbered xs).idxOf x) else none := by
  have h := getElem?_foldl_insert_zipIdx (numbered xs) (numbered_nodup xs)
    (xs.foldl (fun numbered x => numbered.insert x 0) (∅ : Map ℕ)) 0 x
  rw [numbering, show (xs.foldl (fun numbered x => numbered.insert x 0) (∅ : Map ℕ)).keys =
    numbered xs from rfl, h, getElem?_foldl_insert_zero]
  by_cases hx : x ∈ xs <;> simp [hx]

theorem numbering_getD {xs : List ℕ} {x : ℕ} (hx : x ∈ xs) :
    (numbering xs)[x]?.getD 0 = (numbered xs).idxOf x := by
  simp [getElem?_numbering, hx]

theorem numbering_size (xs : List ℕ) : (numbering xs).size = (numbered xs).length := by
  rw [← Std.ExtTreeMap.length_keys]
  refine List.Perm.length_eq ((List.perm_ext_iff_of_nodup ?_ (numbered_nodup xs)).mpr fun x => ?_)
  · refine (Std.ExtTreeMap.ordered_keys (t := numbering xs)).imp fun h => ?_
    intro heq
    subst heq
    simp at h
  · rw [Std.ExtTreeMap.mem_keys, Std.ExtTreeMap.mem_iff_isSome_getElem?, getElem?_numbering]
    by_cases hx : x ∈ xs <;> simp [hx]

theorem numbering_injOn (xs : List ℕ) :
    Set.InjOn (fun x => (numbering xs)[x]?.getD 0) {x | x ∈ xs} := by
  intro x hx y hy h
  simp only [numbering_getD hx, numbering_getD hy] at h
  exact (List.idxOf_inj (mem_numbered.mpr hx)).mp h

theorem numbering_lt {xs : List ℕ} {x : ℕ} (hx : x ∈ xs) :
    (numbering xs)[x]?.getD 0 < (numbering xs).size := by
  rw [numbering_getD hx, numbering_size]
  exact List.idxOf_lt_length_of_mem (mem_numbered.mpr hx)

theorem exists_numbering_eq {xs : List ℕ} {n : ℕ} (hn : n < (numbering xs).size) :
    ∃ x ∈ xs, (numbering xs)[x]?.getD 0 = n := by
  rw [numbering_size] at hn
  refine ⟨(numbered xs)[n], mem_numbered.mp (List.getElem_mem hn), ?_⟩
  rw [numbering_getD (mem_numbered.mp (List.getElem_mem hn))]
  exact (numbered_nodup xs).idxOf_getElem n hn

theorem mem_toList_numbering {xs : List ℕ} {e : ℕ × ℕ} :
    e ∈ (numbering xs).toList ↔ e.1 ∈ xs ∧ e.2 = (numbering xs)[e.1]?.getD 0 := by
  obtain ⟨x, i⟩ := e
  rw [Std.ExtTreeMap.mem_toList_iff_getElem?_eq_some, getElem?_numbering]
  by_cases hx : x ∈ xs <;> simp [hx, eq_comm]

theorem nodup_toList_numbering (xs : List ℕ) : ((numbering xs).toList.map Prod.snd).Nodup := by
  have hnodup : (numbering xs).toList.Nodup :=
    Std.ExtTreeMap.distinct_keys_toList.imp fun h heq => h (by simp [heq])
  refine (List.nodup_map_iff_inj_on hnodup).mpr fun e he e' he' heq => ?_
  obtain ⟨hmem, hnum⟩ := mem_toList_numbering.mp he
  obtain ⟨hmem', hnum'⟩ := mem_toList_numbering.mp he'
  exact Prod.ext (numbering_injOn xs hmem hmem' (hnum.symm.trans (heq.trans hnum'))) heq

theorem getElem?_foldl_insert_swap (l : List (ℕ × ℕ)) (hl : (l.map Prod.snd).Nodup) (m : Map ℕ)
    {x i : ℕ} (hx : (x, i) ∈ l) :
    (l.foldl (fun res e => res.insert e.2 e.1) m)[i]? = some x := by
  have hother : ∀ (l : List (ℕ × ℕ)) (m : Map ℕ), i ∉ l.map Prod.snd →
      (l.foldl (fun res e => res.insert e.2 e.1) m)[i]? = m[i]? := by
    intro l
    induction l with
    | nil => simp
    | cons e l ih =>
        intro m hi
        obtain ⟨hne, hi⟩ : i ≠ e.2 ∧ i ∉ l.map Prod.snd := by simpa using hi
        rw [List.foldl_cons, ih _ hi, Std.ExtTreeMap.getElem?_insert, if_neg]
        simpa using fun heq => hne heq.symm
  induction l generalizing m with
  | nil => simp at hx
  | cons e l ih =>
      obtain ⟨he, hl⟩ := List.nodup_cons.mp (List.map_cons ▸ hl)
      rcases List.mem_cons.mp hx with rfl | hx
      · rw [List.foldl_cons, hother l _ he]
        simp
      · exact ih hl _ hx

/-- `transpose` leads back from the numbers. -/
theorem transpose_numbering {xs : List ℕ} {x : ℕ} (hx : x ∈ xs) :
    (transpose (numbering xs))[(numbering xs)[x]?.getD 0]? = some x :=
  getElem?_foldl_insert_swap _ (nodup_toList_numbering xs) ∅
    (mem_toList_numbering.mpr ⟨hx, rfl⟩)

end Prf
