import Prf.Proof.Registration

/-!
# What finalising does to the stored values

`refresh` removes the value of a stream, and the values of a cell from before the transaction; the
calls of `finalize` carry the values the transaction has stored.
-/

namespace Prf

variable {V : Type}

theorem CellInternal.refreshLoop_getElem? {T : ID} (entries : List (ID × V)) {values values' : Map V}
    (hsorted : entries.Pairwise fun e e' => e.1 < e'.1)
    (hentries : ∀ k v, (k, v) ∈ entries ↔ values[k]? = some v)
    (h : refreshLoop T entries values = .ok values') (k : ID) :
    values'[k]? = if k < T then none else values[k]? := by
  induction entries generalizing values with
  | nil => cases h
  | cons entry rest ih =>
      obtain ⟨id, value⟩ := entry
      obtain ⟨hhead, hrest⟩ := List.pairwise_cons.mp hsorted
      rw [refreshLoop] at h
      split at h
      · rename_i hlt
        have herase : ∀ k v, (k, v) ∈ rest ↔ (values.erase id)[k]? = some v := by
          intro k v
          rw [Std.ExtTreeMap.getElem?_erase]
          by_cases hk : id = k
          · subst hk
            simp only [Std.compare_self, if_true, reduceCtorEq, iff_false]
            exact fun hin => lt_irrefl _ (hhead (id, v) hin)
          · simp only [Std.compare_eq_iff_eq, hk, if_false, ← hentries, List.mem_cons, Prod.mk.injEq]
            constructor
            · exact Or.inr
            · rintro (⟨heq, -⟩ | hin)
              · exact absurd heq.symm hk
              · exact hin
        rw [ih hrest herase h, Std.ExtTreeMap.getElem?_erase]
        by_cases hk : id = k
        · subst hk
          simp [hlt]
        · simp [hk]
      · rename_i hge
        obtain rfl := Except.ok.inj h
        split
        · rename_i hlt
          by_contra hsome
          obtain ⟨v, hv⟩ := Option.ne_none_iff_exists'.mp hsome
          rcases List.mem_cons.mp ((hentries k v).mpr hv) with heq | hin
          · obtain ⟨rfl, -⟩ := Prod.mk.inj heq
            exact hge hlt
          · exact hge ((hhead _ hin).trans hlt)
        · rfl

theorem CellInternal.refresh_getElem? {T : ID} {values values' : Map V}
    (h : refresh values T = .ok values') (k : ID) :
    values'[k]? = if k < T then none else values[k]? := by
  rw [refresh] at h
  split at h
  · exact refreshLoop_getElem? _ (OrderedMap.toList_pairwise values)
      (fun _ _ => Std.ExtTreeMap.mem_toList_iff_getElem?_eq_some) h k
  · cases h

/-- The loop stops at the entry of the transaction at the latest. -/
theorem CellInternal.exists_refreshLoop {T : ID} (entries : List (ID × V)) (values : Map V)
    (hT : ∃ value, (T, value) ∈ entries) : ∃ values', refreshLoop T entries values = .ok values' := by
  induction entries generalizing values with
  | nil =>
      obtain ⟨value, hin⟩ := hT
      cases hin
  | cons entry rest ih =>
      obtain ⟨id, value⟩ := entry
      rw [refreshLoop]
      split
      · rename_i hlt
        apply ih
        obtain ⟨value', hin⟩ := hT
        rcases List.mem_cons.mp hin with heq | hin
        · obtain ⟨rfl, -⟩ := Prod.mk.inj heq
          exact absurd hlt (lt_irrefl _)
        · exact ⟨value', hin⟩
      · exact ⟨values, rfl⟩

theorem CellInternal.exists_refresh {T : ID} {values : Map V} (h : T ∈ values) :
    ∃ values', refresh values T = .ok values' := by
  rw [refresh, if_pos h]
  apply exists_refreshLoop
  obtain ⟨value, hvalue⟩ := Option.isSome_iff_exists.mp
    (Std.ExtTreeMap.mem_iff_isSome_getElem?.mp h)
  exact ⟨value, Std.ExtTreeMap.mem_toList_iff_getElem?_eq_some.mpr hvalue⟩

theorem CellInternal.mem_of_refresh {T : ID} {values values' : Map V}
    (h : refresh values T = .ok values') : T ∈ values := by
  rw [refresh] at h
  split at h
  · assumption
  · cases h

namespace Graph

variable {ι : Type} {G : Graph ι V} {store store' : Store ι V} {T : ID}

def deliveriesOf (G : Graph ι V) (x : ι) (value : V) : List (Delivery ι V) :=
  (List.range (G.listeners x)).map fun i => ⟨x, i, value⟩

theorem refresh_getElem? {x : ι} {values : Map V} (h : G.refresh store T x = .ok values) (k : ID) :
    values[k]? =
      if (G.primitive x).isCell then if k < T then none else (store x)[k]?
      else if k = T then none else (store x)[k]? := by
  rw [refresh] at h
  split at h
  · rename_i hcell
    rw [if_pos hcell]
    exact CellInternal.refresh_getElem? h k
  · rename_i hcell
    obtain rfl := Except.ok.inj h
    rw [if_neg hcell, StreamInternal.refresh, Std.ExtTreeMap.getElem?_erase]
    simp only [Std.compare_eq_iff_eq, @eq_comm _ T k]

theorem mem_refresh {x : ι} {values : Map V} (h : G.refresh store T x = .ok values) (k : ID) :
    k ∈ values ↔ k ∈ store x ∧ if (G.primitive x).isCell then T ≤ k else k ≠ T := by
  rw [Std.ExtTreeMap.mem_iff_isSome_getElem?, Std.ExtTreeMap.mem_iff_isSome_getElem?,
    refresh_getElem? h]
  cases (G.primitive x).isCell
  · by_cases hk : k = T <;> simp [hk]
  · by_cases hk : k < T
    · simp [hk]
    · simp [hk, not_lt.mp hk]

theorem sample_of_getElem? {x : ι} {value : V} (h : (store x)[T]? = some value) :
    G.sample store T x = some value := by
  rw [sample]
  split
  · exact OrderedMap.floor?_eq_of_getElem? le_rfl h fun k hlt hle => absurd hlt (not_lt.mpr hle)
  · exact h

theorem exists_refresh {x : ι} (h : T ∈ store x) : ∃ values, G.refresh store T x = .ok values := by
  rw [refresh]
  split
  · exact CellInternal.exists_refresh h
  · exact ⟨_, rfl⟩

theorem exists_mapM_finalize {xs : List ι} (h : ∀ x ∈ xs, T ∈ store x) :
    ∃ deliveries, xs.mapM (G.finalize store T) = .ok deliveries := by
  induction xs with
  | nil => exact ⟨[], rfl⟩
  | cons x xs ih =>
      obtain ⟨deliveries, hrest⟩ := ih fun y hy => h y (List.mem_cons_of_mem _ hy)
      obtain ⟨value, hvalue⟩ := Option.isSome_iff_exists.mp
        (Std.ExtTreeMap.mem_iff_isSome_getElem?.mp (h x List.mem_cons_self))
      have hsample : G.sample store T x = some value := sample_of_getElem? hvalue
      refine ⟨G.deliveriesOf x value :: deliveries, ?_⟩
      rw [List.mapM_cons]
      simp [finalize, Primitive.unsafeSample, hsample, hrest, bind, Except.bind, pure, Except.pure,
        deliveriesOf]

variable [DecidableEq ι]

theorem exists_refreshAll {xs : List ι} (hnodup : xs.Nodup) (h : ∀ x ∈ xs, T ∈ store x) :
    ∃ store', G.refreshAll T xs store = .ok store' := by
  induction xs generalizing store with
  | nil => exact ⟨store, rfl⟩
  | cons x xs ih =>
      obtain ⟨hx, hnodup⟩ := List.nodup_cons.mp hnodup
      obtain ⟨values, hvalues⟩ := G.exists_refresh (h x List.mem_cons_self)
      have hrest : ∀ y ∈ xs, T ∈ Function.update store x values y := by
        intro y hy
        have hne : y ≠ x := fun heq => hx (heq ▸ hy)
        rw [Function.update_of_ne hne]
        exact h y (List.mem_cons_of_mem _ hy)
      obtain ⟨store', hstore'⟩ := ih hnodup hrest
      refine ⟨store', ?_⟩
      simp [refreshAll, hvalues, hstore', bind, Except.bind]

theorem refreshAll_spec {xs : List ι} (hnodup : xs.Nodup)
    (h : G.refreshAll T xs store = .ok store') (x : ι) :
    (x ∈ xs → G.refresh store T x = .ok (store' x)) ∧ (x ∉ xs → store' x = store x) := by
  induction xs generalizing store with
  | nil =>
      obtain rfl := Except.ok.inj h
      simp
  | cons y xs ih =>
      obtain ⟨hy, hnodup⟩ := List.nodup_cons.mp hnodup
      cases hvalues : G.refresh store T y with
      | error e => simp [refreshAll, hvalues, bind, Except.bind] at h
      | ok values =>
          simp only [refreshAll, hvalues, bind, Except.bind] at h
          obtain ⟨hin, hout⟩ := ih hnodup h
          by_cases hx : x = y
          · subst hx
            refine ⟨fun _ => ?_, fun hnot => absurd (List.mem_cons_self) hnot⟩
            rw [hout hy, Function.update_self, hvalues]
          · have hsame : G.refresh (Function.update store y values) T x = G.refresh store T x := by
              simp only [refresh, Function.update_of_ne hx]
            constructor
            · intro hmem
              rw [← hsame]
              exact hin ((List.mem_cons.mp hmem).resolve_left hx)
            · intro hmem
              rw [hout fun hx' => hmem (List.mem_cons_of_mem _ hx'), Function.update_of_ne hx]

omit [DecidableEq ι] in
theorem mapM_finalize {xs : List ι} {deliveries : List (List (Delivery ι V))}
    (h : xs.mapM (G.finalize store T) = .ok deliveries) :
    (∀ x ∈ xs, G.sample store T x ≠ none) ∧
      deliveries.flatten = xs.flatMap fun x =>
        (G.sample store T x).elim [] (G.deliveriesOf x) := by
  induction xs generalizing deliveries with
  | nil =>
      obtain rfl : ([] : List (List (Delivery ι V))) = deliveries := Except.ok.inj h
      simp
  | cons x xs ih =>
      rw [List.mapM_cons] at h
      cases hx : G.sample store T x with
      | none => simp [finalize, Primitive.unsafeSample, hx, bind, Except.bind] at h
      | some value =>
          cases hrest : xs.mapM (G.finalize store T) with
          | error e => simp [finalize, Primitive.unsafeSample, hx, hrest, bind, Except.bind, pure,
              Except.pure] at h
          | ok rest =>
              simp only [finalize, Primitive.unsafeSample, hx, hrest, bind, Except.bind, pure,
                Except.pure, Except.ok.injEq] at h
              subst h
              obtain ⟨hsome, hflatten⟩ := ih hrest
              refine ⟨fun y hy => ?_, ?_⟩
              · rcases List.mem_cons.mp hy with rfl | hin
                · simp [hx]
                · exact hsome y hin
              · rw [List.flatten_cons, List.flatMap_cons, hflatten, hx]
                rfl

theorem sorted_nodup (s : Finset ι) : (G.sorted s).Nodup :=
  G.byAddress_nodup.filter _

theorem finalizeTransaction_spec {t : InnerTransaction ι V} {deliveries : List (Delivery ι V)}
    (h : G.finalizeTransaction store t = .ok (store', deliveries)) :
    (∀ x ∈ t.cleanups, G.refresh store t.id x = .ok (store' x)) ∧
      (∀ x ∉ t.cleanups, store' x = store x) ∧
      (∀ x ∈ t.cleanups, G.sample store t.id x ≠ none) ∧
      deliveries = (G.sorted t.cleanups).flatMap fun x =>
        (G.sample store t.id x).elim [] (G.deliveriesOf x) := by
  rw [finalizeTransaction] at h
  cases hcalls : (G.sorted t.cleanups).mapM (G.finalize store t.id) with
  | error e => simp [hcalls, bind, Except.bind] at h
  | ok calls =>
      cases hrefresh : G.refreshAll t.id (G.sorted t.cleanups) store with
      | error e => simp [hcalls, hrefresh, bind, Except.bind] at h
      | ok refreshed =>
          simp only [hcalls, hrefresh, bind, Except.bind, pure, Except.pure, Except.ok.injEq,
            Prod.mk.injEq] at h
          obtain ⟨rfl, rfl⟩ := h
          obtain ⟨hsome, hflatten⟩ := mapM_finalize hcalls
          have hall := refreshAll_spec (sorted_nodup t.cleanups) hrefresh
          simp only [G.mem_sorted] at hall hsome
          exact ⟨fun x => (hall x).1, fun x => (hall x).2, hsome, hflatten⟩

theorem exists_finalizeTransaction {t : InnerTransaction ι V} (h : ∀ x ∈ t.cleanups, t.id ∈ store x) :
    ∃ result, G.finalizeTransaction store t = .ok result := by
  have hsorted : ∀ x ∈ G.sorted t.cleanups, t.id ∈ store x := by simpa using h
  obtain ⟨deliveries, hdeliveries⟩ := G.exists_mapM_finalize hsorted
  obtain ⟨store', hstore'⟩ := G.exists_refreshAll (sorted_nodup t.cleanups) hsorted
  refine ⟨(store', deliveries.flatten), ?_⟩
  simp [finalizeTransaction, hdeliveries, hstore', bind, Except.bind, pure, Except.pure]

end Graph

end Prf
