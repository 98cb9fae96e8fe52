import Prf.TimeInvariantValues

/-!
# What the primitives mean

The value a primitive has at a transaction, given the values of everything it samples there, absence
included. The updaters compute it whenever something they listen to has a value.
-/

namespace Prf

namespace Primitive

variable {ι V : Type}

/-- The value of a primitive, from the values `m` of the others. -/
def meaning (m : ι → Option V) : Primitive ι V → Option V
  | streamSink | cellSink _ | cell _ => none
  | streamMap f s => (m s).map f
  | merge f s1 s2 =>
      match m s1, m s2 with
      | some v1, some v2 => some (f v1 v2)
      | some v1, none => some v1
      | none, v2 => v2
  | filter f s => (m s).filter f
  | snapshot f s cs => (m s).bind fun v => (cs.mapM m).map (f v)
  | gate truth s c => (m c).bind fun value => if truth value then m s else none
  | hold _ s => m s
  | cellMap f c => (m c).map f
  | lift f cs => (cs.mapM m).map f
  | streamLoop looped | cellLoop looped => looped.bind m
  | globalCellLoop _ => none

variable {self : ι} {m m' : ι → Option V} {p : Primitive ι V}

theorem unsafeSample_eq_ok_iff {x : ι} {v : V} : unsafeSample m x = .ok v ↔ m x = some v := by
  unfold unsafeSample
  cases m x <;> simp

theorem unsafeSample_of_some {x : ι} {v : V} (h : m x = some v) : unsafeSample m x = .ok v :=
  unsafeSample_eq_ok_iff.mpr h

theorem unsafeSample_of_none {x : ι} (h : m x = none) :
    unsafeSample m x = .error .noValueAtTime := by
  simp [unsafeSample, h]

/-- An updater that returns has computed the meaning. -/
theorem meaning_of_updater {res : Option V} {hooks : List (Hook ι V)}
    (h : p.updater self m = .ok (res, hooks)) : res = p.meaning m := by
  cases p with
  | streamSink => simp [updater] at h
  | cellSink | cell => simp_all [updater, meaning]
  | streamMap f s => cases hs : m s <;> simp_all [updater, meaning]
  | merge f s1 s2 =>
      cases h1 : m s1 <;> cases h2 : m s2 <;>
        simp only [updater, h1, h2, Except.ok.injEq, Prod.mk.injEq, reduceCtorEq] at h <;>
        simp [meaning, h1, h2, ← h.1]
  | filter f s =>
      cases hs : m s with
      | none => simp [updater, unsafeSample_of_none hs, bind, Except.bind] at h
      | some v =>
          simp only [updater, unsafeSample_of_some hs, bind, Except.bind, pure, Except.pure,
            Except.ok.injEq, Prod.mk.injEq] at h
          simp [meaning, hs, ← h.1, Option.filter]
  | snapshot f s cs =>
      cases hs : m s with
      | none => simp [updater, unsafeSample_of_none hs, bind, Except.bind] at h
      | some v =>
          simp only [updater, unsafeSample_of_some hs, bind, Except.bind, pure, Except.pure,
            Except.ok.injEq, Prod.mk.injEq] at h
          simp [meaning, hs, ← h.1]
  | gate truth s c =>
      cases hc : m c with
      | none =>
          simp only [updater, hc, Except.ok.injEq, Prod.mk.injEq] at h
          simp [meaning, hc, ← h.1]
      | some value =>
          by_cases htruth : truth value
          · cases hs : m s with
            | none => simp [updater, hc, htruth, unsafeSample_of_none hs, bind, Except.bind] at h
            | some v =>
                simp only [updater, hc, htruth, unsafeSample_of_some hs, bind, Except.bind, pure,
                  Except.pure, if_true, Except.ok.injEq, Prod.mk.injEq] at h
                simp [meaning, hc, htruth, hs, ← h.1]
          · simp_all [updater, meaning]
  | hold v s =>
      cases hs : m s with
      | none => simp [updater, unsafeSample_of_none hs, bind, Except.bind] at h
      | some v =>
          simp_all [updater, unsafeSample_of_some hs, bind, Except.bind, pure, Except.pure, meaning]
  | cellMap f c =>
      cases hc : m c with
      | none => simp [updater, unsafeSample_of_none hc, bind, Except.bind] at h
      | some v =>
          simp_all [updater, unsafeSample_of_some hc, bind, Except.bind, pure, Except.pure, meaning]
  | lift f cs => simp_all [updater, meaning]
  | streamLoop looped | cellLoop looped =>
      cases looped with
      | none => simp [updater] at h
      | some s =>
          cases hs : m s with
          | none => simp [updater, unsafeSample_of_none hs, bind, Except.bind] at h
          | some v =>
              simp_all [updater, unsafeSample_of_some hs, bind, Except.bind, pure, Except.pure,
                meaning]
  | globalCellLoop looped =>
      cases looped with
      | none => simp [updater] at h
      | some c =>
          cases hc : m c with
          | none => simp [updater, unsafeSample_of_none hc, bind, Except.bind] at h
          | some v =>
              simp_all [updater, unsafeSample_of_some hc, bind, Except.bind, pure, Except.pure,
                meaning]

/-- An updater returns if something it listens to has a value. -/
theorem exists_updater (self : ι) {s : ι} {v : V} (hs : s ∈ p.listens) (hv : m s = some v) :
    ∃ hooks, p.updater self m = .ok (p.meaning m, hooks) := by
  have hreturns : ∃ r, p.updater self m = .ok r := by
    cases p with
    | streamSink => simp [listens, listenTo, listenOverLoop, globalListen] at hs
    | cellSink | cell => exact ⟨_, rfl⟩
    | streamMap f s' | hold v' s' | cellMap f s' =>
        obtain rfl : s = s' := by
          simpa [listens, listenTo, listenOverLoop, globalListen] using hs
        simp [updater, hv, unsafeSample_of_some hv, bind, Except.bind, pure, Except.pure]
    | filter f s' | snapshot f s' cs =>
        obtain rfl : s = s' := by
          simpa [listens, listenTo, listenOverLoop, globalListen] using hs
        exact ⟨_, by simp [updater, unsafeSample_of_some hv, bind, Except.bind, pure, Except.pure]; rfl⟩
    | merge f s1 s2 =>
        have hor : s = s1 ∨ s = s2 := by
          simpa [listens, listenTo, listenOverLoop, globalListen] using hs
        rcases hor with rfl | rfl
        · cases h2 : m s2 <;> simp [updater, hv, h2]
        · cases h1 : m s1 <;> simp [updater, hv, h1]
    | gate truth s' c =>
        obtain rfl : s = s' := by
          simpa [listens, listenTo, listenOverLoop, globalListen] using hs
        cases hc : m c with
        | none => exact ⟨_, by simp [updater, hc]; rfl⟩
        | some value =>
            by_cases htruth : truth value
            · simp [updater, hc, htruth, unsafeSample_of_some hv, bind, Except.bind, pure,
                Except.pure]
            · exact ⟨_, by simp [updater, hc, htruth]; rfl⟩
    | lift f cs => exact ⟨_, rfl⟩
    | streamLoop looped | cellLoop looped | globalCellLoop looped =>
        cases looped with
        | none => simp [listens, listenTo, listenOverLoop, globalListen] at hs
        | some s' =>
            obtain rfl : s = s' := by
              simpa [listens, listenTo, listenOverLoop, globalListen] using hs
            simp [updater, unsafeSample_of_some hv, bind, Except.bind, pure, Except.pure]
  obtain ⟨⟨res, hooks⟩, h⟩ := hreturns
  exact ⟨hooks, by rw [h, meaning_of_updater h]⟩

theorem mapM_congr {cs : List ι} (h : ∀ c ∈ cs, m c = m' c) : cs.mapM m = cs.mapM m' := by
  induction cs with
  | nil => rfl
  | cons c cs ih =>
      rw [List.mapM_cons, List.mapM_cons, h c (by simp), ih fun c' hc' => h c' (by simp [hc'])]

/-- A primitive only depends on what it reads. -/
theorem meaning_congr (h : ∀ x ∈ p.reads, m x = m' x) : p.meaning m = p.meaning m' := by
  cases p with
  | streamSink | cellSink | cell | globalCellLoop => rfl
  | streamMap f s | filter f s | hold v s | cellMap f s =>
      have hs := h s (by simp [reads, listens, listenTo])
      simp only [meaning, hs]
  | merge f s1 s2 =>
      have h1 := h s1 (by simp [reads, listens, listenTo])
      have h2 := h s2 (by simp [reads, listens, listenTo])
      simp only [meaning, h1, h2]
  | snapshot f s cs =>
      have hs := h s (by simp [reads, listens, listenTo])
      have hcs : cs.mapM m = cs.mapM m' :=
        mapM_congr fun c hc => h c (by simp [reads, childTo, hc])
      simp only [meaning, hs, hcs]
  | gate truth s c =>
      have hs := h s (by simp [reads, listens, listenTo])
      have hc := h c (by simp [reads, childTo])
      simp only [meaning, hs, hc]
  | lift f cs =>
      have hcs : cs.mapM m = cs.mapM m' :=
        mapM_congr fun c hc => h c (by simp [reads, listens, listenTo, hc])
      simp only [meaning, hcs]
  | streamLoop looped | cellLoop looped =>
      cases looped with
      | none => rfl
      | some s =>
          have hs := h s (by simp [reads, listens, listenOverLoop])
          simp only [meaning, Option.bind_some, hs]

theorem updater_congr (h : ∀ x ∈ p.reads, m x = m' x) : p.updater self m = p.updater self m' := by
  have hsample : ∀ x, m x = m' x → unsafeSample m x = unsafeSample m' x := by
    intro x hx
    simp only [unsafeSample, hx]
  cases p with
  | streamSink | cellSink | cell => rfl
  | streamMap f s | filter f s | hold v s | cellMap f s =>
      have hs := h s (by simp [reads, listens, listenTo])
      simp only [updater, hs, hsample s hs]
  | merge f s1 s2 =>
      have h1 := h s1 (by simp [reads, listens, listenTo])
      have h2 := h s2 (by simp [reads, listens, listenTo])
      simp only [updater, h1, h2]
  | snapshot f s cs =>
      have hs := h s (by simp [reads, listens, listenTo])
      have hcs : cs.mapM m = cs.mapM m' :=
        mapM_congr fun c hc => h c (by simp [reads, childTo, hc])
      simp only [updater, hsample s hs, hcs]
  | gate truth s c =>
      have hs := h s (by simp [reads, listens, listenTo])
      have hc := h c (by simp [reads, childTo])
      simp only [updater, hsample s hs, hc]
  | lift f cs =>
      have hcs : cs.mapM m = cs.mapM m' :=
        mapM_congr fun c hc => h c (by simp [reads, listens, listenTo, hc])
      simp only [updater, hcs]
  | streamLoop looped | cellLoop looped | globalCellLoop looped =>
      cases looped with
      | none => rfl
      | some s =>
          have hs := h s (by simp [reads, listens, listenOverLoop, globalListen])
          simp only [updater, hsample s hs]

end Primitive

namespace Graph

variable {ι V : Type} [DecidableEq ι] (G : Graph ι V)

theorem sample_insert (store : Store ι V) (T : ID) (x : ι) (value : V) :
    G.sample (Function.update store x ((store x).insert T value)) T =
      Function.update (G.sample store T) x (some value) := by
  funext y
  by_cases hy : y = x
  · subst hy
    simp only [sample, Function.update_self]
    split
    · exact OrderedMap.floor?_eq_of_getElem? le_rfl (by simp) fun k' hlt hle =>
        absurd hlt (not_lt.mpr hle)
    · simp [StreamInternal.sample]
  · simp [sample, Function.update_of_ne hy]

end Graph

end Prf
