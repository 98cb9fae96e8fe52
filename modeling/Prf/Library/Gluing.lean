import Mathlib

/-!
# Gluing classes along pairs

A partition given by a map to representatives, and what becomes of it when two classes are joined.
The relation behind it is the equivalence generated by the pairs glued so far.
-/

namespace Gluing

variable {α β : Type*}

/-- `root` sends two elements of `S` to one representative exactly when `R` generates their
equivalence. -/
def Classifies (S : Set α) (R : α → α → Prop) (root : α → β) : Prop :=
  ∀ x ∈ S, ∀ y ∈ S, root x = root y ↔ Relation.EqvGen R x y

/-- The relation `R` with the pair `(a, b)` added. -/
def Add (R : α → α → Prop) (a b : α) : α → α → Prop :=
  fun x y => R x y ∨ x = a ∧ y = b

variable {S : Set α} {R R' : α → α → Prop} {root : α → β} {a b x y : α}

theorem eqvGen_add_left (hxy : Relation.EqvGen R x y) : Relation.EqvGen (Add R a b) x y :=
  hxy.mono fun _ _ h => Or.inl h

theorem eqvGen_add_self : Relation.EqvGen (Add R a b) a b :=
  .rel _ _ (Or.inr ⟨rfl, rfl⟩)

/-- Every function constant along `R` is constant on the classes `R` generates. -/
theorem eq_of_eqvGen {γ : Type*} {f : α → γ} (hf : ∀ x y, R x y → f x = f y)
    (hxy : Relation.EqvGen R x y) : f x = f y := by
  induction hxy with
  | rel x y h => exact hf x y h
  | refl x => rfl
  | symm x y _ ih => exact ih.symm
  | trans x y z _ _ ihxy ihyz => exact ihxy.trans ihyz

/-- A relation inside a generated equivalence generates nothing new. -/
theorem eqvGen_of_le (h : ∀ x y, R x y → Relation.EqvGen R' x y) (hxy : Relation.EqvGen R x y) :
    Relation.EqvGen R' x y := by
  induction hxy with
  | rel x y hxy => exact h x y hxy
  | refl x => exact .refl x
  | symm x y _ ih => exact .symm _ _ ih
  | trans x y z _ _ ihxy ihyz => exact .trans _ _ _ ihxy ihyz

/-- What a relation between names generates, when all it relates has a name. -/
theorem eqvGen_image {β : Type*} {E : β → β → Prop} {f : α → β} (hf : Function.Injective f)
    (hrange : ∀ u v, E u v → u ∈ Set.range f ∧ v ∈ Set.range f) (x y : α) :
    Relation.EqvGen E (f x) (f y) ↔ Relation.EqvGen (fun a b => E (f a) (f b)) x y := by
  constructor
  · have himage : ∀ u v, Relation.EqvGen E u v →
        u = v ∨ ∃ a b, f a = u ∧ f b = v ∧ Relation.EqvGen (fun a b => E (f a) (f b)) a b := by
      intro u v h
      induction h with
      | rel u v h =>
          obtain ⟨⟨a, rfl⟩, ⟨b, rfl⟩⟩ := hrange u v h
          exact .inr ⟨a, b, rfl, rfl, .rel _ _ h⟩
      | refl u => exact .inl rfl
      | symm u v _ ih =>
          rcases ih with rfl | ⟨a, b, ha, hb, hab⟩
          · exact .inl rfl
          · exact .inr ⟨b, a, hb, ha, .symm _ _ hab⟩
      | trans u v w _ _ ihuv ihvw =>
          rcases ihuv with rfl | ⟨a, b, ha, hb, hab⟩
          · exact ihvw
          rcases ihvw with rfl | ⟨b', c, hb', hc, hbc⟩
          · exact .inr ⟨a, b, ha, hb, hab⟩
          · obtain rfl := hf (hb.trans hb'.symm)
            exact .inr ⟨a, c, ha, hc, .trans _ _ _ hab hbc⟩
    intro h
    rcases himage _ _ h with heq | ⟨a, b, ha, hb, hab⟩
    · exact hf heq ▸ .refl x
    · exact hf ha ▸ hf hb ▸ hab
  · intro h
    induction h with
    | rel a b h => exact .rel _ _ h
    | refl a => exact .refl _
    | symm a b _ ih => exact .symm _ _ ih
    | trans a b c _ _ ihab ihbc => exact .trans _ _ _ ihab ihbc

/-- Sending the class of `a` to the representative of `b` joins the two classes and no others. -/
theorem Classifies.add [DecidableEq β] (h : Classifies S R root) (ha : a ∈ S) (hb : b ∈ S)
    (hR : ∀ x y, R x y → x ∈ S ∧ y ∈ S) :
    Classifies S (Add R a b) fun x => if root x = root a then root b else root x := by
  intro x hx y hy
  constructor
  · intro hroot
    simp only at hroot
    have hjoin : ∀ z ∈ S, root z = root a → Relation.EqvGen (Add R a b) z b := fun z hz hza =>
      .trans _ _ _ (eqvGen_add_left ((h z hz a ha).mp hza)) eqvGen_add_self
    by_cases hxa : root x = root a <;> by_cases hya : root y = root a
    · exact eqvGen_add_left ((h x hx y hy).mp (hxa.trans hya.symm))
    · rw [if_pos hxa, if_neg hya] at hroot
      exact .trans _ _ _ (hjoin x hx hxa) (eqvGen_add_left ((h b hb y hy).mp hroot))
    · rw [if_neg hxa, if_pos hya] at hroot
      exact .trans _ _ _ (eqvGen_add_left ((h x hx b hb).mp hroot)) (.symm _ _ (hjoin y hy hya))
    · rw [if_neg hxa, if_neg hya] at hroot
      exact eqvGen_add_left ((h x hx y hy).mp hroot)
  · refine fun hgen => eq_of_eqvGen (R := Add R a b)
      (f := fun x => if root x = root a then root b else root x) (fun u v huv => ?_) hgen
    rcases huv with huv | ⟨rfl, rfl⟩
    · obtain ⟨hu, hv⟩ := hR u v huv
      simp only [(h u hu v hv).mpr (.rel _ _ huv)]
    · by_cases hba : root v = root u <;> simp [hba]

theorem Classifies.congr (h : Classifies S R root)
    (hgen : ∀ x y, Relation.EqvGen R x y ↔ Relation.EqvGen R' x y) : Classifies S R' root :=
  fun x hx y hy => (h x hx y hy).trans (hgen x y)

end Gluing
