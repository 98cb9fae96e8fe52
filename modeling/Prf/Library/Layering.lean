import Mathlib

/-!
# Layers of a relation

Taking away the vertices nothing leads to, again and again, reaches exactly the vertices behind no
cycle. The layer of a vertex is the length of the longest chain of such vertices that ends in it.
-/

namespace Layering

open Relation

variable {α : Type*} {E : α → α → Prop} {u v : α}

theorem lt_of_transGen {β : Type*} [Preorder β] (f : α → β) (hf : ∀ u v, E u v → f u < f v)
    (huv : TransGen E u v) : f u < f v := by
  induction huv with
  | single huv => exact hf _ _ huv
  | tail _ hvw ih => exact ih.trans (hf _ _ hvw)

/-- What goes up along every edge forbids cycles. -/
theorem acyclic_of_lt {β : Type*} [Preorder β] (f : α → β) (hf : ∀ u v, E u v → f u < f v)
    (v : α) : ¬ TransGen E v v :=
  fun hcycle => lt_irrefl _ (lt_of_transGen f hf hcycle)

/-- No cycle leads to `v`. -/
def Grounded (E : α → α → Prop) (v : α) : Prop :=
  ∀ u, ReflTransGen E u v → ¬ TransGen E u u

theorem Grounded.parent (h : Grounded E v) (huv : E u v) : Grounded E u :=
  fun w hw => h w (hw.tail huv)

theorem Grounded.not_self (h : Grounded E v) : ¬ TransGen E v v :=
  h v .refl

/-- What only grounded vertices lead to is grounded. -/
theorem grounded_of_parents (h : ∀ u, E u v → Grounded E u) : Grounded E v := by
  intro w hwv hcycle
  rcases hwv.cases_tail with rfl | ⟨u, hwu, huv⟩
  · obtain ⟨u, hvu, huv⟩ := TransGen.tail'_iff.mp hcycle
    exact h u huv _ hvu hcycle
  · exact h u huv w hwu hcycle

/-- Where only finitely many vertices lead anywhere, grounded vertices are reached from below. -/
theorem Grounded.acc (S : Finset α) (hS : ∀ u v, E u v → u ∈ S) (h : Grounded E v) : Acc E v := by
  classical
  induction hn : (S.filter fun w => TransGen E w v).card using Nat.strong_induction_on
    generalizing v with
  | _ n ih =>
      refine ⟨v, fun u huv => ih _ ?_ (h.parent huv) rfl⟩
      rw [← hn]
      refine Finset.card_lt_card (Finset.ssubset_iff_of_subset ?_ |>.mpr ⟨u, ?_, ?_⟩)
      · intro w hw
        rw [Finset.mem_filter] at hw ⊢
        exact ⟨hw.1, hw.2.tail huv⟩
      · exact Finset.mem_filter.mpr ⟨hS u v huv, .single huv⟩
      · exact fun hu => (h.parent huv).not_self (Finset.mem_filter.mp hu).2

/-- A chain of `n` vertices in `P` ends in `v`, which is not counted. -/
def Chain (E : α → α → Prop) (P : α → Prop) : ℕ → α → Prop
  | 0, _ => True
  | n + 1, v => ∃ u, P u ∧ E u v ∧ Chain E P n u

variable {P : α → Prop} {rank : α → ℕ}

theorem le_rank_iff_chain
    (hrank : ∀ v n, n < rank v ↔ ∃ u, P u ∧ E u v ∧ n ≤ rank u) (n : ℕ) (v : α) :
    n ≤ rank v ↔ Chain E P n v := by
  induction n generalizing v with
  | zero => exact ⟨fun _ => trivial, fun _ => Nat.zero_le _⟩
  | succ n ih =>
      rw [Nat.succ_le_iff, hrank]
      exact exists_congr fun u => and_congr_right fun _ => and_congr_right fun _ => ih u

/-- One vertex is in a higher layer than another when a longer chain ends in it. -/
theorem rank_lt_iff_chain
    (hrank : ∀ v n, n < rank v ↔ ∃ u, P u ∧ E u v ∧ n ≤ rank u) :
    rank u < rank v ↔ ∃ n, Chain E P n v ∧ ¬ Chain E P n u := by
  simp only [← le_rank_iff_chain hrank, not_le]
  constructor
  · exact fun h => ⟨rank v, le_rfl, h⟩
  · rintro ⟨n, hle, hlt⟩
    exact hlt.trans_le hle

theorem Chain.imp {Q : α → Prop} (h : ∀ u v, E u v → P u → Q u) {n : ℕ} (hchain : Chain E P n v) :
    Chain E Q n v := by
  induction n generalizing v with
  | zero => trivial
  | succ n ih =>
      obtain ⟨u, hu, huv, hchain⟩ := hchain
      exact ⟨u, h u v huv hu, huv, ih hchain⟩

/-- A chain of grounded vertices does not come back to where it has been, so it is shorter than the
set it stays in. -/
theorem Chain.lt_card (S : Finset α) (hS : ∀ u v, E u v → u ∈ S) (hP : ∀ u, P u → Grounded E u)
    (hv : v ∈ S) {n : ℕ} (hchain : Chain E P n v) : n < S.card := by
  classical
  let below (v : α) : Finset α := S.filter fun u => P u ∧ TransGen E u v
  have hle : ∀ n v, Chain E P n v → n ≤ (below v).card := by
    intro n
    induction n with
    | zero => exact fun v _ => Nat.zero_le _
    | succ n ih =>
        rintro v ⟨u, hu, huv, hchain⟩
        have hself : u ∉ below u := fun h => (hP u hu).not_self (Finset.mem_filter.mp h).2.2
        have hsub : insert u (below u) ⊆ below v := by
          intro w hw
          rcases Finset.mem_insert.mp hw with rfl | hw
          · exact Finset.mem_filter.mpr ⟨hS w v huv, hu, .single huv⟩
          · obtain ⟨hwS, hwP, hwu⟩ := Finset.mem_filter.mp hw
            exact Finset.mem_filter.mpr ⟨hwS, hwP, hwu.tail huv⟩
        calc
          n + 1 ≤ (below u).card + 1 := Nat.succ_le_succ (ih u hchain)
          _ = (insert u (below u)).card := (Finset.card_insert_of_notMem hself).symm
          _ ≤ (below v).card := Finset.card_le_card hsub
  have hproper : below v ⊂ S := by
    refine Finset.ssubset_iff_of_subset (Finset.filter_subset _ _) |>.mpr ⟨v, hv, fun h => ?_⟩
    obtain ⟨-, hPv, hcycle⟩ := Finset.mem_filter.mp h
    exact (hP v hPv).not_self hcycle
  exact (hle n v hchain).trans_lt (Finset.card_lt_card hproper)

/-- A path of `n` steps along `E` ends in `v`. -/
def Path (E : α → α → Prop) (n : ℕ) (v : α) : Prop :=
  ∃ before : List α, before.length = n ∧ (before ++ [v]).IsChain E

theorem path_iff_chain (n : ℕ) (v : α) : Path E n v ↔ Chain E (fun _ => True) n v := by
  induction n generalizing v with
  | zero => simp [Path, Chain]
  | succ n ih =>
      constructor
      · rintro ⟨before, hlength, hpath⟩
        obtain rfl | ⟨front, u, rfl⟩ := List.eq_nil_or_concat' before
        · simp at hlength
        rw [List.append_assoc, List.singleton_append, List.isChain_append_cons_cons] at hpath
        refine ⟨u, trivial, hpath.2.1, (ih u).mp ⟨front, by simpa using hlength, hpath.1⟩⟩
      · rintro ⟨u, -, huv, hchain⟩
        obtain ⟨front, hlength, hpath⟩ := (ih u).mpr hchain
        refine ⟨front ++ [u], by simp [hlength], ?_⟩
        rw [List.append_assoc, List.singleton_append, List.isChain_append_cons_cons]
        exact ⟨hpath, huv, .singleton v⟩

/-! ## Images

A relation on names, when several names stand for one vertex. -/

section Image

variable {β : Type*} {E : β → β → Prop} {f : α → β} {a b x : α}

theorem exists_transGen_of_image (hrange : ∀ u v, E u v → u ∈ Set.range f) {u : β}
    (h : TransGen E u (f x)) : ∃ a, f a = u ∧ TransGen (fun a b => E (f a) (f b)) a x := by
  induction h using TransGen.head_induction_on with
  | single huv =>
      obtain ⟨a, rfl⟩ := hrange _ _ huv
      exact ⟨a, rfl, .single huv⟩
  | head huv _ ih =>
      obtain ⟨a, rfl⟩ := hrange _ _ huv
      obtain ⟨b, rfl, hb⟩ := ih
      exact ⟨a, rfl, hb.head huv⟩

/-- What leads to one name of a vertex leads to its other names. -/
theorem transGen_of_image_eq (hab : f a = f b) (h : TransGen (fun a b => E (f a) (f b)) x a) :
    TransGen (fun a b => E (f a) (f b)) x b := by
  obtain ⟨y, hxy, hya⟩ := TransGen.tail'_iff.mp h
  exact .tail' hxy (hab ▸ hya)

theorem grounded_image (hrange : ∀ u v, E u v → u ∈ Set.range f) (x : α) :
    Grounded E (f x) ↔ Grounded (fun a b => E (f a) (f b)) x := by
  constructor
  · intro h a hax hcycle
    exact h (f a) (hax.lift f fun _ _ h => h) (hcycle.lift f fun _ _ h => h)
  · intro h u hux hcycle
    have hloop : ∀ b, f b = u → ∃ a, f a = u ∧
        TransGen (fun a b => E (f a) (f b)) a a ∧ TransGen (fun a b => E (f a) (f b)) a b := by
      rintro b rfl
      obtain ⟨a, ha, hab⟩ := exists_transGen_of_image hrange hcycle
      exact ⟨a, ha, transGen_of_image_eq ha.symm hab, hab⟩
    rcases reflTransGen_iff_eq_or_transGen.mp hux with heq | hux
    · obtain ⟨a, -, hself, hax⟩ := hloop x heq
      exact h a hax.to_reflTransGen hself
    · obtain ⟨b, hb, hbx⟩ := exists_transGen_of_image hrange hux
      obtain ⟨a, -, hself, hab⟩ := hloop b hb
      exact h a (hab.trans hbx).to_reflTransGen hself

theorem chain_image (hrange : ∀ u v, E u v → u ∈ Set.range f) {P : β → Prop} (n : ℕ) (x : α) :
    Chain E P n (f x) ↔ Chain (fun a b => E (f a) (f b)) (fun a => P (f a)) n x := by
  induction n generalizing x with
  | zero => exact Iff.rfl
  | succ n ih =>
      constructor
      · rintro ⟨u, hu, hux, hchain⟩
        obtain ⟨a, rfl⟩ := hrange _ _ hux
        exact ⟨a, hu, hux, (ih a).mp hchain⟩
      · rintro ⟨a, ha, hax, hchain⟩
        exact ⟨f a, ha, hax, (ih a).mpr hchain⟩

end Image

end Layering
