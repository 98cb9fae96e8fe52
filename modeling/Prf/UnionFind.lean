import Prf.Types
import Prf.Library.Gluing

/-!
# Union-find

`union_find.cpp`, and what its calls do to the partition the `parents` array stands for.
-/

namespace Prf

/-- `class UnionFind`. -/
structure UnionFind where
  parents : List ℕ
deriving DecidableEq

namespace UnionFind

/-- `UnionFind(size)`. -/
def new (size : ℕ) : UnionFind := ⟨List.range size⟩

/-- The member `size`. -/
def size (uf : UnionFind) : ℕ := uf.parents.length

/-- The recursion of `get_parent`, stopped after `fuel` nested calls. `none` where it runs longer
or leaves the array. -/
def climb : ℕ → List ℕ → ℕ → Option (ℕ × List ℕ)
  | fuel, parents, p =>
      match parents[p]? with
      | none => none
      | some q =>
          if q = p then some (p, parents)
          else
            match fuel with
            | 0 => none
            | fuel + 1 => (climb fuel parents q).map fun (root, parents) =>
                (root, parents.set p root)

/-- `UnionFind::get_parent`, and the structure with the compressed path. -/
def getParent (uf : UnionFind) (p : ℕ) : Option (ℕ × UnionFind) :=
  (climb uf.size uf.parents p).map fun (root, parents) => (root, ⟨parents⟩)

/-- `UnionFind::merge`. -/
def merge (uf : UnionFind) (p q : ℕ) : Option UnionFind := do
  let (pp, uf) ← uf.getParent p
  let (qp, uf) ← uf.getParent q
  if pp = qp then return uf
  else
    let parent ← uf.parents[qp]?
    return ⟨uf.parents.set pp parent⟩

/-- `UnionFind::is_same`. -/
def isSame (uf : UnionFind) (p q : ℕ) : Option (Bool × UnionFind) := do
  let (pp, uf) ← uf.getParent p
  let (qp, uf) ← uf.getParent q
  return (pp = qp, uf)

/-- The array is a forest with the roots `root`; `depth` decreases towards them. -/
structure Forest (parents : List ℕ) (root depth : ℕ → ℕ) : Prop where
  parent_lt : ∀ p q : ℕ, parents[p]? = some q → q < parents.length
  root_parent : ∀ p q : ℕ, parents[p]? = some q → root q = root p
  root_self : ∀ p : ℕ, parents[p]? = some p → root p = p
  depth_parent : ∀ p q : ℕ, parents[p]? = some q → q ≠ p → depth q < depth p

namespace Forest

variable {parents : List ℕ} {root depth : ℕ → ℕ} {p q : ℕ}

theorem parent_root (h : Forest parents root depth) (hp : p < parents.length) :
    parents[root p]? = some (root p) ∧ depth (root p) ≤ depth p := by
  induction hd : depth p using Nat.strong_induction_on generalizing p with
  | _ d ih =>
      obtain ⟨q, hq⟩ : ∃ q, parents[p]? = some q := ⟨_, List.getElem?_eq_getElem hp⟩
      by_cases hqp : q = p
      · subst hqp
        rw [h.root_self q hq]
        exact ⟨hq, hd.le⟩
      · have hlt := h.depth_parent p q hq hqp
        obtain ⟨hroot, hle⟩ := ih (depth q) (hd ▸ hlt) (h.parent_lt p q hq) rfl
        rw [h.root_parent p q hq] at hroot hle
        exact ⟨hroot, by omega⟩

theorem root_lt (h : Forest parents root depth) (hp : p < parents.length) :
    root p < parents.length :=
  h.parent_lt _ _ (h.parent_root hp).1

theorem root_root (h : Forest parents root depth) (hp : p < parents.length) :
    root (root p) = root p :=
  h.root_self _ (h.parent_root hp).1

theorem depth_root_lt (h : Forest parents root depth) (hp : parents[p]? = some q) (hne : q ≠ p) :
    depth (root p) < depth p := by
  have hle := (h.parent_root (h.parent_lt p q hp)).2
  rw [h.root_parent p q hp] at hle
  exact lt_of_le_of_lt hle (h.depth_parent p q hp hne)

theorem set_root (h : Forest parents root depth) (hp : parents[p]? = some q) (hne : q ≠ p) :
    Forest (parents.set p (root p)) root depth := by
  have hlen : p < parents.length := (List.getElem?_eq_some_iff.mp hp).1
  have hget : ∀ x y : ℕ, (parents.set p (root p))[x]? = some y →
      x = p ∧ y = root p ∨ x ≠ p ∧ parents[x]? = some y := by
    intro x y hxy
    rw [List.getElem?_set] at hxy
    by_cases hx : p = x
    · subst hx
      simp only [if_true, hlen] at hxy
      exact Or.inl ⟨rfl, (Option.some.inj hxy).symm⟩
    · simp only [hx, if_false] at hxy
      exact Or.inr ⟨fun h => hx h.symm, hxy⟩
  constructor
  · intro x y hxy
    rw [List.length_set]
    rcases hget x y hxy with ⟨-, rfl⟩ | ⟨-, hxy⟩
    · exact h.root_lt hlen
    · exact h.parent_lt x y hxy
  · intro x y hxy
    rcases hget x y hxy with ⟨rfl, rfl⟩ | ⟨-, hxy⟩
    · exact h.root_root hlen
    · exact h.root_parent x y hxy
  · intro x hx
    rcases hget x x hx with ⟨rfl, hroot⟩ | ⟨-, hx⟩
    · exact hroot.symm
    · exact h.root_self x hx
  · intro x y hxy hyx
    rcases hget x y hxy with ⟨rfl, rfl⟩ | ⟨-, hxy⟩
    · exact h.depth_root_lt hp hne
    · exact h.depth_parent x y hxy hyx

/-- The elements strictly below `p`: what is left of the fuel when the recursion reaches `p`. -/
def below (parents : List ℕ) (depth : ℕ → ℕ) (p : ℕ) : Finset ℕ :=
  (Finset.range parents.length).filter fun q => depth q < depth p

theorem below_card_lt (h : Forest parents root depth) (hp : parents[p]? = some q) (hne : q ≠ p) :
    (below parents depth q).card < (below parents depth p).card := by
  have hlt := h.depth_parent p q hp hne
  refine Finset.card_lt_card (Finset.ssubset_iff_subset_ne.mpr ⟨?_, ?_⟩)
  · intro x hx
    simp only [below, Finset.mem_filter, Finset.mem_range] at hx ⊢
    exact ⟨hx.1, by omega⟩
  · intro heq
    have hq : q ∈ below parents depth p := by
      simp only [below, Finset.mem_filter, Finset.mem_range]
      exact ⟨h.parent_lt p q hp, hlt⟩
    rw [← heq] at hq
    simp [below] at hq

/-- With enough fuel the recursion returns the root and leaves a forest with the same roots. -/
theorem climb_eq (h : Forest parents root depth) (hp : p < parents.length) (fuel : ℕ)
    (hfuel : (below parents depth p).card ≤ fuel) :
    ∃ parents', climb fuel parents p = some (root p, parents') ∧
      Forest parents' root depth ∧ parents'.length = parents.length ∧
      ∀ x : ℕ, (∃ y, parents'[x]? = some y ∧ y ≠ x) ↔ ∃ y, parents[x]? = some y ∧ y ≠ x := by
  induction fuel generalizing p with
  | zero =>
      obtain ⟨q, hq⟩ : ∃ q, parents[p]? = some q := ⟨_, List.getElem?_eq_getElem hp⟩
      by_cases hqp : q = p
      · subst hqp
        refine ⟨parents, ?_, h, rfl, fun x => Iff.rfl⟩
        rw [climb]
        simp [hq, h.root_self q hq]
      · have := h.below_card_lt hq hqp
        omega
  | succ fuel ih =>
      obtain ⟨q, hq⟩ : ∃ q, parents[p]? = some q := ⟨_, List.getElem?_eq_getElem hp⟩
      by_cases hqp : q = p
      · subst hqp
        refine ⟨parents, ?_, h, rfl, fun x => Iff.rfl⟩
        rw [climb]
        simp [hq, h.root_self q hq]
      · have hlt := h.below_card_lt hq hqp
        obtain ⟨parents', hclimb, hforest, hlength, hinner⟩ :=
          ih (h.parent_lt p q hq) (by omega)
        rw [h.root_parent p q hq] at hclimb
        obtain ⟨q', hq', hne'⟩ := (hinner p).mpr ⟨q, hq, hqp⟩
        refine ⟨parents'.set p (root p), ?_, hforest.set_root hq' hne', by simp [hlength], ?_⟩
        · rw [climb]
          simp [hq, hqp, hclimb]
        · intro x
          rw [← hinner x, List.getElem?_set]
          by_cases hx : p = x
          · subst hx
            have hroot : root p ≠ p := by
              intro heq
              have := hforest.depth_root_lt hq' hne'
              rw [heq] at this
              omega
            obtain ⟨_, hval⟩ := List.getElem?_eq_some_iff.mp hq'
            simp [hlength, hp, hroot, hval, hne']
          · simp [hx]

theorem set_parent (h : Forest parents root depth) {a b : ℕ} (ha : parents[a]? = some a)
    (hb : parents[b]? = some b) (hab : a ≠ b) :
    Forest (parents.set a b) (fun x => if root x = a then b else root x)
      (fun x => if root x = a then depth x + depth b + 1 else depth x) := by
  have hlen : a < parents.length := (List.getElem?_eq_some_iff.mp ha).1
  have hra := h.root_self a ha
  have hrb := h.root_self b hb
  have hget : ∀ x y : ℕ, (parents.set a b)[x]? = some y →
      x = a ∧ y = b ∨ x ≠ a ∧ parents[x]? = some y := by
    intro x y hxy
    rw [List.getElem?_set] at hxy
    by_cases hx : a = x
    · subst hx
      simp only [if_true, hlen] at hxy
      exact Or.inl ⟨rfl, (Option.some.inj hxy).symm⟩
    · simp only [hx, if_false] at hxy
      exact Or.inr ⟨fun h => hx h.symm, hxy⟩
  constructor
  · intro x y hxy
    rw [List.length_set]
    rcases hget x y hxy with ⟨-, rfl⟩ | ⟨-, hxy⟩
    · exact (List.getElem?_eq_some_iff.mp hb).1
    · exact h.parent_lt x y hxy
  · intro x y hxy
    rcases hget x y hxy with ⟨rfl, rfl⟩ | ⟨-, hxy⟩
    · simp [hra, hrb]
    · simp only [h.root_parent x y hxy]
  · intro x hx
    rcases hget x x hx with ⟨rfl, heq⟩ | ⟨hxa, hx⟩
    · exact absurd heq hab
    · simp [h.root_self x hx, hxa]
  · intro x y hxy hyx
    rcases hget x y hxy with ⟨rfl, rfl⟩ | ⟨-, hxy⟩
    · simp only [hra, hrb, if_true, if_neg hab.symm]
      omega
    · have hlt := h.depth_parent x y hxy hyx
      simp only [h.root_parent x y hxy]
      split <;> omega

end Forest

/-- `uf` is a forest whose trees are the classes `R` generates on `S`, an element of `S` being known
to it under the number `num` gives it. -/
def Represents {α : Type*} (uf : UnionFind) (S : Set α) (num : α → ℕ) (R : α → α → Prop) : Prop :=
  ∃ root depth, Forest uf.parents root depth ∧ Gluing.Classifies S R (root ∘ num) ∧
    (∀ x ∈ S, num x < uf.size) ∧ ∀ x y, R x y → x ∈ S ∧ y ∈ S

theorem forest_getParent {uf : UnionFind} {root depth : ℕ → ℕ}
    (h : Forest uf.parents root depth) {p : ℕ} (hp : p < uf.size) :
    ∃ uf', uf.getParent p = some (root p, uf') ∧ Forest uf'.parents root depth ∧
      uf'.size = uf.size := by
  have hcard : (Forest.below uf.parents depth p).card ≤ uf.size := by
    refine (Finset.card_filter_le _ _).trans ?_
    simp [size]
  obtain ⟨parents', hclimb, hforest, hlength, -⟩ := h.climb_eq hp uf.size hcard
  exact ⟨⟨parents'⟩, by simp [getParent, hclimb], hforest, hlength⟩

theorem forest_new (n : ℕ) : Forest (new n).parents id id := by
  constructor <;> intro p
  · intro q hq
    simp only [new] at hq ⊢
    simp_all [List.getElem?_eq_some_iff]
    omega
  · intro q hq
    simp_all [new, List.getElem?_eq_some_iff]
  · simp
  · intro q hq hne
    simp_all [new, List.getElem?_eq_some_iff]

section Represents

variable {α : Type*} {uf : UnionFind} {S : Set α} {num : α → ℕ} {R : α → α → Prop}

theorem represents_new {n : ℕ} (hlt : ∀ x ∈ S, num x < n) (hinj : Set.InjOn num S) :
    (new n).Represents S num fun _ _ => False := by
  refine ⟨id, id, forest_new n, ?_, by simpa [size, new] using hlt, fun _ _ h => h.elim⟩
  intro x hx y hy
  constructor
  · intro h
    exact hinj hx hy h ▸ .refl _
  · intro h
    exact congrArg num (Gluing.eq_of_eqvGen (f := id) (fun _ _ h => h.elim) h)

/-- `merge` adds one pair to the generating relation. -/
theorem Represents.merge (h : uf.Represents S num R) {a b : α} (ha : a ∈ S) (hb : b ∈ S) :
    ∃ uf', uf.merge (num a) (num b) = some uf' ∧ uf'.Represents S num (Gluing.Add R a b) := by
  obtain ⟨root, depth, hforest, hclass, hlt, hR⟩ := h
  obtain ⟨uf₁, hget₁, hforest₁, hsize₁⟩ := forest_getParent hforest (hlt a ha)
  obtain ⟨uf₂, hget₂, hforest₂, hsize₂⟩ := forest_getParent hforest₁ (hsize₁ ▸ hlt b hb)
  have hsize : uf₂.size = uf.size := hsize₂.trans hsize₁
  have hadd := hclass.add ha hb hR
  have hR' : ∀ x y, Gluing.Add R a b x y → x ∈ S ∧ y ∈ S := by
    rintro x y (hxy | ⟨rfl, rfl⟩)
    · exact hR x y hxy
    · exact ⟨ha, hb⟩
  by_cases heq : root (num a) = root (num b)
  · refine ⟨uf₂, by simp [UnionFind.merge, hget₁, hget₂, heq], ?_⟩
    refine ⟨root, depth, hforest₂, ?_, by rwa [hsize], hR'⟩
    convert hadd using 2 with x
    simp only [Function.comp_apply]
    split <;> simp_all
  · have ha₂ := (hforest₂.parent_root (p := num a) (hsize.ge.trans_lt' (hlt a ha))).1
    have hb₂ := (hforest₂.parent_root (p := num b) (hsize.ge.trans_lt' (hlt b hb))).1
    refine ⟨⟨uf₂.parents.set (root (num a)) (root (num b))⟩, ?_, ?_⟩
    · simp [UnionFind.merge, hget₁, hget₂, heq, hb₂]
    · refine ⟨_, _, hforest₂.set_parent ha₂ hb₂ heq, hadd, ?_, hR'⟩
      rw [← hsize] at hlt
      simpa [size] using hlt

theorem Represents.congr {R' : α → α → Prop} (h : uf.Represents S num R)
    (hR : ∀ x y, R x y → Relation.EqvGen R' x y) (hR' : ∀ x y, R' x y → Relation.EqvGen R x y)
    (hin : ∀ x y, R' x y → x ∈ S ∧ y ∈ S) : uf.Represents S num R' := by
  obtain ⟨root, depth, hforest, hclass, hlt, -⟩ := h
  refine ⟨root, depth, hforest, hclass.congr fun x y => ?_, hlt, hin⟩
  exact ⟨Gluing.eqvGen_of_le hR, Gluing.eqvGen_of_le hR'⟩

theorem Represents.of_iff {R' : α → α → Prop} (h : uf.Represents S num R)
    (hR : ∀ x y, R x y ↔ R' x y) : uf.Represents S num R' := by
  have : R = R' := funext fun x => funext fun y => propext (hR x y)
  exact this ▸ h

/-- A loop each of whose rounds adds some pairs adds the pairs of all its rounds. -/
theorem Represents.foldlM {γ : Type*} {f : UnionFind → γ → Option UnionFind}
    {P : γ → α → α → Prop} (l : List γ)
    (hstep : ∀ c ∈ l, ∀ uf R, Represents uf S num R →
      ∃ uf', f uf c = some uf' ∧ Represents uf' S num fun x y => R x y ∨ P c x y)
    (h : uf.Represents S num R) :
    ∃ uf', l.foldlM f uf = some uf' ∧
      uf'.Represents S num fun x y => R x y ∨ ∃ c ∈ l, P c x y := by
  induction l generalizing uf R with
  | nil => exact ⟨uf, rfl, by simpa using h⟩
  | cons c l ih =>
      obtain ⟨uf₁, hf, h₁⟩ := hstep c (by simp) uf R h
      obtain ⟨uf₂, hfold, h₂⟩ := ih (fun c' hc' => hstep c' (by simp [hc'])) h₁
      refine ⟨uf₂, by simp [List.foldlM_cons, hf, hfold], ?_⟩
      simpa [or_assoc] using h₂

end Represents

/-! ## Sequences of calls -/

/-- A call of the class from outside. -/
inductive Call where
  | merge (p q : ℕ)
  | getParent (p : ℕ)
  | isSame (p q : ℕ)
deriving DecidableEq

def Call.InRange (size : ℕ) : Call → Prop
  | merge p q => p < size ∧ q < size
  | getParent p => p < size
  | isSame p q => p < size ∧ q < size

instance (size : ℕ) : DecidablePred (Call.InRange size)
  | .merge _ _ => inferInstanceAs (Decidable (_ ∧ _))
  | .getParent _ => inferInstanceAs (Decidable (_ < _))
  | .isSame _ _ => inferInstanceAs (Decidable (_ ∧ _))

/-- What a call leaves. -/
def call (uf : UnionFind) : Call → Option UnionFind
  | .merge p q => uf.merge p q
  | .getParent p => (uf.getParent p).map Prod.snd
  | .isSame p q => (uf.isSame p q).map Prod.snd

/-- What `get_parent` returns. -/
def representative (uf : UnionFind) (p : ℕ) : Option ℕ := (uf.getParent p).map Prod.fst

section Calls

variable {n : ℕ} {uf uf' : UnionFind} {R : ℕ → ℕ → Prop} {p q : ℕ}

theorem climb_length (fuel : ℕ) {parents parents' : List ℕ} {p r : ℕ}
    (h : climb fuel parents p = some (r, parents')) : parents'.length = parents.length := by
  induction fuel generalizing p r parents' with
  | zero =>
      rw [climb.eq_def] at h
      cases hq : parents[p]? with
      | none => simp [hq] at h
      | some q => by_cases hqp : q = p <;> simp_all
  | succ fuel ih =>
      rw [climb] at h
      cases hq : parents[p]? with
      | none => simp [hq] at h
      | some q =>
          by_cases hqp : q = p
          · simp_all
          · simp only [hq, hqp, if_false] at h
            obtain ⟨⟨root, parents₁⟩, hclimb, heq⟩ := Option.map_eq_some_iff.mp h
            rw [← (Prod.mk.inj heq).2, List.length_set, ih hclimb]

theorem getParent_size {r : ℕ} (h : uf.getParent p = some (r, uf')) : uf'.size = uf.size := by
  obtain ⟨⟨root, parents⟩, hclimb, heq⟩ := Option.map_eq_some_iff.mp h
  simp only [Prod.mk.injEq] at heq
  rw [← heq.2]
  exact climb_length _ hclimb

theorem call_size (call : Call) (h : uf.call call = some uf') : uf'.size = uf.size := by
  cases call with
  | merge p q =>
      simp only [UnionFind.call, merge, Option.bind_eq_bind, Option.bind_eq_some_iff, Prod.exists] at h
      obtain ⟨pp, uf₁, hget₁, qp, uf₂, hget₂, h⟩ := h
      have hsize := (getParent_size hget₂).trans (getParent_size hget₁)
      split at h
      · exact Option.some.inj h ▸ hsize
      · obtain ⟨parent, -, h⟩ := Option.bind_eq_some_iff.mp h
        rw [← Option.some.inj h, ← hsize]
        simp [size]
  | getParent p =>
      obtain ⟨⟨r, uf₁⟩, hget, rfl⟩ := Option.map_eq_some_iff.mp h
      exact getParent_size hget
  | isSame p q =>
      obtain ⟨⟨r, uf₁⟩, hsame, rfl⟩ := Option.map_eq_some_iff.mp h
      simp only [isSame, Option.bind_eq_bind, Option.bind_eq_some_iff, Prod.exists] at hsame
      obtain ⟨pp, uf₁, hget₁, qp, uf₂, hget₂, hsame⟩ := hsame
      rw [← (Prod.mk.inj (Option.some.inj hsame)).2]
      exact (getParent_size hget₂).trans (getParent_size hget₁)

theorem calls_size (calls : List Call) (h : calls.foldlM UnionFind.call uf = some uf') :
    uf'.size = uf.size := by
  induction calls generalizing uf with
  | nil => exact Option.some.inj h ▸ rfl
  | cons call calls ih =>
      obtain ⟨uf₁, hcall, hrun⟩ := Option.bind_eq_some_iff.mp h
      exact (ih hrun).trans (call_size call hcall)

theorem representative_eq {root depth : ℕ → ℕ} (h : Forest uf.parents root depth) (q : ℕ) :
    uf.representative q = if q < uf.size then some (root q) else none := by
  by_cases hq : q < uf.size
  · obtain ⟨uf', hget, -, -⟩ := forest_getParent h hq
    simp [representative, hget, hq]
  · have hnone : uf.parents[q]? = none := by simpa [size] using hq
    rw [if_neg hq, representative, getParent, climb.eq_def]
    simp [hnone]

theorem Represents.getParent (h : uf.Represents (Set.Iio n) id R) (hp : p < n) :
    ∃ r uf', uf.getParent p = some (r, uf') ∧ uf'.Represents (Set.Iio n) id R ∧
      ∀ q, uf'.representative q = uf.representative q := by
  obtain ⟨root, depth, hforest, hclass, hlt, hR⟩ := h
  obtain ⟨uf', hget, hforest', hsize⟩ := forest_getParent hforest (hlt p hp)
  refine ⟨root p, uf', hget, ⟨root, depth, hforest', hclass, by rwa [hsize], hR⟩, fun q => ?_⟩
  rw [representative_eq hforest', representative_eq hforest, hsize]

/-- Only `merge` changes the partition. -/
theorem Represents.call (h : uf.Represents (Set.Iio n) id R) (call : Call) (hcall : call.InRange n) :
    ∃ uf', uf.call call = some uf' ∧
      uf'.Represents (Set.Iio n) id fun p q => R p q ∨ call = .merge p q := by
  cases call with
  | merge p q =>
      obtain ⟨uf', hmerge, h'⟩ := h.merge (a := p) (b := q) hcall.1 hcall.2
      refine ⟨uf', hmerge, h'.of_iff fun x y => ?_⟩
      simp [Gluing.Add, eq_comm]
  | getParent p =>
      obtain ⟨r, uf', hget, h', -⟩ := h.getParent hcall
      exact ⟨uf', by simp [UnionFind.call, hget], h'.of_iff fun x y => by simp⟩
  | isSame p q =>
      obtain ⟨r, uf₁, hget₁, h₁, -⟩ := h.getParent hcall.1
      obtain ⟨r', uf₂, hget₂, h₂, -⟩ := h₁.getParent hcall.2
      exact ⟨uf₂, by simp [UnionFind.call, isSame, hget₁, hget₂], h₂.of_iff fun x y => by simp⟩

theorem Represents.calls (h : uf.Represents (Set.Iio n) id R) (calls : List Call)
    (hcalls : ∀ call ∈ calls, call.InRange n) :
    ∃ uf', calls.foldlM UnionFind.call uf = some uf' ∧
      uf'.Represents (Set.Iio n) id fun p q => R p q ∨ ∃ call ∈ calls, call = .merge p q :=
  Represents.foldlM calls (fun call hcall _ _ h => h.call call (hcalls call hcall)) h

/-- After any calls the array is a forest, and its trees are the classes of what has been merged. No
recursion of `get_parent` leaves the array or runs on, and the paths it compresses change no
representative. -/
theorem calls_classify (n : ℕ) (calls : List Call) (hcalls : ∀ call ∈ calls, call.InRange n) :
    ∃ uf, calls.foldlM UnionFind.call (new n) = some uf ∧
      (∃ root depth, Forest uf.parents root depth) ∧
      (∀ p < n, ∃ r < n, ∃ uf', uf.getParent p = some (r, uf') ∧
        ∀ q, uf'.representative q = uf.representative q) ∧
      ∀ p < n, ∀ q < n, uf.representative p = uf.representative q ↔
        Relation.EqvGen (fun p q => Call.merge p q ∈ calls) p q := by
  have hnew : (new n).Represents (Set.Iio n) id fun _ _ => False :=
    represents_new (fun _ hp => hp) (Set.injOn_id _)
  obtain ⟨uf, hrun, h⟩ := hnew.calls calls hcalls
  have hmerged : uf.Represents (Set.Iio n) id fun p q => Call.merge p q ∈ calls :=
    h.of_iff fun p q => by simp
  obtain ⟨root, depth, hforest, hclass, hlt, -⟩ := id hmerged
  have hsize : uf.size = n := by simpa [size, new] using calls_size calls hrun
  have hroot : ∀ p < n, uf.representative p = some (root p) := fun p hp => by
    rw [representative_eq hforest, if_pos (hsize ▸ hp)]
  refine ⟨uf, hrun, ⟨root, depth, hforest⟩, fun p hp => ?_, fun p hp q hq => ?_⟩
  · obtain ⟨r, uf', hget, -, hsame⟩ := hmerged.getParent hp
    obtain rfl : r = root p := by simpa [representative, hget] using hroot p hp
    exact ⟨root p, hsize ▸ hforest.root_lt (hlt p hp), uf', hget, hsame⟩
  · rw [hroot p hp, hroot q hq, Option.some.injEq]
    exact hclass p hp q hq

theorem calls_classify_mergeTwo :
    (∀ call ∈ [Call.merge 0 1, .isSame 1 2, .getParent 0], call.InRange 3) ∧
      ∃ uf, [Call.merge 0 1, .isSame 1 2, .getParent 0].foldlM UnionFind.call (new 3) = some uf ∧
        (uf.representative 0 = uf.representative 1 ↔
          Relation.EqvGen (fun p q => Call.merge p q ∈ [Call.merge 0 1, .isSame 1 2, .getParent 0])
            0 1) := by
  have hrange : ∀ call ∈ [Call.merge 0 1, .isSame 1 2, .getParent 0], call.InRange 3 := by decide
  obtain ⟨uf, hrun, -, -, hsame⟩ := calls_classify 3 _ hrange
  exact ⟨hrange, uf, hrun, hsame 0 (by decide) 1 (by decide)⟩

end Calls

end UnionFind

end Prf
