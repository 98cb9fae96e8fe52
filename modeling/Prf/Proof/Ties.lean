import Prf.Proof.Execute
import Prf.Meaning

/-!
# Values of one rank

The queue pops values of one rank in the order of their addresses. Here any queued value of least
rank may be taken. Two of them can be exchanged, together with all that they make the loop update
before it turns to higher ranks, unless a snapshot, gate or filter behind the one reads what is
behind the other: it would be early in one order and late in the other. Where that does not happen
all orders end alike.
-/

namespace Prf

namespace Primitive

variable {ι V : Type}

/-- Snapshots, gates and filters: what may send nothing although it has been updated. -/
def isSensitive : Primitive ι V → Bool
  | snapshot _ _ _ | gate _ _ _ | filter _ _ => true
  | _ => false

/-- What has to be in place when the value is updated: no update follows if the cells of a snapshot
or a gate change, and a filter does not take back what it has let pass. -/
def latches : Primitive ι V → List ι
  | snapshot _ _ cs => cs
  | gate _ _ c => [c]
  | filter _ s => [s]
  | _ => []

variable {p : Primitive ι V} {x : ι}

theorem listens_or_latches (h : x ∈ p.reads) : x ∈ p.listens ∨ x ∈ p.latches := by
  rcases List.mem_append.mp h with h | h
  · exact Or.inl h
  · right
    cases p <;> simp_all [childTo, latches]

section More

variable {m m' : ι → Option V}

theorem mapM_ne_none_of_le (hle : ∀ y, m y ≠ none → m' y ≠ none) {cs : List ι}
    (hsome : cs.mapM m ≠ none) : cs.mapM m' ≠ none := by
  induction cs with
  | nil => simp
  | cons c cs ih =>
      obtain ⟨vs, hvs⟩ := Option.ne_none_iff_exists'.mp hsome
      rw [List.mapM_cons] at hvs
      simp only [Option.bind_eq_bind, Option.bind_eq_some_iff, Option.pure_def] at hvs
      obtain ⟨w, hw, ws, hws, -⟩ := hvs
      obtain ⟨u, hu⟩ := Option.ne_none_iff_exists'.mp (hle c (by simp [hw]))
      obtain ⟨us, hus⟩ := Option.ne_none_iff_exists'.mp (ih (by simp [hws]))
      simp [List.mapM_cons, hu, hus]

theorem meaning_ne_none_of_le (hle : ∀ y, m y ≠ none → m' y ≠ none)
    (hlatches : ∀ y ∈ p.latches, m' y = m y) (hsome : p.meaning m ≠ none) : p.meaning m' ≠ none := by
  cases p with
  | streamSink | cellSink | cell | globalCellLoop => simp [meaning] at hsome
  | streamMap f s | cellMap f s =>
      simp only [meaning, ne_eq, Option.map_eq_none_iff] at hsome ⊢
      exact hle s hsome
  | hold w s => exact hle s hsome
  | filter f s => rwa [meaning, hlatches s (by simp [latches])]
  | snapshot f s cs =>
      have hcells : cs.mapM m' = cs.mapM m := mapM_congr fun y hy => hlatches y hy
      obtain ⟨v, hv⟩ : ∃ v, m s = some v := Option.ne_none_iff_exists'.mp fun hnone => by
        simp [meaning, hnone] at hsome
      obtain ⟨v', hv'⟩ := Option.ne_none_iff_exists'.mp (hle s (by simp [hv]))
      simp only [meaning, hv, hv', hcells, Option.bind_some, ne_eq, Option.map_eq_none_iff] at hsome ⊢
      exact hsome
  | gate truth s c =>
      have hcell := hlatches c (by simp [latches])
      cases hc : m c with
      | none => simp [meaning, hc] at hsome
      | some v =>
          rw [hc] at hcell
          simp only [meaning, hc, hcell, Option.bind_some] at hsome ⊢
          split
          · next htruth => exact hle s (by simpa [htruth] using hsome)
          · next htruth => simp [htruth] at hsome
  | merge f s1 s2 =>
      have hor : m s1 ≠ none ∨ m s2 ≠ none := by
        by_contra hnone
        push Not at hnone
        simp [meaning, hnone.1, hnone.2] at hsome
      rcases hor with h1 | h2
      · obtain ⟨v1, hv1⟩ := Option.ne_none_iff_exists'.mp (hle s1 h1)
        cases h2 : m' s2 <;> simp [meaning, hv1, h2]
      · obtain ⟨v2, hv2⟩ := Option.ne_none_iff_exists'.mp (hle s2 h2)
        cases h1 : m' s1 <;> simp [meaning, hv2, h1]
  | lift f cs =>
      simp only [meaning, ne_eq, Option.map_eq_none_iff] at hsome ⊢
      exact mapM_ne_none_of_le hle hsome
  | streamLoop looped | cellLoop looped =>
      cases looped with
      | none => simp [meaning] at hsome
      | some s => exact hle s hsome

theorem meaning_ne_none_of_isSensitive (hsensitive : p.isSensitive) {self : ι}
    {res : Option V × List (Hook ι V)} (hupd : p.updater self m = .ok res)
    (hlatches : ∀ y ∈ p.latches, m' y = m y) (hsome : p.meaning m' ≠ none) : p.meaning m ≠ none := by
  cases p with
  | filter f s => rwa [meaning, ← hlatches s (by simp [latches])]
  | snapshot f s cs =>
      have hcells : cs.mapM m' = cs.mapM m := mapM_congr fun y hy => hlatches y hy
      cases hs : m s with
      | none => simp [updater, unsafeSample_of_none hs, bind, Except.bind] at hupd
      | some v =>
          have hcs : cs.mapM m ≠ none := fun hnone => by
            simp [meaning, hcells, hnone] at hsome
          simpa [meaning, hs] using hcs
  | gate truth s c =>
      have hcell := hlatches c (by simp [latches])
      cases hc : m c with
      | none => simp [meaning, hcell, hc] at hsome
      | some v =>
          cases htruth : truth v with
          | false => simp [meaning, hcell, hc, htruth] at hsome
          | true =>
              cases hs : m s with
              | none =>
                  simp [updater, hc, htruth, unsafeSample_of_none hs, bind, Except.bind] at hupd
              | some w => simp [meaning, hc, htruth, hs]
  | _ => simp [isSensitive] at hsensitive

end More

end Primitive

namespace Graph

variable {ι V : Type} [DecidableEq ι] {G : Graph ι V} {c T : ID}

/-- A state of the worklist: the stored values, the values sent so far, and those queued. -/
abbrev Sheet (ι V : Type) := (Store ι V × Finset ι) × Finset ι

def listnersIn (G : Graph ι V) (c : ID) (x : ι) : Finset ι :=
  ((G.listners x).filter fun y => G.clusterId y = c).toFinset

theorem mem_listnersIn {x y : ι} :
    y ∈ G.listnersIn c x ↔ x ∈ (G.primitive y).listens ∧ G.clusterId y = c := by
  simp [listnersIn, G.mem_listners]

/-- Taking `x` off the list, with the value it sends, if it sends one. -/
def take (G : Graph ι V) (c T : ID) (x : ι) (s : Sheet ι V) (sent : Option V) : Sheet ι V :=
  ((sent.elim s.1.1 fun v => Function.update s.1.1 x ((s.1.1 x).insert T v),
      sent.elim s.1.2 fun _ => insert x s.1.2),
    s.2.erase x ∪ sent.elim ∅ fun _ => G.listnersIn c x)

/-- `x` can be updated, and the value it sends is `sent`. -/
def Sends (G : Graph ι V) (T : ID) (s : Sheet ι V) (x : ι) (sent : Option V) : Prop :=
  ∃ hooks, (G.primitive x).updater x (G.sample s.1.1 T) = .ok (sent, hooks)

/-! ### Any queued value of least rank -/

/-- `x` is of least rank among what is queued. -/
def Least (G : Graph ι V) (c : ID) (x : ι) (s : Sheet ι V) : Prop :=
  G.clusterId x = c ∧ ∀ y ∈ s.2, (G.inClusterRank x).value ≤ (G.inClusterRank y).value

/-- One round of the loop, for some order of the addresses. -/
abbrev RankRound (G : Graph ι V) (c T : ID) : Sheet ι V → Sheet ι V → Prop :=
  Worklist.Step (G.fire c T) (G.Least c)

/-- One round that does not pop a value of a rank above `r`. -/
abbrev RankRoundTo (G : Graph ι V) (c T : ID) (r : ℕ) : Sheet ι V → Sheet ι V → Prop :=
  Worklist.Step (G.fire c T) fun x s => G.Least c x s ∧ (G.inClusterRank x).value ≤ r

/-- `x` sends when it is updated, or is a snapshot, gate or filter that does send before the loop
turns to ranks above `r`. -/
def Passes (G : Graph ι V) (c T : ID) (s : Sheet ι V) (r : ℕ) (x : ι) : Prop :=
  (G.primitive x).isSensitive → ∃ u v, Relation.ReflTransGen (G.RankRoundTo c T r) s u ∧
    x ∈ u.2 ∧ G.Least c x u ∧ G.Sends T u x (some v)

/-- Popping `x` makes the loop update `y` before it turns to ranks above `r`. -/
def LeadsTo (G : Graph ι V) (c T : ID) (s : Sheet ι V) (r : ℕ) : ι → ι → Prop :=
  Relation.ReflTransGen fun x y =>
    G.Feeds c x y ∧ G.Passes c T s r x ∧ (G.inClusterRank y).value ≤ r

/-- Of two queued values that can be popped in either order, none leads to a snapshot, gate or filter
that latches what the other one makes the loop send. -/
def TiesSettled (G : Graph ι V) (c T : ID) (s : Sheet ι V) : Prop :=
  ∀ x ∈ s.2, ∀ y ∈ s.2, x ≠ y → G.Least c x s → G.Least c y s → ∀ z w,
    G.LeadsTo c T s (G.inClusterRank x).value x z → w ∈ (G.primitive z).latches →
      G.LeadsTo c T s (G.inClusterRank x).value y w →
        ¬ G.Passes c T s (G.inClusterRank x).value w

variable {s s' : Sheet ι V} {x y : ι} {sent sent' : Option V}

omit [DecidableEq ι] in
theorem Sends.meaning (h : G.Sends T s x sent) :
    sent = (G.primitive x).meaning (G.sample s.1.1 T) := by
  obtain ⟨hooks, hupd⟩ := h
  exact Primitive.meaning_of_updater hupd

omit [DecidableEq ι] in
theorem Sends.unique (h : G.Sends T s x sent) (h' : G.Sends T s x sent') : sent = sent' :=
  h.meaning.trans h'.meaning.symm

theorem step_iff {may : ι → Sheet ι V → Prop} :
    Worklist.Step (G.fire c T) may s s' ↔ ∃ x ∈ s.2, may x s ∧
      ∃ sent, G.Sends T s x sent ∧ s' = G.take c T x s sent := by
  refine exists_congr fun x => and_congr_right fun _ => and_congr_right fun _ => ?_
  constructor
  · rintro ⟨out, hfire, hpending⟩
    unfold fire at hfire
    split at hfire
    · cases hfire
    · next hooks hupd =>
        simp only [Option.some.injEq, Prod.mk.injEq] at hfire
        refine ⟨none, ⟨hooks, hupd⟩, ?_⟩
        exact Prod.ext hfire.1.symm (by rw [hpending, ← hfire.2]; rfl)
    · next value hooks hupd =>
        simp only [Option.some.injEq, Prod.mk.injEq] at hfire
        refine ⟨some value, ⟨hooks, hupd⟩, ?_⟩
        exact Prod.ext hfire.1.symm (by rw [hpending, ← hfire.2]; rfl)
  · rintro ⟨sent, ⟨hooks, hupd⟩, rfl⟩
    cases sent with
    | none => exact ⟨∅, by simp [fire, hupd, take], by simp [take]⟩
    | some v =>
        exact ⟨G.listnersIn c x, by simp [fire, hupd, take, listnersIn], by simp [take]⟩

theorem step_take {may : ι → Sheet ι V → Prop} (hx : x ∈ s.2) (hmay : may x s)
    (hsent : G.Sends T s x sent) : Worklist.Step (G.fire c T) may s (G.take c T x s sent) :=
  step_iff.mpr ⟨x, hx, hmay, sent, hsent, rfl⟩

theorem mem_take {q : ι} : q ∈ (G.take c T x s sent).2 ↔
    q ≠ x ∧ q ∈ s.2 ∨ sent ≠ none ∧ q ∈ G.listnersIn c x := by
  cases sent <;> simp [take]

theorem LeadsTo.inCluster {r : ℕ} (h : G.LeadsTo c T s r x y) (hx : G.clusterId x = c)
    (hrank : (G.inClusterRank x).value ≤ r) :
    G.clusterId y = c ∧ (G.inClusterRank y).value ≤ r := by
  rcases Relation.ReflTransGen.cases_tail h with rfl | ⟨z, -, hfeeds, -, hle⟩
  · exact ⟨hx, hrank⟩
  · exact ⟨hfeeds.2.2.1, hle⟩

theorem sample_take :
    G.sample (G.take c T x s sent).1.1 T =
      sent.elim (G.sample s.1.1 T) fun v => Function.update (G.sample s.1.1 T) x (some v) := by
  cases sent with
  | none => rfl
  | some v => exact G.sample_insert s.1.1 T x v

theorem sample_take_of_ne {z : ι} (h : sent = none ∨ z ≠ x) :
    G.sample (G.take c T x s sent).1.1 T z = G.sample s.1.1 T z := by
  rw [sample_take]
  rcases h with rfl | hz
  · rfl
  · cases sent with
    | none => rfl
    | some v => exact Function.update_of_ne hz _ _

theorem Sends.of_not_reads (h : G.Sends T s y sent')
    (hxy : sent = none ∨ x ∉ (G.primitive y).reads) :
    G.Sends T (G.take c T x s sent) y sent' := by
  obtain ⟨hooks, hupd⟩ := h
  refine ⟨hooks, ?_⟩
  rw [← hupd]
  refine Primitive.updater_congr fun z hz => sample_take_of_ne ?_
  rcases hxy with hnone | hx
  · exact Or.inl hnone
  · exact Or.inr fun heq => hx (heq ▸ hz)

theorem Sends.feeds (h : G.Sends T s x (some v)) (hx : G.clusterId x = c)
    (hy : y ∈ G.listnersIn c x) : G.Feeds c x y := by
  obtain ⟨hooks, hupd⟩ := h
  rw [mem_listnersIn] at hy
  exact ⟨hy.1, hx, hy.2, updater_ne_global hupd⟩

theorem take_comm (hxy : x ≠ y) (hx : sent' = none ∨ x ∉ G.listnersIn c y)
    (hy : sent = none ∨ y ∉ G.listnersIn c x) :
    G.take c T y (G.take c T x s sent) sent' = G.take c T x (G.take c T y s sent') sent := by
  refine Prod.ext (Prod.ext ?_ ?_) ?_
  · cases sent <;> cases sent' <;> simp only [take, Option.elim]
    rw [Function.update_of_ne hxy.symm, Function.update_of_ne hxy, Function.update_comm hxy.symm]
  · cases sent <;> cases sent' <;> simp only [take, Option.elim]
    exact Finset.insert_comm _ _ _
  · ext z
    cases sent <;> cases sent' <;>
      simp only [take, Option.elim, Finset.mem_union, Finset.mem_erase, Finset.notMem_empty,
        or_false, reduceCtorEq, false_or] at hx hy ⊢
    · tauto
    · by_cases hzx : z = x
      · subst hzx; simp [hx]
      · tauto
    · by_cases hzy : z = y
      · subst hzy; simp [hy]
      · tauto
    · by_cases hzx : z = x
      · subst hzx; simp [hx, hxy]
      · by_cases hzy : z = y
        · subst hzy; simp [hy, hzx]
        · tauto

omit [DecidableEq ι] in
theorem insert_insert_self (m : Map V) (k : ID) (v w : V) : (m.insert k v).insert k w = m.insert k w := by
  ext k'
  simp only [Std.ExtTreeMap.getElem?_insert]
  split <;> rfl

/-- A value that is not sensitive and reads what has just been sent can be taken once more, and
then it does not matter that it had been taken before. -/
theorem take_again {v : V} (hxy : x ≠ y) (hx : sent = none ∨ x ∉ G.listnersIn c y)
    (hmono : sent ≠ none → sent' ≠ none) :
    G.take c T y (G.take c T x (G.take c T y s sent) (some v)) sent' =
      G.take c T y (G.take c T x s (some v)) sent' := by
  cases sent with
  | none =>
      refine Prod.ext rfl ?_
      ext z
      simp only [take, Option.elim, Finset.mem_union, Finset.mem_erase, Finset.notMem_empty,
        or_false]
      tauto
  | some w =>
      obtain ⟨w', rfl⟩ := Option.ne_none_iff_exists'.mp (hmono (by simp))
      have hx := hx.resolve_left (by simp)
      refine Prod.ext (Prod.ext ?_ ?_) ?_
      · funext z
        by_cases hzy : z = y
        · subst hzy
          simp [take, hxy.symm, insert_insert_self]
        · by_cases hzx : z = x
          · subst hzx
            simp [take, hxy]
          · simp [take, hzx, hzy]
      · simp only [take, Option.elim]
        rw [Finset.insert_comm x y, Finset.insert_idem]
      · ext z
        simp only [take, Option.elim, Finset.mem_union, Finset.mem_erase]
        by_cases hzx : z = x
        · subst hzx
          simp [hx, hxy]
        · tauto

/-! ### Two values that can be popped in either order -/

/-- Two queued values of one rank, and an order of the nodes in which they come first. -/
structure Tie (G : Graph ι V) (c T : ID) where
  start : Sheet ι V
  rank : ℕ
  left : ι
  right : ι
  order : ι → ℕ
  left_mem : left ∈ start.2
  right_mem : right ∈ start.2
  left_cluster : G.clusterId left = c
  right_cluster : G.clusterId right = c
  left_rank : (G.inClusterRank left).value = rank
  right_rank : (G.inClusterRank right).value = rank
  least : ∀ q ∈ start.2, rank ≤ (G.inClusterRank q).value
  order_injective : ∀ p q, order p = order q → p = q
  order_left : ∀ q, order left ≤ order q
  order_right : ∀ q, q ≠ left → order right ≤ order q
  apart : ∀ z w, G.LeadsTo c T start rank left z → w ∈ (G.primitive z).latches →
    G.LeadsTo c T start rank right w → ¬ G.Passes c T start rank w
  apart' : ∀ z w, G.LeadsTo c T start rank right z → w ∈ (G.primitive z).latches →
    G.LeadsTo c T start rank left w → ¬ G.Passes c T start rank w

namespace Tie

variable (P : G.Tie c T)

def Left (n : ι) : Prop :=
  G.LeadsTo c T P.start P.rank P.left n

def Right (n : ι) : Prop :=
  G.LeadsTo c T P.start P.rank P.right n

def key (n : ι) : ℕ ×ₗ ℕ :=
  toLex ((G.inClusterRank n).value, P.order n)

/-- `n` belongs to the tie, and if it belongs to one side only it is the first of this side. What
belongs to both is updated again by whichever comes later, so it may be taken at any time. -/
def May (n : ι) (u : Sheet ι V) : Prop :=
  (P.Left n ∨ P.Right n) ∧ (∀ v, G.Sends T u n (some v) → G.Passes c T P.start P.rank n) ∧
    (¬ (P.Left n ∧ P.Right n) →
      ∀ q ∈ u.2, (P.Left q ↔ P.Left n) → (P.Right q ↔ P.Right n) → P.key n ≤ P.key q)

abbrev Round : Sheet ι V → Sheet ι V → Prop :=
  Worklist.Step (G.fire c T) P.May

variable {P} {u : Sheet ι V} {n q l : ι}

theorem inCluster (h : P.Left n ∨ P.Right n) :
    G.clusterId n = c ∧ (G.inClusterRank n).value ≤ P.rank := by
  rcases h with h | h
  · exact LeadsTo.inCluster h P.left_cluster P.left_rank.le
  · exact LeadsTo.inCluster h P.right_cluster P.right_rank.le

theorem key_injective (h : P.key n = P.key q) : n = q :=
  P.order_injective n q (congrArg Prod.snd (toLex.injective h))

theorem rank_le_of_key_le (h : P.key n ≤ P.key q) :
    (G.inClusterRank n).value ≤ (G.inClusterRank q).value :=
  (Prod.Lex.toLex_le_toLex.mp h).elim le_of_lt fun h => h.1.le

theorem May.sides (h : P.May n u) {v : V} (hsent : G.Sends T u n (some v))
    (hlisten : n ∈ (G.primitive l).listens) (hl : G.clusterId l = c)
    (hrank : (G.inClusterRank l).value ≤ P.rank) :
    (P.Left n → P.Left l) ∧ (P.Right n → P.Right l) := by
  have hstep : G.Feeds c n l ∧ G.Passes c T P.start P.rank n ∧ (G.inClusterRank l).value ≤ P.rank :=
    ⟨hsent.feeds (inCluster h.1).1 (mem_listnersIn.mpr ⟨hlisten, hl⟩), h.2.1 v hsent, hrank⟩
  exact ⟨fun hn => hn.tail hstep, fun hn => hn.tail hstep⟩

theorem May.eq (hn : P.May n u) (hq : P.May q u) (hnu : n ∈ u.2) (hqu : q ∈ u.2)
    (hleft : P.Left n → P.Left q) (hright : P.Right n → P.Right q)
    (hnot : ¬ (P.Left q ∧ P.Right q)) : n = q := by
  obtain ⟨hl, hr, hnot'⟩ :
      (P.Left q ↔ P.Left n) ∧ (P.Right q ↔ P.Right n) ∧ ¬ (P.Left n ∧ P.Right n) := by
    rcases hq.1 with hlq | hrq
    · have hrn : ¬ P.Right n := fun hrn => hnot ⟨hlq, hright hrn⟩
      exact ⟨iff_of_true hlq (hn.1.resolve_right hrn),
        iff_of_false (fun hrq => hnot ⟨hlq, hrq⟩) hrn, fun h => hrn h.2⟩
    · have hln : ¬ P.Left n := fun hln => hnot ⟨hleft hln, hrq⟩
      exact ⟨iff_of_false (fun hlq => hnot ⟨hlq, hrq⟩) hln,
        iff_of_true hrq (hn.1.resolve_left hln), fun h => hln h.1⟩
  have hle := hn.2.2 hnot' q hqu hl hr
  have hge := hq.2.2 hnot n hnu hl.symm hr.symm
  exact key_injective (le_antisymm hle hge)

/-- Only what belongs to both sides reads what another value of the tie sends, and it is updated
again whenever it does. -/
theorem May.common (hn : P.May n u) (hq : P.May q u) (hnu : n ∈ u.2) (hqu : q ∈ u.2) (hne : n ≠ q)
    {v : V} (hsent : G.Sends T u n (some v)) (hreads : n ∈ (G.primitive q).reads) :
    (P.Left q ∧ P.Right q) ∧ n ∈ (G.primitive q).listens ∧ n ∉ (G.primitive q).latches := by
  have hpasses := hn.2.1 v hsent
  have hqc := inCluster hq.1
  have hrl : P.Right n → P.Left q → n ∉ (G.primitive q).latches := fun hrn hlq hlatch =>
    P.apart q n hlq hlatch hrn hpasses
  have hlr : P.Left n → P.Right q → n ∉ (G.primitive q).latches := fun hln hrq hlatch =>
    P.apart' q n hrq hlatch hln hpasses
  have hsides : n ∉ (G.primitive q).latches →
      (P.Left n → P.Left q) ∧ (P.Right n → P.Right q) := fun hlatch =>
    hn.sides hsent ((Primitive.listens_or_latches hreads).resolve_right hlatch) hqc.1 hqc.2
  have hboth : P.Left q ∧ P.Right q := by
    by_contra hnot
    rcases hq.1 with hlq | hrq
    · exact hne (hn.eq hq hnu hqu (fun _ => hlq) (fun hrn => (hsides (hrl hrn hlq)).2 hrn) hnot)
    · exact hne (hn.eq hq hnu hqu (fun hln => (hsides (hlr hln hrq)).1 hln) (fun _ => hrq) hnot)
  refine ⟨hboth, ?_⟩
  have hlatch : n ∉ (G.primitive q).latches := by
    rcases hn.1 with hln | hrn
    · exact hlr hln hboth.2
    · exact hrl hrn hboth.1
  exact ⟨(Primitive.listens_or_latches hreads).resolve_right hlatch, hlatch⟩

theorem May.take (hn : P.May n u) (hq : P.May q u) (hnu : n ∈ u.2) (hqu : q ∈ u.2) (hne : n ≠ q)
    (hsn : G.Sends T u n sent) (hsq : G.Sends T u q sent')
    (hfree : sent = none ∨ n ∉ (G.primitive q).reads) : P.May q (G.take c T n u sent) := by
  refine ⟨hq.1, fun v hv => ?_, fun hnot p hp hleft hright => ?_⟩
  · exact hq.2.1 v ((hv.unique (hsq.of_not_reads hfree)) ▸ hsq)
  rcases mem_take.mp hp with ⟨-, hp⟩ | ⟨hsome, hlisten⟩
  · exact hq.2.2 hnot p hp hleft hright
  · -- what has just been queued on the side of `q` comes from this side, of which `q` is the first
    obtain ⟨v, rfl⟩ := Option.ne_none_iff_exists'.mp hsome
    obtain ⟨hlisten, hpc⟩ := mem_listnersIn.mp hlisten
    obtain ⟨hl, hr⟩ := hn.sides hsn hlisten hpc (inCluster (hq.1.imp hleft.mpr hright.mpr)).2
    exact absurd (hn.eq hq hnu hqu (hleft.mp ∘ hl) (hright.mp ∘ hr) hnot) hne

theorem May.take_common (hq : P.May q u) (hboth : P.Left q ∧ P.Right q) {u' : Sheet ι V}
    (hguard : ∀ v, G.Sends T u' q (some v) → G.Passes c T P.start P.rank q) : P.May q u' :=
  ⟨hq.1, hguard, fun hnot => absurd hboth hnot⟩

theorem join_of_reads (hacyclic : G.ListensAcyclic c) (hn : P.May n u) (hq : P.May q u)
    (hnu : n ∈ u.2) (hqu : q ∈ u.2) (hne : n ≠ q) {v : V} (hsn : G.Sends T u n (some v))
    (hsq : G.Sends T u q sent) (hreads : n ∈ (G.primitive q).reads) :
    Relation.Join (Relation.ReflTransGen P.Round) (G.take c T n u (some v))
      (G.take c T q u sent) := by
  obtain ⟨hboth, hlisten, hlatch⟩ := hn.common hq hnu hqu hne hsn hreads
  have hqc := (inCluster hq.1).1
  have hmem : q ∈ G.listnersIn c n := mem_listnersIn.mpr ⟨hlisten, hqc⟩
  -- nothing leads back from `q`
  have hback : sent = none ∨ n ∉ G.listnersIn c q := by
    cases sent with
    | none => exact Or.inl rfl
    | some w =>
        refine Or.inr fun hin => not_transGen_feeds hacyclic n ?_
        exact .tail (.single (hsn.feeds (inCluster hn.1).1 hmem)) (hsq.feeds hqc hin)
  have hreadsBack : sent = none ∨ q ∉ (G.primitive n).reads := by
    cases sent with
    | none => exact Or.inl rfl
    | some w =>
        refine Or.inr fun hin => ?_
        have hlistenBack := (hq.common hn hqu hnu hne.symm hsq hin).2.1
        exact hback.resolve_left (by simp)
          (mem_listnersIn.mpr ⟨hlistenBack, (inCluster hn.1).1⟩)
  set a := G.take c T n u (some v) with ha
  set b := G.take c T q u sent with hb
  have hsample : G.sample a.1.1 T = Function.update (G.sample u.1.1 T) n (some v) := sample_take
  have hlatches : ∀ y ∈ (G.primitive q).latches, G.sample a.1.1 T y = G.sample u.1.1 T y := by
    intro y hy
    have hyn : y ≠ n := fun heq => hlatch (heq ▸ hy)
    rw [hsample, Function.update_of_ne hyn]
  have hmore : ∀ y, G.sample u.1.1 T y ≠ none → G.sample a.1.1 T y ≠ none := by
    intro y hy
    rw [hsample]
    by_cases hyn : y = n
    · subst hyn
      simp
    · rwa [Function.update_of_ne hyn]
  obtain ⟨hooks, hupd⟩ := Primitive.exists_updater q (p := G.primitive q)
    (m := G.sample a.1.1 T) (s := n) (v := v) hlisten (by simp [hsample])
  set sent' := (G.primitive q).meaning (G.sample a.1.1 T) with hsent'
  have hsq' : G.Sends T a q sent' := ⟨hooks, hupd⟩
  have hsn' : G.Sends T b n (some v) := hsn.of_not_reads hreadsBack
  have hmono : sent ≠ none → sent' ≠ none := by
    rw [hsq.meaning]
    exact Primitive.meaning_ne_none_of_le hmore hlatches
  -- after both detours the same values are read
  have hself : sent = none ∨ q ∉ (G.primitive q).reads := by
    cases sent with
    | none => exact Or.inl rfl
    | some w =>
        refine Or.inr fun hin => ?_
        rcases Primitive.listens_or_latches hin with hself | hself
        · exact not_transGen_feeds hacyclic q
            (.single (hsq.feeds hqc (mem_listnersIn.mpr ⟨hself, hqc⟩)))
        · exact P.apart q q hboth.1 hself hboth.2 (hq.2.1 w hsq)
  have hsame : G.Sends T (G.take c T n b (some v)) q sent' := by
    refine ⟨hooks, ?_⟩
    rw [← hupd]
    refine Primitive.updater_congr fun z hz => ?_
    have hzs : G.sample b.1.1 T z = G.sample u.1.1 T z := by
      refine sample_take_of_ne ?_
      rcases hself with hnone | hself
      · exact Or.inl hnone
      · exact Or.inr fun heq => hself (heq ▸ hz)
    rw [sample_take, hsample]
    simp only [Option.elim]
    by_cases hzn : z = n
    · subst hzn
      simp
    · rw [Function.update_of_ne hzn, Function.update_of_ne hzn, hzs]
  have hguard : ∀ {u' : Sheet ι V}, G.Sends T u' q sent' →
      ∀ w, G.Sends T u' q (some w) → G.Passes c T P.start P.rank q := by
    intro u' hsent w hw hsensitive
    obtain ⟨hooks', hupd'⟩ := hsq
    have hsome : sent ≠ none := by
      rw [Primitive.meaning_of_updater hupd']
      refine Primitive.meaning_ne_none_of_isSensitive hsensitive hupd' hlatches ?_
      rw [← hsent', hsent.unique hw]
      simp
    obtain ⟨w', rfl⟩ := Option.ne_none_iff_exists'.mp hsome
    exact hq.2.1 w' ⟨hooks', hupd'⟩ hsensitive
  have hmem' : ∀ u' : Sheet ι V, q ∈ (G.take c T n u' (some v)).2 := fun u' =>
    mem_take.mpr (Or.inr ⟨by simp, hmem⟩)
  refine ⟨G.take c T q a sent', ?_, ?_⟩
  · exact .single (step_take (hmem' u) (hq.take_common hboth (hguard hsq')) hsq')
  · have htwice := take_again (G := G) (c := c) (T := T) (s := u) (v := v) hne hback hmono
    rw [← hb, ← ha] at htwice
    rw [← htwice]
    have hnb : n ∈ b.2 := mem_take.mpr (Or.inl ⟨hne, hnu⟩)
    refine .tail (.single (step_take hnb (hq.take hn hqu hnu hne.symm hsq hsn hreadsBack) hsn')) ?_
    exact step_take (hmem' b) (hq.take_common hboth (hguard hsame)) hsame

theorem round_join (hacyclic : G.ListensAcyclic c) {a b : Sheet ι V} (ha : P.Round u a)
    (hb : P.Round u b) : Relation.Join (Relation.ReflTransGen P.Round) a b := by
  obtain ⟨n, hnu, hn, sentN, hsn, rfl⟩ := step_iff.mp ha
  obtain ⟨q, hqu, hq, sentQ, hsq, rfl⟩ := step_iff.mp hb
  by_cases hne : n = q
  · subst hne
    rw [hsn.unique hsq]
    exact ⟨_, .refl, .refl⟩
  by_cases hnread : sentN = none ∨ n ∉ (G.primitive q).reads
  · by_cases hqread : sentQ = none ∨ q ∉ (G.primitive n).reads
    · refine ⟨G.take c T q (G.take c T n u sentN) sentQ, .single (step_take ?_
        (hn.take hq hnu hqu hne hsn hsq hnread) (hsq.of_not_reads hnread)), ?_⟩
      · exact mem_take.mpr (Or.inl ⟨fun h => hne h.symm, hqu⟩)
      · rw [take_comm hne
          (hqread.imp id fun hno hin => hno (List.mem_append_left _ (mem_listnersIn.mp hin).1))
          (hnread.imp id fun hno hin => hno (List.mem_append_left _ (mem_listnersIn.mp hin).1))]
        refine .single (step_take ?_ (hq.take hn hqu hnu (fun h => hne h.symm) hsq hsn hqread)
          (hsn.of_not_reads hqread))
        exact mem_take.mpr (Or.inl ⟨hne, hnu⟩)
    · push Not at hqread
      obtain ⟨w, rfl⟩ := Option.ne_none_iff_exists'.mp hqread.1
      obtain ⟨d, hbd, had⟩ := join_of_reads hacyclic hq hn hqu hnu (fun h => hne h.symm) hsq hsn
        hqread.2
      exact ⟨d, had, hbd⟩
  · push Not at hnread
    obtain ⟨w, rfl⟩ := Option.ne_none_iff_exists'.mp hnread.1
    exact join_of_reads hacyclic hn hq hnu hqu hne hsn hsq hnread.2

def Queued (P : G.Tie c T) (u : Sheet ι V) : Prop :=
  ∀ q ∈ u.2, P.rank ≤ (G.inClusterRank q).value ∨ P.Left q ∨ P.Right q

theorem Queued.take (h : P.Queued u) (hn : P.May n u) (hsent : G.Sends T u n sent) :
    P.Queued (G.take c T n u sent) := by
  intro p hp
  rcases mem_take.mp hp with ⟨-, hp⟩ | ⟨hsome, hlisten⟩
  · exact h p hp
  · obtain ⟨v, rfl⟩ := Option.ne_none_iff_exists'.mp hsome
    obtain ⟨hlisten, hpc⟩ := mem_listnersIn.mp hlisten
    rcases le_total P.rank (G.inClusterRank p).value with hp' | hp'
    · exact Or.inl hp'
    · obtain ⟨hl, hr⟩ := hn.sides hsent hlisten hpc hp'
      exact Or.inr (hn.1.imp hl hr)

/-- Whatever of the tie is queued has been popped before the loop turns to higher ranks, in an order
that both relations allow. -/
theorem exists_phase_end (hacyclic : G.ListensAcyclic c)
    (hsends : ∀ u, Relation.ReflTransGen (G.RankRoundTo c T P.rank) P.start u → ∀ n ∈ u.2,
      G.Least c n u → ∃ sent, G.Sends T u n sent)
    (hreach : Relation.ReflTransGen (G.RankRoundTo c T P.rank) P.start u)
    (hqueued : P.Queued u) :
    ∃ e, Relation.ReflTransGen (G.RankRoundTo c T P.rank) u e ∧
      Relation.ReflTransGen P.Round u e ∧ ∀ d, ¬ P.Round e d := by
  have hwf : WellFounded fun u' u => P.Round u u' :=
    wellFounded_fire P.May hacyclic T fun _ _ h => (inCluster h.1).1
  induction u using hwf.induction with
  | _ u ih =>
      classical
      by_cases hnone : ∃ q ∈ u.2, P.Left q ∨ P.Right q
      · obtain ⟨q, hq, hside⟩ := hnone
        obtain ⟨n, hn, hleast⟩ := (u.2.filter fun q => P.Left q ∨ P.Right q).exists_min_image P.key
          ⟨q, Finset.mem_filter.mpr ⟨hq, hside⟩⟩
        obtain ⟨hnu, hnside⟩ := Finset.mem_filter.mp hn
        obtain ⟨hnc, hnrank⟩ := inCluster hnside
        have hleast' : G.Least c n u := by
          refine ⟨hnc, fun p hp => ?_⟩
          rcases hqueued p hp with hp' | hp'
          · exact hnrank.trans hp'
          · exact rank_le_of_key_le (hleast p (Finset.mem_filter.mpr ⟨hp, hp'⟩))
        obtain ⟨sent, hsent⟩ := hsends u hreach n hnu hleast'
        have hmay : P.May n u := by
          refine ⟨hnside, fun v hv _ => ⟨u, v, hreach, hnu, hleast', hv⟩, fun _ p hp hl hr => ?_⟩
          exact hleast p (Finset.mem_filter.mpr ⟨hp, hnside.imp hl.mpr hr.mpr⟩)
        have hrank : G.RankRoundTo c T P.rank u (G.take c T n u sent) :=
          step_take hnu ⟨hleast', hnrank⟩ hsent
        have hround : P.Round u (G.take c T n u sent) := step_take hnu hmay hsent
        obtain ⟨e, he, he', hend⟩ := ih _ hround (hreach.tail hrank) (hqueued.take hmay hsent)
        exact ⟨e, he.head hrank, he'.head hround, hend⟩
      · refine ⟨u, .refl, .refl, ?_⟩
        rintro d ⟨n, hnu, hmay, -⟩
        exact hnone ⟨n, hnu, hmay.1⟩

/-- Popping the left one first or the right one first, the loop comes to the same state. -/
theorem join (P : G.Tie c T) (hacyclic : G.ListensAcyclic c)
    (hsends : ∀ u, Relation.ReflTransGen (G.RankRoundTo c T P.rank) P.start u → ∀ n ∈ u.2,
      G.Least c n u → ∃ sent, G.Sends T u n sent)
    (hleft : G.Sends T P.start P.left sent) (hright : G.Sends T P.start P.right sent') :
    Relation.Join (Relation.ReflTransGen (G.RankRoundTo c T P.rank))
      (G.take c T P.left P.start sent) (G.take c T P.right P.start sent') := by
  have hleast : ∀ n, G.clusterId n = c → (G.inClusterRank n).value = P.rank →
      G.Least c n P.start := fun n hn hrank => ⟨hn, fun q hq => hrank.le.trans (P.least q hq)⟩
  have hpass : ∀ n ∈ P.start.2, G.clusterId n = c → (G.inClusterRank n).value = P.rank →
      ∀ v, G.Sends T P.start n (some v) → G.Passes c T P.start P.rank n := fun n hn hc hrank v hv _ =>
    ⟨P.start, v, .refl, hn, hleast n hc hrank, hv⟩
  have hkey : ∀ n, (G.inClusterRank n).value = P.rank → ∀ q ∈ P.start.2, P.order n ≤ P.order q →
      P.key n ≤ P.key q := by
    intro n hrank q hq horder
    refine Prod.Lex.toLex_le_toLex.mpr ?_
    rcases (hrank.le.trans (P.least q hq)).lt_or_eq with hlt | heq
    · exact Or.inl hlt
    · exact Or.inr ⟨heq, horder⟩
  have hmayLeft : P.May P.left P.start := by
    refine ⟨Or.inl .refl, hpass _ P.left_mem P.left_cluster P.left_rank, fun _ q hq _ _ => ?_⟩
    exact hkey _ P.left_rank q hq (P.order_left q)
  have hmayRight : P.May P.right P.start := by
    refine ⟨Or.inr .refl, hpass _ P.right_mem P.right_cluster P.right_rank,
      fun hnot q hq hl _ => hkey _ P.right_rank q hq (P.order_right q ?_)⟩
    rintro rfl
    exact hnot ⟨hl.mp .refl, .refl⟩
  -- after either of the two, the rest of the tie is popped
  have hend : ∀ n ∈ P.start.2, (hmay : P.May n P.start) → (G.inClusterRank n).value = P.rank →
      ∀ {sent}, G.Sends T P.start n sent →
        ∃ e, Relation.ReflTransGen (G.RankRoundTo c T P.rank) (G.take c T n P.start sent) e ∧
          Relation.ReflTransGen P.Round P.start e ∧ ∀ d, ¬ P.Round e d := by
    intro n hn hmay hrank sent hsent
    have hnc := (inCluster hmay.1).1
    have hround : P.Round P.start (G.take c T n P.start sent) := step_take hn hmay hsent
    obtain ⟨e, he, he', hnormal⟩ := exists_phase_end (P := P) hacyclic hsends
      (.single (step_take hn ⟨hleast n hnc hrank, hrank.le⟩ hsent))
      (Queued.take (fun q hq => Or.inl (P.least q hq)) hmay hsent)
    exact ⟨e, he, he'.head hround, hnormal⟩
  obtain ⟨e, he, hrounds, hnormal⟩ := hend _ P.left_mem hmayLeft P.left_rank hleft
  obtain ⟨e', he', hrounds', hnormal'⟩ := hend _ P.right_mem hmayRight P.right_rank hright
  have hwf : WellFounded fun u' u => P.Round u u' :=
    wellFounded_fire P.May hacyclic T fun _ _ h => (inCluster h.1).1
  have heq : e = e' := Worklist.eq_of_normal hwf (fun _ _ _ _ => round_join hacyclic) hrounds
    hrounds'
    hnormal hnormal'
  exact ⟨e, he, heq ▸ he'⟩

end Tie

/-! ### Whole runs -/

section Runs

variable (hx : x ∈ s.2) (hy : y ∈ s.2) (hne : x ≠ y) (hlx : G.Least c x s) (hly : G.Least c y s)

def Tie.of (hsettled : G.TiesSettled c T s) : G.Tie c T :=
  have hrank : (G.inClusterRank y).value = (G.inClusterRank x).value :=
    le_antisymm (hly.2 x hx) (hlx.2 y hy)
  { start := s
    rank := (G.inClusterRank x).value
    left := x
    right := y
    order := fun q => if q = x then 0 else if q = y then 1 else G.addr q + 2
    left_mem := hx
    right_mem := hy
    left_cluster := hlx.1
    right_cluster := hly.1
    left_rank := rfl
    right_rank := hrank
    least := hlx.2
    order_injective := fun p q h => by
      have haddr := G.addr_injective p q
      split_ifs at h <;> simp_all
    order_left := by simp
    order_right := fun q hq => by
      simp only [hne.symm, if_false, if_true, hq]
      split_ifs <;> omega
    apart := hsettled x hx y hy hne hlx hly
    apart' := hrank ▸ hsettled y hy x hx hne.symm hly hlx }

end Runs

/-- In no state that the loop can come to, whatever the addresses are, an update fails or the order
of two values of one rank matters. -/
def RunsSettled (G : Graph ι V) (c T : ID) (start : Sheet ι V) : Prop :=
  ∀ s, Relation.ReflTransGen (G.RankRound c T) start s →
    (∀ x ∈ s.2, G.Least c x s → ∃ sent, G.Sends T s x sent) ∧ G.TiesSettled c T s

variable {start e e' : Sheet ι V}

theorem rankRound_of_to {r : ℕ} (h : Relation.ReflTransGen (G.RankRoundTo c T r) s s') :
    Relation.ReflTransGen (G.RankRound c T) s s' :=
  h.lift id fun _ _ ⟨x, hx, hmay, hfire⟩ => ⟨x, hx, hmay.1, hfire⟩

theorem RunsSettled.join (hacyclic : G.ListensAcyclic c) (h : G.RunsSettled c T start)
    (hreach : Relation.ReflTransGen (G.RankRound c T) start s) {a b : Sheet ι V}
    (ha : G.RankRound c T s a) (hb : G.RankRound c T s b) :
    Relation.Join (Relation.ReflTransGen (G.RankRound c T)) a b := by
  obtain ⟨x, hx, hlx, sentX, hsx, rfl⟩ := step_iff.mp ha
  obtain ⟨y, hy, hly, sentY, hsy, rfl⟩ := step_iff.mp hb
  by_cases hne : x = y
  · subst hne
    rw [hsx.unique hsy]
    exact ⟨_, .refl, .refl⟩
  obtain ⟨d, hxd, hyd⟩ := (Tie.of hx hy hne hlx hly (h s hreach).2).join hacyclic
    (fun u hu => (h u (hreach.trans (rankRound_of_to hu))).1) hsx hsy
  exact ⟨d, rankRound_of_to hxd, rankRound_of_to hyd⟩

end Graph

end Prf
