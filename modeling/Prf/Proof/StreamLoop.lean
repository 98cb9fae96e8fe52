import Prf.Proof.Execute
import Prf.Meaning
import Prf.Build
import Prf.Library.Dataflow

/-!
# Stream loops inside a cluster

A cluster of `map`, `merge`, `filter` and `StreamLoop` nodes. A value behind a loop can be updated
with partial inputs. That is repaired by the later update, except where a filter has let a partial
value pass and rejects the whole one: the partial value stays in the map. So the loop is transparent
exactly if no filter ends like that.
-/

namespace Prf

namespace Primitive

variable {ι ι' V : Type}

/-- The nodes of a pure stream cluster. A `StreamLoop` has been looped to something. -/
def isForward : Primitive ι V → Bool
  | streamMap _ _ | merge _ _ _ | filter _ _ | streamLoop (some _) => true
  | _ => false

def isFilter : Primitive ι V → Bool
  | filter _ _ => true
  | _ => false

def rename (g : ι → ι') : Primitive ι V → Primitive ι' V
  | streamSink => streamSink
  | cellSink v => cellSink v
  | cell v => cell v
  | streamMap f s => streamMap f (g s)
  | merge f s1 s2 => merge f (g s1) (g s2)
  | filter f s => filter f (g s)
  | snapshot f s cs => snapshot f (g s) (cs.map g)
  | gate truth s c => gate truth (g s) (g c)
  | hold v s => hold v (g s)
  | cellMap f c => cellMap f (g c)
  | lift f cs => lift f (cs.map g)
  | streamLoop looped => streamLoop (looped.map g)
  | cellLoop looped => cellLoop (looped.map g)
  | globalCellLoop looped => globalCellLoop (looped.map g)

variable {p : Primitive ι V} {m : ι → Option V}

theorem reads_of_isForward (h : p.isForward) : p.reads = p.listens := by
  cases p <;> simp_all [isForward, reads, childTo]

theorem isCell_of_isForward (h : p.isForward) : p.isCell = false := by
  cases p <;> simp_all [isForward, isCell]

theorem isGlobalCellLoop_of_isForward (h : p.isForward) : p.isGlobalCellLoop = false := by
  cases p <;> simp_all [isForward, isGlobalCellLoop]

theorem meaning_eq_none_of_isForward (h : p.isForward) (hnone : ∀ x ∈ p.listens, m x = none) :
    p.meaning m = none := by
  cases p with
  | streamMap f s | filter f s =>
      simp [meaning, hnone s (by simp [listens, listenTo])]
  | merge f s1 s2 =>
      simp [meaning, hnone s1 (by simp [listens, listenTo]), hnone s2 (by simp [listens, listenTo])]
  | streamLoop looped =>
      cases looped with
      | none => simp [isForward] at h
      | some s => simp [meaning, hnone s (by simp [listens, listenOverLoop])]
  | _ => simp [isForward] at h

theorem meaning_ne_none_of_isForward (h : p.isForward) (hfilter : p.isFilter = false) {x : ι}
    (hx : x ∈ p.listens) (hval : m x ≠ none) : p.meaning m ≠ none := by
  cases p with
  | streamMap f s =>
      obtain rfl : x = s := by simpa [listens, listenTo, listenOverLoop, globalListen] using hx
      simpa [meaning] using hval
  | merge f s1 s2 =>
      have hor : x = s1 ∨ x = s2 := by
        simpa [listens, listenTo, listenOverLoop, globalListen] using hx
      rcases hor with rfl | rfl
      · obtain ⟨v, hv⟩ := Option.ne_none_iff_exists'.mp hval
        cases h2 : m s2 <;> simp [meaning, hv, h2]
      · obtain ⟨v, hv⟩ := Option.ne_none_iff_exists'.mp hval
        cases h1 : m s1 <;> simp [meaning, hv, h1]
  | streamLoop looped =>
      cases looped with
      | none => simp [isForward] at h
      | some s =>
          obtain rfl : x = s := by simpa [listens, listenTo, listenOverLoop, globalListen] using hx
          simpa [meaning] using hval
  | filter f s => simp [isFilter] at hfilter
  | _ => simp [isForward] at h

theorem meaning_rename (g : ι → ι') (m : ι' → Option V) :
    (p.rename g).meaning m = p.meaning (m ∘ g) := by
  cases p with
  | snapshot f s cs => simp [rename, meaning, List.mapM_map]
  | lift f cs => simp [rename, meaning, List.mapM_map]
  | streamLoop looped | cellLoop looped => cases looped <;> rfl
  | _ => rfl

end Primitive

namespace Graph

variable {ι ι' V : Type} (G : Graph ι V) (G' : Graph ι' V) (c T : ID)

/-- A cluster made of `map`, `merge`, `filter` and `StreamLoop` nodes. -/
def StreamCluster : Prop :=
  ∀ x, G.clusterId x = c → (G.primitive x).isForward

/-- `G'` is `G` with every `StreamLoop` of the cluster replaced by the stream it was looped to;
`source` is where a value of `G` is found in `G'`. -/
structure Unlooped (source : ι → ι') : Prop where
  clusterId : ∀ x, G'.clusterId (source x) = G.clusterId x
  loop : ∀ l s, G.clusterId l = c → G.primitive l = .streamLoop (some s) → source l = source s
  primitive : ∀ x, G.clusterId x = c → (G.primitive x).isLoop = false →
    G'.primitive (source x) = (G.primitive x).rename source
  injective : ∀ x y, (G.clusterId x = c → (G.primitive x).isLoop = false) →
    (G.clusterId y = c → (G.primitive y).isLoop = false) → source x = source y → x = y
  surjective : ∀ x', ∃ x, source x = x' ∧ (G.clusterId x = c → (G.primitive x).isLoop = false)

/-- In-cluster ranks increase along every link inside the cluster. -/
def InClusterRanked : Prop :=
  ∀ x y, G.clusterId x = c → G.clusterId y = c → x ∈ (G.primitive y).links →
    (G.inClusterRank x).value < (G.inClusterRank y).value

/-- A transaction about to update the cluster: nothing in the cluster has a value yet, and what is
registered are the listeners of the incoming values. -/
structure Incoming (store : Store ι V) (t : InnerTransaction ι V) : Prop where
  id : t.id = T
  fresh : ∀ x, G.clusterId x = c → (store x)[T]? = none
  targets : ∀ x, x ∈ t.targetsOf c ↔ G.clusterId x = c ∧
    ∃ o ∈ (G.primitive x).listens, G.clusterId o ≠ c ∧ G.sample store T o ≠ none

instance [Fintype ι] [DecidableEq ι] [DecidableEq V] (store : Store ι V)
    (t : InnerTransaction ι V) : Decidable (G.Incoming c T store t) :=
  decidable_of_iff (t.id = T ∧ (∀ x, G.clusterId x = c → (store x)[T]? = none) ∧
      ∀ x, x ∈ t.targetsOf c ↔ G.clusterId x = c ∧
        ∃ o ∈ (G.primitive x).listens, G.clusterId o ≠ c ∧ G.sample store T o ≠ none)
    ⟨fun h => ⟨h.1, h.2.1, h.2.2⟩, fun h => ⟨h.1, h.2, h.3⟩⟩

variable {G c T} {m : ι → Option V} {s s' : Store ι V × InnerTransaction ι V} [DecidableEq ι]

/-- `x` is on top of the queue. -/
def OnTop (s : Store ι V × InnerTransaction ι V) (x : ι) : Prop :=
  ∃ r rest, s.2.executor = (r, x) :: rest

/-- A filter that has sent a value is on top of the queue and its test rejects what it now sees: the
updater sends nothing, and the value sent before stays in the map. -/
def RejectsLate (G : Graph ι V) (T : ID) (s : Store ι V × InnerTransaction ι V) (f : ι) : Prop :=
  OnTop s f ∧ G.sample s.1 T f ≠ none ∧
    ∃ test x v, G.primitive f = .filter test x ∧ G.sample s.1 T x = some v ∧ test v = false

/-- A filter that rejects late is popped again. -/
def NoneRejectsLast (G : Graph ι V) (T : ID) (s : Store ι V × InnerTransaction ι V) : Prop :=
  ∀ a f, Relation.ReflTransGen G.Pops s a → G.RejectsLate T a f →
    ∃ b, Relation.TransGen G.Pops a b ∧ OnTop b f

def Fits (G : Graph ι V) (c : ID) (m : ι → Option V) : Prop :=
  ∀ x, G.clusterId x = c → m x = (G.primitive x).meaning m

def SentBelow (G : Graph ι V) (c T : ID) (s : Store ι V × InnerTransaction ι V) : Prop :=
  ∀ x, G.clusterId x = c → G.sample s.1 T x ≠ none → ∀ y ∈ s.2.targetsInsideCurrentCluster,
    x ≠ y ∧ (G.inClusterRank x).value ≤ (G.inClusterRank y).value

structure LoopInv (G : Graph ι V) (c T : ID) (s : Store ι V × InnerTransaction ι V) : Prop where
  id : s.2.id = T
  cluster : s.2.updatingCluster = c
  queued : G.WellQueued s.2
  fed : ∀ x ∈ s.2.targetsInsideCurrentCluster, ∃ y ∈ (G.primitive x).listens,
    G.sample s.1 T y ≠ none
  settled : ∀ x, G.clusterId x = c → x ∉ s.2.targetsInsideCurrentCluster →
    (∀ v, (G.primitive x).meaning (G.sample s.1 T) = some v → G.sample s.1 T x = some v) ∧
      ((G.primitive x).isFilter = false →
        (G.primitive x).meaning (G.sample s.1 T) = none → G.sample s.1 T x = none)

omit [DecidableEq ι] in
theorem sample_eq_getElem? (hcluster : G.StreamCluster c) (store : Store ι V) {x : ι} (hx : G.clusterId x = c) :
    G.sample store T x = (store x)[T]? := by
  simp [sample, Primitive.isCell_of_isForward (hcluster x hx), StreamInternal.sample]

theorem sample_of_pop {x : ι} {rest : List (ℕ × ι)} (hid : s.2.id = T)
    (hupd : G.update x s.1 (s.2.pop x rest) = .ok (s'.1, s'.2)) :
    (G.primitive x).meaning (G.sample s.1 T) = none ∧ G.sample s'.1 T = G.sample s.1 T ∧
        s'.2.targetsInsideCurrentCluster = s.2.targetsInsideCurrentCluster.erase x ∨
      ∃ v, (G.primitive x).meaning (G.sample s.1 T) = some v ∧
        G.sample s'.1 T = Function.update (G.sample s.1 T) x (some v) ∧
        ∀ y, y ∈ s'.2.targetsInsideCurrentCluster ↔
          y ∈ s.2.targetsInsideCurrentCluster.erase x ∨
            x ∈ (G.primitive y).listens ∧ G.clusterId y = s.2.updatingCluster := by
  rcases update_cases hupd with ⟨hooks, hval, hstore, ht⟩ | ⟨v, hooks, hval, hstore, ht⟩
  · rw [pop_id, hid] at hval
    refine Or.inl ⟨(Primitive.meaning_of_updater hval).symm, by rw [hstore], by rw [ht]; rfl⟩
  · rw [pop_id, hid] at hval
    refine Or.inr ⟨v, (Primitive.meaning_of_updater hval).symm, ?_, fun y => ?_⟩
    · rw [hstore, send_fst]
      simp only [withHooks, pop_id, hid]
      exact G.sample_insert s.1 T x v
    · rw [ht, mem_inside_send]
      rfl

theorem LoopInv.pop (hcluster : G.StreamCluster c) (hacyclic : G.ListensAcyclic c) (h : G.LoopInv c T s) {r : ℕ} {x : ι}
    {rest : List (ℕ × ι)} (hexec : s.2.executor = (r, x) :: rest) :
    ∃ s', G.update x s.1 (s.2.pop x rest) = .ok (s'.1, s'.2) ∧ G.LoopInv c T s' := by
  have hin := h.queued.mem_inside hexec
  have hxc : G.clusterId x = c := (h.queued.inside x hin).trans h.cluster
  have hforward := hcluster x hxc
  have hself : x ∉ (G.primitive x).reads := by
    rw [Primitive.reads_of_isForward hforward]
    intro hx
    exact not_transGen_feeds hacyclic x
      (.single ⟨hx, hxc, hxc, Primitive.isGlobalCellLoop_of_isForward hforward⟩)
  obtain ⟨y, hy, hval⟩ := h.fed x hin
  obtain ⟨v, hv⟩ := Option.ne_none_iff_exists'.mp hval
  obtain ⟨hooks, hupd⟩ := Primitive.exists_updater x (p := G.primitive x) hy hv
  obtain ⟨s', hok⟩ : ∃ s' : Store ι V × InnerTransaction ι V,
      G.update x s.1 (s.2.pop x rest) = .ok (s'.1, s'.2) := by
    cases hmean : (G.primitive x).meaning (G.sample s.1 T) with
    | none =>
        exact ⟨(s.1, withHooks (s.2.pop x rest) hooks),
          update_of_none (by rw [pop_id, h.id, hupd, hmean])⟩
    | some w =>
        exact ⟨G.send x w s.1 (withHooks (s.2.pop x rest) hooks),
          update_of_some (by rw [pop_id, h.id, hupd, hmean])⟩
  have hpop : G.Pops s s' := ⟨r, x, rest, hexec, hok⟩
  refine ⟨s', hok, hpop.id_eq.trans h.id, hpop.updatingCluster_eq.trans h.cluster,
    hpop.wellQueued h.queued, ?_, ?_⟩
  · intro z hz
    rcases sample_of_pop h.id hok with ⟨-, hsample, hinside⟩ | ⟨w, -, hsample, hinside⟩
    · rw [hinside] at hz
      rw [hsample]
      exact h.fed z (Finset.mem_of_mem_erase hz)
    · rw [hsample]
      rcases (hinside z).mp hz with hz | ⟨hz, -⟩
      · obtain ⟨u, hu, huval⟩ := h.fed z (Finset.mem_of_mem_erase hz)
        refine ⟨u, hu, ?_⟩
        by_cases hux : u = x
        · subst hux
          simp
        · rwa [Function.update_of_ne hux]
      · exact ⟨x, hz, by simp⟩
  · intro z hzc hz
    rcases sample_of_pop h.id hok with ⟨hnone, hsample, hinside⟩ | ⟨w, hsome, hsample, hinside⟩
    · rw [hsample]
      rw [hinside, Finset.mem_erase] at hz
      by_cases hzx : z = x
      · subst hzx
        refine ⟨fun v hv => absurd (hnone.symm.trans hv) (by simp), fun hfilter _ => ?_⟩
        exact absurd hnone (Primitive.meaning_ne_none_of_isForward hforward hfilter hy hval)
      · exact h.settled z hzc fun hin => hz ⟨hzx, hin⟩
    · rw [hinside, Finset.mem_erase, h.cluster] at hz
      have hlisten : x ∉ (G.primitive z).listens := fun hx => hz (Or.inr ⟨hx, hzc⟩)
      have hmean : (G.primitive z).meaning (G.sample s'.1 T) =
          (G.primitive z).meaning (G.sample s.1 T) := by
        refine Primitive.meaning_congr fun u hu => ?_
        rw [Primitive.reads_of_isForward (hcluster z hzc)] at hu
        have hux : u ≠ x := fun heq => hlisten (heq ▸ hu)
        rw [hsample, Function.update_of_ne hux]
      rw [hmean]
      by_cases hzx : z = x
      · subst hzx
        rw [hsome, hsample]
        simp
      · rw [hsample, Function.update_of_ne hzx]
        exact h.settled z hzc fun hin => hz (Or.inl ⟨hzx, hin⟩)

theorem LoopInv.of_pops (hcluster : G.StreamCluster c) (hacyclic : G.ListensAcyclic c)
    (h : G.LoopInv c T s) (hpop : G.Pops s s') :
    G.LoopInv c T s' := by
  obtain ⟨r, x, rest, hexec, hupd⟩ := hpop
  obtain ⟨s'', hupd', h'⟩ := h.pop hcluster hacyclic hexec
  rw [hupd, Except.ok.injEq, Prod.mk.injEq] at hupd'
  exact (Prod.ext hupd'.1 hupd'.2 : s' = s'') ▸ h'

/-! ### From the incoming values to the end -/

section Run

variable {store : Store ι V} {t : InnerTransaction ι V}

theorem Incoming.loopInv (hcluster : G.StreamCluster c) (h : G.Incoming c T store t) :
    G.LoopInv c T (store, (G.generateSubTransaction t c).2) := by
  obtain ⟨hid, hupdating, -, -⟩ := G.generateSubTransaction_snd_fields t c
  refine ⟨hid.trans h.id, hupdating, G.wellQueued_generateSubTransaction t c, ?_, ?_⟩
  · intro x hx
    rw [mem_inside_generateSubTransaction, h.targets] at hx
    obtain ⟨⟨-, o, ho, -, hval⟩, -⟩ := hx
    exact ⟨o, ho, hval⟩
  · intro x hx hnot
    have hnone : (G.primitive x).meaning (G.sample store T) = none := by
      refine Primitive.meaning_eq_none_of_isForward (hcluster x hx) fun y hy => ?_
      by_cases hyc : G.clusterId y = c
      · rw [sample_eq_getElem? hcluster store hyc, h.fresh y hyc]
      · by_contra hval
        exact hnot ((mem_inside_generateSubTransaction G t c x).mpr
          ⟨(h.targets x).mpr ⟨hx, y, hy, hyc, hval⟩, hx⟩)
    refine ⟨fun v hv => absurd (hnone.symm.trans hv) (by simp), fun _ _ => ?_⟩
    rw [sample_eq_getElem? hcluster store hx, h.fresh x hx]

omit [DecidableEq ι] in
theorem Incoming.sample_eq_none (hcluster : G.StreamCluster c) (h : G.Incoming c T store t) (x : ι)
    (hx : G.clusterId x = c) : G.sample store T x = none := by
  rw [sample_eq_getElem? hcluster store hx, h.fresh x hx]

variable (hcluster : G.StreamCluster c) (hacyclic : G.ListensAcyclic c)
include hcluster hacyclic

theorem LoopInv.of_reach (h : G.LoopInv c T s) (hreach : Relation.ReflTransGen G.Pops s s') :
    G.LoopInv c T s' := by
  induction hreach with
  | refl => exact h
  | tail _ hpop ih => exact ih.of_pops hcluster hacyclic hpop

theorem LoopInv.sample_outside (h : G.LoopInv c T s) (hreach : Relation.ReflTransGen G.Pops s s')
    {x : ι} (hx : G.clusterId x ≠ c) : G.sample s'.1 T x = G.sample s.1 T x := by
  induction hreach with
  | refl => rfl
  | tail hreach hpop ih =>
      have hinv := h.of_reach hcluster hacyclic hreach
      obtain ⟨r, y, rest, hexec, hupd⟩ := hpop
      rw [← ih]
      rcases sample_of_pop hinv.id hupd with ⟨-, hsample, -⟩ | ⟨w, -, hsample, -⟩
      · rw [hsample]
      · have hxy : x ≠ y := by
          rintro rfl
          exact hx ((hinv.queued.inside x (hinv.queued.mem_inside hexec)).trans hinv.cluster)
        rw [hsample, Function.update_of_ne hxy]

theorem LoopInv.exists_end (h : G.LoopInv c T s) :
    ∃ s', Relation.ReflTransGen G.Pops s s' ∧ s'.2.executor = [] ∧ G.LoopInv c T s' := by
  obtain ⟨s', hreach, hnil, hinv, -⟩ := exists_pops_end (P := G.LoopInv c T) hacyclic
    (fun s r x rest hinv hexec => hinv.pop hcluster hacyclic hexec) h.queued h.cluster h
  exact ⟨s', hreach, hnil, hinv⟩

omit hcluster hacyclic in
theorem pops_unique {a b : Store ι V × InnerTransaction ι V} (ha : G.Pops s a) (hb : G.Pops s b) :
    a = b := by
  obtain ⟨r, x, rest, hexec, hupd⟩ := ha
  obtain ⟨r', x', rest', hexec', hupd'⟩ := hb
  rw [hexec] at hexec'
  cases hexec'
  rw [hupd, Except.ok.injEq, Prod.mk.injEq] at hupd'
  exact Prod.ext hupd'.1 hupd'.2

omit hcluster hacyclic in
theorem reach_end (hreach : Relation.ReflTransGen G.Pops s s')
    {e : Store ι V × InnerTransaction ι V} (hend : Relation.ReflTransGen G.Pops s e)
    (hnil : e.2.executor = []) : Relation.ReflTransGen G.Pops s' e := by
  have hunique : Relator.RightUnique G.Pops := fun _ _ _ => pops_unique
  rcases Relation.ReflTransGen.total_of_right_unique hunique hreach hend with h | h
  · exact h
  · rcases h.cases_head with rfl | ⟨_, ⟨r, x, rest, hexec, -⟩, -⟩
    · exact .refl
    · rw [hnil] at hexec
      cases hexec

omit hcluster hacyclic in
theorem mem_inside_of_pop {x z : ι} {rest : List (ℕ × ι)}
    (hupd : G.update z s.1 (s.2.pop z rest) = .ok (s'.1, s'.2))
    (hx : x ∈ s.2.targetsInsideCurrentCluster) (hxz : x ≠ z) :
    x ∈ s'.2.targetsInsideCurrentCluster := by
  obtain ⟨out, -, hinside⟩ := fire_of_update hupd
  rw [hinside]
  exact Finset.mem_union_left _ (Finset.mem_erase.mpr ⟨hxz, hx⟩)

omit hcluster hacyclic in
theorem exists_top {e : Store ι V × InnerTransaction ι V} {x : ι}
    (hx : x ∈ s.2.targetsInsideCurrentCluster) (hend : Relation.ReflTransGen G.Pops s e)
    (hempty : e.2.targetsInsideCurrentCluster = ∅) :
    ∃ s', Relation.ReflTransGen G.Pops s s' ∧ OnTop s' x := by
  induction hend using Relation.ReflTransGen.head_induction_on with
  | refl => simp [hempty] at hx
  | head hpop _ ih =>
      obtain ⟨r, z, rest, hexec, hupd⟩ := hpop
      by_cases hxz : x = z
      · exact ⟨_, .refl, r, rest, hxz ▸ hexec⟩
      · obtain ⟨s', hreach, htop⟩ := ih (mem_inside_of_pop hupd hx hxz)
        exact ⟨s', hreach.head ⟨r, z, rest, hexec, hupd⟩, htop⟩

omit hcluster hacyclic in
theorem LoopInv.filter_of_pop (h : G.LoopInv c T s) {f x z : ι} {test : V → Bool}
    {rest : List (ℕ × ι)} (hf : G.clusterId f = c) (hprim : G.primitive f = .filter test x)
    (hupd : G.update z s.1 (s.2.pop z rest) = .ok (s'.1, s'.2)) (hfz : f ≠ z)
    (hnot : f ∉ s'.2.targetsInsideCurrentCluster) :
    G.sample s'.1 T f = G.sample s.1 T f ∧ G.sample s'.1 T x = G.sample s.1 T x := by
  rcases sample_of_pop h.id hupd with ⟨-, hsample, -⟩ | ⟨w, -, hsample, hinside⟩
  · rw [hsample]
    exact ⟨rfl, rfl⟩
  · have hxz : x ≠ z := by
      rintro rfl
      exact hnot ((hinside f).mpr (Or.inr
        ⟨by simp [hprim, Primitive.listens, Primitive.listenTo], hf.trans h.cluster.symm⟩))
    rw [hsample, Function.update_of_ne hfz, Function.update_of_ne hxz]
    exact ⟨rfl, rfl⟩

omit hcluster hacyclic in
theorem not_top_of_reach {b e u : Store ι V × InnerTransaction ι V} {f : ι}
    (hb : Relation.ReflTransGen (fun u u' => G.Pops u u' ∧ ¬ OnTop u f) b e)
    (hnil : e.2.executor = []) (hu : Relation.ReflTransGen G.Pops b u) : ¬ OnTop u f := by
  induction hb using Relation.ReflTransGen.head_induction_on with
  | refl =>
      rcases hu.cases_head with rfl | ⟨_, ⟨r, x, rest, hexec, -⟩, -⟩
      · rintro ⟨r, rest, hexec⟩
        rw [hnil] at hexec
        cases hexec
      · rw [hnil] at hexec
        cases hexec
  | head hstep _ ih =>
      rcases hu.cases_head with rfl | ⟨b', hstep', hu⟩
      · exact hstep.2
      · obtain rfl := pops_unique hstep.1 hstep'
        exact ih hu

/-- A filter that holds a value its source no longer supports has rejected late, and has not been
popped since. -/
theorem LoopInv.exists_rejectsLate (h : G.LoopInv c T s)
    (hfresh : ∀ x, G.clusterId x = c → G.sample s.1 T x = none)
    (hreach : Relation.ReflTransGen G.Pops s s') {f x : ι} {test : V → Bool}
    (hf : G.clusterId f = c) (hprim : G.primitive f = .filter test x)
    (hnot : f ∉ s'.2.targetsInsideCurrentCluster) (hval : G.sample s'.1 T f ≠ none)
    (hnone : (G.sample s'.1 T x).filter test = none) :
    ∃ a b, Relation.ReflTransGen G.Pops s a ∧ G.RejectsLate T a f ∧ G.Pops a b ∧
      Relation.ReflTransGen (fun u u' => G.Pops u u' ∧ ¬ OnTop u f) b s' := by
  induction hreach with
  | refl => exact absurd (hfresh f hf) hval
  | @tail u u' hreach hpop ih =>
      have hinv := h.of_reach hcluster hacyclic hreach
      obtain ⟨r, z, rest, hexec, hupd⟩ := hpop
      by_cases hfz : f = z
      · subst hfz
        have hmean : ∀ m : ι → Option V, (G.primitive f).meaning m = (m x).filter test := fun m => by
          rw [hprim, Primitive.meaning]
        rcases sample_of_pop hinv.id hupd with ⟨hrejects, hsample, -⟩ | ⟨w, hsends, hsample, -⟩
        · rw [hsample] at hval
          obtain ⟨y, hy, hsome⟩ := hinv.fed f (hinv.queued.mem_inside hexec)
          obtain rfl : y = x := by
            simpa [hprim, Primitive.listens, Primitive.listenTo, Primitive.listenOverLoop,
              Primitive.globalListen] using hy
          obtain ⟨v, hv⟩ := Option.ne_none_iff_exists'.mp hsome
          rw [hmean, hv] at hrejects
          refine ⟨u, u', hreach, ⟨⟨r, rest, hexec⟩, hval, test, y, v, hprim, hv, ?_⟩,
            ⟨r, f, rest, hexec, hupd⟩, .refl⟩
          simpa [Option.filter] using hrejects
        · -- the filter has just sent what it sees
          have hxf : x ≠ f := by
            rintro rfl
            refine not_transGen_feeds hacyclic x (.single ⟨?_, hf, hf, by simp [hprim, Primitive.isGlobalCellLoop]⟩)
            simp [hprim, Primitive.listens, Primitive.listenTo]
          rw [hsample, Function.update_of_ne hxf, ← hmean, hsends] at hnone
          cases hnone
      · have hin : f ∉ u.2.targetsInsideCurrentCluster := fun hin =>
          hnot (mem_inside_of_pop hupd hin hfz)
        obtain ⟨hfv, hxv⟩ := hinv.filter_of_pop hf hprim hupd hfz hnot
        rw [hfv] at hval
        rw [hxv] at hnone
        obtain ⟨a, b, ha, hrejects, hab, hb⟩ := ih hin hval hnone
        refine ⟨a, b, ha, hrejects, hab, hb.tail ⟨⟨r, z, rest, hexec, hupd⟩, ?_⟩⟩
        rintro ⟨r', rest', htop⟩
        rw [hexec] at htop
        cases htop
        exact hfz rfl

/-- A filter that rejects late and is not popped again ends with a value its source does not
support. -/
theorem LoopInv.sample_of_rejectsLate (h : G.LoopInv c T s) {f : ι}
    (hrejects : G.RejectsLate T s f)
    (hlast : ∀ b, Relation.TransGen G.Pops s b → ¬ OnTop b f)
    {e : Store ι V × InnerTransaction ι V} (hend : Relation.ReflTransGen G.Pops s e)
    (hnil : e.2.executor = []) :
    G.sample e.1 T f ≠ none ∧ (G.primitive f).meaning (G.sample e.1 T) = none := by
  obtain ⟨⟨r, rest, hexec⟩, hval, test, x, v, hprim, hv, htest⟩ := hrejects
  have hf : G.clusterId f = c := (h.queued.inside f (h.queued.mem_inside hexec)).trans h.cluster
  have hempty : e.2.targetsInsideCurrentCluster = ∅ :=
    (h.of_reach hcluster hacyclic hend).queued.executor_eq_nil_iff.mp hnil
  have hfilter : ∀ m : ι → Option V, (G.primitive f).meaning m = (m x).filter test := fun m => by
    rw [hprim, Primitive.meaning]
  obtain ⟨s₁, hupd, -⟩ := h.pop hcluster hacyclic hexec
  have hpop : G.Pops s s₁ := ⟨r, f, rest, hexec, hupd⟩
  -- once it has been popped, nothing queues it again
  have hkept : ∀ u, Relation.ReflTransGen G.Pops s₁ u → Relation.ReflTransGen G.Pops u e →
      f ∉ u.2.targetsInsideCurrentCluster ∧ G.sample u.1 T f ≠ none ∧ G.sample u.1 T x = some v := by
    intro u hreach
    induction hreach with
    | refl =>
        intro _
        rcases sample_of_pop h.id hupd with ⟨-, hsample, hinside⟩ | ⟨w, hsends, -, -⟩
        · rw [hsample, hinside]
          exact ⟨Finset.notMem_erase f _, hval, hv⟩
        · rw [hfilter, hv] at hsends
          simp [Option.filter, htest] at hsends
    | @tail u u' hreach hstep ih =>
        intro hgo
        obtain ⟨hnot, hfv, hxv⟩ := ih (hgo.head hstep)
        have hlate : Relation.TransGen G.Pops s u' :=
          .head' hpop (hreach.tail hstep)
        have hnot' : f ∉ u'.2.targetsInsideCurrentCluster := fun hin => by
          obtain ⟨b, hb, htop⟩ := exists_top hin hgo hempty
          exact hlast b (hlate.trans_left hb) htop
        have hinv := (h.of_reach hcluster hacyclic (.single hpop)).of_reach hcluster hacyclic hreach
        obtain ⟨r', z, rest', hexec', hupd'⟩ := hstep
        have hfz : f ≠ z := fun heq => hnot (heq ▸ hinv.queued.mem_inside hexec')
        obtain ⟨hfv', hxv'⟩ := hinv.filter_of_pop hf hprim hupd' hfz hnot'
        exact ⟨hnot', hfv' ▸ hfv, hxv'.trans hxv⟩
  obtain ⟨-, hfv, hxv⟩ := hkept e (reach_end (.single hpop) hend hnil) .refl
  refine ⟨hfv, ?_⟩
  rw [hfilter, hxv]
  simp [Option.filter, htest]

/-- The values the loop ends with satisfy the equations of the cluster exactly if no filter has
rejected late for good. -/
theorem LoopInv.fits_end_iff (h : G.LoopInv c T s)
    (hfresh : ∀ x, G.clusterId x = c → G.sample s.1 T x = none)
    {e : Store ι V × InnerTransaction ι V} (hend : Relation.ReflTransGen G.Pops s e)
    (hnil : e.2.executor = []) :
    G.Fits c (G.sample e.1 T) ↔ G.NoneRejectsLast T s := by
  have hinv := h.of_reach hcluster hacyclic hend
  have hempty := hinv.queued.executor_eq_nil_iff.mp hnil
  constructor
  · intro hfits a f hreach hrejects
    by_contra hlast
    push Not at hlast
    have ha := h.of_reach hcluster hacyclic hreach
    obtain ⟨hval, hnone⟩ := ha.sample_of_rejectsLate hcluster hacyclic hrejects hlast
      (reach_end hreach hend hnil) hnil
    obtain ⟨⟨r, rest, hexec⟩, -⟩ := hrejects
    have hf : G.clusterId f = c := (ha.queued.inside f (ha.queued.mem_inside hexec)).trans ha.cluster
    exact hval ((hfits f hf).trans hnone)
  · intro hlast f hf
    obtain ⟨hsome, hnone⟩ := hinv.settled f hf (by simp [hempty])
    cases hmean : (G.primitive f).meaning (G.sample e.1 T) with
    | some v => exact hsome v hmean
    | none =>
        by_cases hfilter : (G.primitive f).isFilter
        · by_contra hval
          cases hprim : G.primitive f with
          | filter test x =>
              rw [hprim, Primitive.meaning] at hmean
              obtain ⟨a, b, ha, hrejects, hab, hb⟩ := h.exists_rejectsLate hcluster hacyclic hfresh
                hend hf hprim (by simp [hempty]) hval hmean
              obtain ⟨u, hu, htop⟩ := hlast a f ha hrejects
              obtain ⟨b', hab', hu⟩ := Relation.TransGen.head'_iff.mp hu
              obtain rfl := pops_unique hab hab'
              exact not_top_of_reach hb hnil hu htop
          | _ => simp [hprim, Primitive.isFilter] at hfilter
        · exact hnone (by simpa using hfilter) hmean

end Run

/-! ### Without loops -/

section Loopless

variable (hloop : ∀ x, G.clusterId x = c → (G.primitive x).isLoop = false)
  (hranked : G.InClusterRanked c)
include hloop hranked

omit [DecidableEq ι] in
theorem rank_lt_of_mem_listens {x y : ι} (h : x ∈ (G.primitive y).listens) (hx : G.clusterId x = c)
    (hy : G.clusterId y = c) : (G.inClusterRank x).value < (G.inClusterRank y).value := by
  refine hranked x y hx hy (List.mem_append_left _ ?_)
  have hno := hloop y hy
  cases hprim : G.primitive y <;>
    simp_all [Primitive.listens, Primitive.listenOverLoop, Primitive.globalListen, Primitive.isLoop]

omit [DecidableEq ι] in
theorem listensAcyclic_of_ranked : G.ListensAcyclic c :=
  listensAcyclic_of_lt (fun x => (G.inClusterRank x).value) fun _ _ h =>
    rank_lt_of_mem_listens hloop hranked
      (List.mem_append_left _ (List.mem_append.mpr h.1)) h.2.1 h.2.2

theorem SentBelow.of_pops (hinv : G.LoopInv c T s) (h : G.SentBelow c T s) (hpop : G.Pops s s') :
    G.SentBelow c T s' := by
  obtain ⟨r, z, rest, hexec, hupd⟩ := hpop
  have hin := hinv.queued.mem_inside hexec
  have hzc : G.clusterId z = c := (hinv.queued.inside z hin).trans hinv.cluster
  intro x hx hval y hy
  rcases sample_of_pop hinv.id hupd with ⟨-, hsample, hinside⟩ | ⟨w, -, hsample, hinside⟩
  · rw [hsample] at hval
    rw [hinside] at hy
    exact h x hx hval y (Finset.mem_of_mem_erase hy)
  · have hxz : (G.inClusterRank x).value ≤ (G.inClusterRank z).value := by
      by_cases hxz : x = z
      · exact hxz ▸ le_rfl
      · rw [hsample, Function.update_of_ne hxz] at hval
        exact (h x hx hval z hin).2
    rcases (hinside y).mp hy with hy | ⟨hlisten, hyc⟩
    · have hyin := Finset.mem_of_mem_erase hy
      refine ⟨?_, hxz.trans (hinv.queued.rank_le_of_mem hexec hyin)⟩
      rintro rfl
      by_cases hxz : x = z
      · exact Finset.ne_of_mem_erase hy hxz
      · rw [hsample, Function.update_of_ne hxz] at hval
        exact (h x hx hval x hyin).1 rfl
    · have hlt := rank_lt_of_mem_listens hloop hranked hlisten hzc (hyc.trans hinv.cluster)
      refine ⟨?_, by omega⟩
      rintro rfl
      omega

/-- Without loops a filter is popped once, so that none rejects late. -/
theorem LoopInv.noneRejectsLast (hcluster : G.StreamCluster c) (h : G.LoopInv c T s)
    (hfresh : ∀ x, G.clusterId x = c → G.sample s.1 T x = none) : G.NoneRejectsLast T s := by
  have hacyclic := listensAcyclic_of_ranked hloop hranked
  have hbelow : ∀ a, Relation.ReflTransGen G.Pops s a → G.SentBelow c T a := by
    intro a hreach
    induction hreach with
    | refl => exact fun x hx hval => absurd (hfresh x hx) hval
    | tail hreach hpop ih =>
        exact ih.of_pops hloop hranked (h.of_reach hcluster hacyclic hreach) hpop
  rintro a f hreach ⟨⟨r, rest, hexec⟩, hval, -⟩
  have ha := h.of_reach hcluster hacyclic hreach
  have hin := ha.queued.mem_inside hexec
  exact absurd rfl (hbelow a hreach f ((ha.queued.inside f hin).trans ha.cluster) hval f hin).1

end Loopless

/-! ### The loop against the graph without it -/

omit [DecidableEq ι] in
theorem Fits.eq {m₁ m₂ : ι → Option V} (hcluster : G.StreamCluster c) (hacyclic : G.ListensAcyclic c)
    (h₁ : G.Fits c m₁) (h₂ : G.Fits c m₂) (hout : ∀ x, G.clusterId x ≠ c → m₁ x = m₂ x) :
    m₁ = m₂ := by
  funext x
  induction x using (wellFounded_feeds' hacyclic).induction with
  | _ x ih =>
      by_cases hx : G.clusterId x = c
      · rw [h₁ x hx, h₂ x hx]
        refine Primitive.meaning_congr fun y hy => ?_
        rw [Primitive.reads_of_isForward (hcluster x hx)] at hy
        by_cases hyc : G.clusterId y = c
        · exact ih y ⟨hy, hyc, hx, Primitive.isGlobalCellLoop_of_isForward (hcluster y hyc)⟩
        · exact hout y hyc
      · exact hout x hx

variable {G' : Graph ι' V} [DecidableEq ι'] {source : ι → ι'} {store : Store ι V}
  {store' : Store ι' V} {t : InnerTransaction ι V} {t' : InnerTransaction ι' V}

omit [DecidableEq ι] [DecidableEq ι'] in
theorem Unlooped.streamCluster (hcluster : G.StreamCluster c) (h : G.Unlooped G' c source) :
    G'.StreamCluster c ∧ ∀ x', G'.clusterId x' = c → (G'.primitive x').isLoop = false := by
  suffices hprim : ∀ x', G'.clusterId x' = c →
      (G'.primitive x').isForward ∧ (G'.primitive x').isLoop = false from
    ⟨fun x' hx' => (hprim x' hx').1, fun x' hx' => (hprim x' hx').2⟩
  intro x' hx'
  obtain ⟨x, rfl, hno⟩ := h.surjective x'
  rw [h.clusterId] at hx'
  have hforward := hcluster x hx'
  have hloop := hno hx'
  rw [h.primitive x hx' hloop]
  cases hprim : G.primitive x <;>
    simp_all [Primitive.isForward, Primitive.isLoop, Primitive.rename]

omit [DecidableEq ι] [DecidableEq ι'] in
theorem Unlooped.fits_source (hcluster : G.StreamCluster c) (h : G.Unlooped G' c source)
    {m' : ι' → Option V} (hm' : G'.Fits c m') : G.Fits c (m' ∘ source) := by
  intro x hx
  by_cases hloop : (G.primitive x).isLoop
  · have hforward := hcluster x hx
    cases hprim : G.primitive x with
    | streamLoop looped =>
        cases looped with
        | none => simp [hprim, Primitive.isForward] at hforward
        | some s => simp [Primitive.meaning, h.loop x s hx hprim]
    | _ => simp_all [Primitive.isForward, Primitive.isLoop]
  · have hno : (G.primitive x).isLoop = false := by simpa using hloop
    rw [Function.comp_apply, hm' (source x) (by rw [h.clusterId, hx]), h.primitive x hx hno,
      Primitive.meaning_rename]

/-- A `StreamLoop` is transparent exactly if no filter of the cluster, having sent a value, rejects
the one it sees the last time it is popped. -/
theorem streamLoop_transparent_iff (hcluster : G.StreamCluster c) (hacyclic : G.ListensAcyclic c)
    (hunlooped : G.Unlooped G' c source) (hranked : G'.InClusterRanked c)
    (hin : G.Incoming c T store t) (hin' : G'.Incoming c T store' t')
    (hsame : ∀ x, G.clusterId x ≠ c → G'.sample store' T (source x) = G.sample store T x) :
    ∃ rounds final final', (∀ fuel ≥ rounds,
        (∃ result, G.execute fuel store (G.generateSubTransaction t c).2 =
          some (.ok (final, result))) ∧
        ∃ result, G'.execute fuel store' (G'.generateSubTransaction t' c).2 =
          some (.ok (final', result))) ∧
      ((∀ x, G.clusterId x = c → (final x)[T]? = (final' (source x))[T]?) ↔
        G.NoneRejectsLast T (store, (G.generateSubTransaction t c).2)) := by
  obtain ⟨hcluster', hloop'⟩ := hunlooped.streamCluster hcluster
  have hacyclic' := listensAcyclic_of_ranked hloop' hranked
  have hinv := hin.loopInv hcluster
  have hinv' := hin'.loopInv hcluster'
  obtain ⟨e, hend, hnil, -⟩ := hinv.exists_end hcluster hacyclic
  obtain ⟨e', hend', hnil', -⟩ := hinv'.exists_end hcluster' hacyclic'
  obtain ⟨rounds, hrounds⟩ := executeLoop_of_pops hend hnil
  obtain ⟨rounds', hrounds'⟩ := executeLoop_of_pops hend' hnil'
  refine ⟨max rounds rounds', e.1, e'.1, fun fuel hfuel => ⟨⟨e.2.executeResult, ?_⟩,
    ⟨e'.2.executeResult, ?_⟩⟩, ?_⟩
  · rw [execute, hrounds fuel (le_of_max_le_left hfuel)]
    rfl
  · rw [execute, hrounds' fuel (le_of_max_le_right hfuel)]
    rfl
  have hfresh := hin.sample_eq_none hcluster
  have hfresh' := hin'.sample_eq_none hcluster'
  -- the graph without loops ends with a solution, which is one of the graph with loops as well
  have hfits' : G'.Fits c (G'.sample e'.1 T) :=
    (hinv'.fits_end_iff hcluster' hacyclic' hfresh' hend' hnil').mpr
      (hinv'.noneRejectsLast hloop' hranked hcluster' hfresh')
  have hsolution := hunlooped.fits_source hcluster hfits'
  have hout : ∀ x, G.clusterId x ≠ c →
      G.sample e.1 T x = (G'.sample e'.1 T ∘ source) x := by
    intro x hx
    rw [hinv.sample_outside hcluster hacyclic hend hx, Function.comp_apply,
      hinv'.sample_outside hcluster' hacyclic' hend' (by rwa [hunlooped.clusterId]), hsame x hx]
  have hread : ∀ x, G.clusterId x = c → ((e.1 x)[T]? = (e'.1 (source x))[T]? ↔
      G.sample e.1 T x = (G'.sample e'.1 T ∘ source) x) := by
    intro x hx
    rw [sample_eq_getElem? hcluster _ hx, Function.comp_apply,
      sample_eq_getElem? hcluster' _ ((hunlooped.clusterId x).trans hx)]
  rw [← hinv.fits_end_iff hcluster hacyclic hfresh hend hnil]
  constructor
  · intro hvalues
    have heq : G.sample e.1 T = G'.sample e'.1 T ∘ source := by
      funext x
      by_cases hx : G.clusterId x = c
      · exact (hread x hx).mp (hvalues x hx)
      · exact hout x hx
    exact heq ▸ hsolution
  · intro hfits x hx
    exact (hread x hx).mpr (congrFun (hfits.eq hcluster hacyclic hsolution hout) x)

/-! ### A filter behind a loop -/

/-- A sink, the loop over the four maps behind it, and a filter of the sink merged with the loop. -/
def filterBehindLoop : Graph (Fin 8) ℕ :=
  ofProgram (List.finRange 8)
    ![.streamSink, .streamMap (· + 0) 0, .streamMap (· + 0) 1, .streamMap (· + 0) 2,
      .streamMap (· + 0) 3, .streamLoop (some 4), .merge (· + ·) 0 5, .filter (· = 1) 6]
    Fin.val ![0, 1, 1, 1, 1, 1, 1, 1] (Rank.ofNat ∘ ![0, 0, 1, 2, 3, 0, 1, 2]) Rank.ofNat
    (fun _ => 0) (by decide) (by decide) (by decide) (by decide)

/-- The same without the loop. -/
def filterBehindMaps : Graph (Fin 7) ℕ :=
  ofProgram (List.finRange 7)
    ![.streamSink, .streamMap (· + 0) 0, .streamMap (· + 0) 1, .streamMap (· + 0) 2,
      .streamMap (· + 0) 3, .merge (· + ·) 0 4, .filter (· = 1) 5]
    Fin.val ![0, 1, 1, 1, 1, 1, 1] (Rank.ofNat ∘ ![0, 0, 1, 2, 3, 4, 5]) Rank.ofNat
    (fun _ => 0) (by decide) (by decide) (by decide) (by decide)

/-- Where the nodes of the first are found in the second. -/
def filterBehindSource : Fin 8 → Fin 7 := ![0, 1, 2, 3, 4, 4, 5, 6]

theorem streamCluster_filterBehindLoop : filterBehindLoop.StreamCluster 1 := by
  unfold StreamCluster
  decide

theorem listensAcyclic_filterBehindLoop : filterBehindLoop.ListensAcyclic 1 := by
  refine listensAcyclic_of_lt Fin.val ?_
  unfold Listens
  decide

theorem unlooped_filterBehindLoop :
    filterBehindLoop.Unlooped filterBehindMaps 1 filterBehindSource where
  clusterId := by decide
  loop l s hl hs := by
    fin_cases l <;> simp [filterBehindLoop, ofProgram] at hs
    subst hs
    decide
  primitive x _ hno := by
    fin_cases x <;> first | rfl | exact absurd hno (by decide)
  injective := by decide
  surjective := by decide

theorem inClusterRanked_filterBehindMaps : filterBehindMaps.InClusterRanked 1 := by
  unfold InClusterRanked
  decide

/-- The transaction in which a value is sent to the sink. -/
def sinkSent (G : Graph (Fin (n + 1)) ℕ) (value : ℕ) :
    Store (Fin (n + 1)) ℕ × InnerTransaction (Fin (n + 1)) ℕ :=
  G.send 0 value (fun _ => ∅) (InnerTransaction.new 0 0)

theorem incoming_filterBehindLoop (value : ℕ) (h : value < 4) :
    filterBehindLoop.Incoming 1 0 (sinkSent filterBehindLoop value).1
      (sinkSent filterBehindLoop value).2 := by
  revert value
  decide +kernel

theorem incoming_filterBehindMaps (value : ℕ) (h : value < 4) :
    filterBehindMaps.Incoming 1 0 (sinkSent filterBehindMaps value).1
      (sinkSent filterBehindMaps value).2 := by
  revert value
  decide +kernel

theorem sample_filterBehind (value : ℕ) (h : value < 4) (x : Fin 8)
    (hx : filterBehindLoop.clusterId x ≠ 1) :
    filterBehindMaps.sample (sinkSent filterBehindMaps value).1 0 (filterBehindSource x) =
      filterBehindLoop.sample (sinkSent filterBehindLoop value).1 0 x := by
  revert value x
  decide +kernel

theorem streamLoop_transparent_iff_filterBehindLoop :
    ∃ rounds final final', (∀ fuel ≥ rounds,
        (∃ result, filterBehindLoop.execute fuel (sinkSent filterBehindLoop 3).1
            (filterBehindLoop.generateSubTransaction (sinkSent filterBehindLoop 3).2 1).2 =
          some (.ok (final, result))) ∧
        ∃ result, filterBehindMaps.execute fuel (sinkSent filterBehindMaps 3).1
            (filterBehindMaps.generateSubTransaction (sinkSent filterBehindMaps 3).2 1).2 =
          some (.ok (final', result))) ∧
      ((∀ x, filterBehindLoop.clusterId x = 1 →
          (final x)[0]? = (final' (filterBehindSource x))[0]?) ↔
        filterBehindLoop.NoneRejectsLast 0 ((sinkSent filterBehindLoop 3).1,
          (filterBehindLoop.generateSubTransaction (sinkSent filterBehindLoop 3).2 1).2)) :=
  streamLoop_transparent_iff streamCluster_filterBehindLoop listensAcyclic_filterBehindLoop
    unlooped_filterBehindLoop inClusterRanked_filterBehindMaps
    (incoming_filterBehindLoop 3 (by decide)) (incoming_filterBehindMaps 3 (by decide))
    (sample_filterBehind 3 (by decide))

/-- The value 1 passes the filter before the loop has added to it, and is not taken back. -/
theorem filterBehindLoop_not_transparent :
    filterBehindLoop.StreamCluster 1 ∧ filterBehindLoop.ListensAcyclic 1 ∧
      filterBehindLoop.InClusterRanksGenerated ∧ filterBehindMaps.InClusterRanksGenerated ∧
      filterBehindLoop.Unlooped filterBehindMaps 1 filterBehindSource ∧
      filterBehindLoop.Incoming 1 0 (sinkSent filterBehindLoop 1).1
        (sinkSent filterBehindLoop 1).2 ∧
      filterBehindMaps.Incoming 1 0 (sinkSent filterBehindMaps 1).1
        (sinkSent filterBehindMaps 1).2 ∧
      ∃ final final', filterBehindLoop.execute 20 (sinkSent filterBehindLoop 1).1
          (filterBehindLoop.generateSubTransaction (sinkSent filterBehindLoop 1).2 1).2 =
            some (.ok final) ∧
        filterBehindMaps.execute 20 (sinkSent filterBehindMaps 1).1
          (filterBehindMaps.generateSubTransaction (sinkSent filterBehindMaps 1).2 1).2 =
            some (.ok final') ∧
        ¬ ∀ x, filterBehindLoop.clusterId x = 1 →
          (final.1 x)[0]? = (final'.1 (filterBehindSource x))[0]? := by
  refine ⟨streamCluster_filterBehindLoop, listensAcyclic_filterBehindLoop,
    ⟨10, by decide +kernel⟩, ⟨10, by decide +kernel⟩, unlooped_filterBehindLoop,
    incoming_filterBehindLoop 1 (by decide), incoming_filterBehindMaps 1 (by decide), ?_⟩
  obtain ⟨final, hrun, hstale⟩ := exists_ok_of_check
    (o := filterBehindLoop.execute 20 (sinkSent filterBehindLoop 1).1
      (filterBehindLoop.generateSubTransaction (sinkSent filterBehindLoop 1).2 1).2)
    (p := fun final => (final.1 7)[0]? = some 1) (by decide +kernel)
  obtain ⟨final', hrun', hnone⟩ := exists_ok_of_check
    (o := filterBehindMaps.execute 20 (sinkSent filterBehindMaps 1).1
      (filterBehindMaps.generateSubTransaction (sinkSent filterBehindMaps 1).2 1).2)
    (p := fun final => (final.1 6)[0]? = none) (by decide +kernel)
  refine ⟨final, final', hrun, hrun', fun h => ?_⟩
  have heq := h 7 (by decide)
  rw [hstale, show filterBehindSource 7 = 6 from rfl, hnone] at heq
  cases heq

end Graph

end Prf
