import Prf.Transaction

/-!
# What registering does

The queue of a transaction is its set of targets inside the cluster, sorted. Every function that
registers targets is described by what it adds to that set, to the targets of the other clusters and
to the cleanups.
-/

namespace Prf

namespace InnerTransaction

variable {ι V : Type} (t : InnerTransaction ι V) (x y : ι) (d d' : ID)

@[simp]
theorem targetsOf_new (id : ID) : (new id d : InnerTransaction ι V).targetsOf d' = ∅ := by
  simp [targetsOf, new]

theorem mem_targetClusters : d ∈ t.targetClusters ↔ d ∈ t.targetsOutsideCurrentCluster := by
  simp [targetClusters]

theorem mem_keys_of_mem_targetsOf {t : InnerTransaction ι V} {x : ι} {d : ID}
    (h : x ∈ t.targetsOf d) : d ∈ t.targetsOutsideCurrentCluster := by
  unfold targetsOf at h
  rw [Std.ExtTreeMap.mem_iff_isSome_getElem?]
  cases hd : t.targetsOutsideCurrentCluster[d]? with
  | none => simp [hd] at h
  | some s => rfl

variable [DecidableEq ι]

theorem targetsOf_insertTarget :
    (t.insertTarget d y).targetsOf d' = if d = d' then insert y (t.targetsOf d) else t.targetsOf d' := by
  unfold targetsOf insertTarget
  by_cases hd : d = d' <;> simp [hd, Std.ExtTreeMap.getElem?_insert, targetsOf]

theorem mem_targetsOf_insertTarget :
    x ∈ (t.insertTarget d y).targetsOf d' ↔ x ∈ t.targetsOf d' ∨ x = y ∧ d' = d := by
  rw [targetsOf_insertTarget]
  by_cases hd : d = d'
  · subst hd
    simp [or_comm]
  · have hd' : d' ≠ d := fun h => hd h.symm
    simp [hd, hd']

theorem mem_keys_insertTarget :
    d' ∈ (t.insertTarget d y).targetsOutsideCurrentCluster ↔
      d' ∈ t.targetsOutsideCurrentCluster ∨ d' = d := by
  simp only [insertTarget, Std.ExtTreeMap.mem_insert, Std.compare_eq_iff_eq]
  tauto

theorem mem_targetsOf_foldl_insertTarget (l : List ι) :
    x ∈ (l.foldl (insertTarget d) t).targetsOf d' ↔ x ∈ t.targetsOf d' ∨ x ∈ l ∧ d' = d := by
  induction l generalizing t with
  | nil => simp
  | cons z l ih =>
      rw [List.foldl_cons, ih, mem_targetsOf_insertTarget, List.mem_cons]
      tauto

theorem mem_keys_foldl_insertTarget (l : List ι) :
    d' ∈ (l.foldl (insertTarget d) t).targetsOutsideCurrentCluster ↔
      d' ∈ t.targetsOutsideCurrentCluster ∨ l ≠ [] ∧ d' = d := by
  induction l generalizing t with
  | nil => simp
  | cons z l ih =>
      rw [List.foldl_cons, ih, mem_keys_insertTarget]
      simp only [ne_eq, reduceCtorEq, not_false_eq_true, true_and]
      tauto

theorem foldl_insertTarget_frame (l : List ι) :
    l.foldl (insertTarget d) t =
      { t with targetsOutsideCurrentCluster :=
          (l.foldl (insertTarget d) t).targetsOutsideCurrentCluster } := by
  induction l generalizing t with
  | nil => rfl
  | cons z l ih =>
      rw [List.foldl_cons, ih]
      rfl

end InnerTransaction

namespace Graph

variable {ι V : Type} (G : Graph ι V)

theorem popsBefore_total (e e' : ℕ × ι) : G.popsBefore e e' ∨ G.popsBefore e' e := by
  unfold popsBefore
  omega

theorem popsBefore_trans {e e' e'' : ℕ × ι} (h : G.popsBefore e e') (h' : G.popsBefore e' e'') :
    G.popsBefore e e'' := by
  unfold popsBefore at *
  omega

instance : Std.Total G.popsBefore := ⟨G.popsBefore_total⟩

instance : IsTrans (ℕ × ι) G.popsBefore := ⟨fun _ _ _ => G.popsBefore_trans⟩

/-- The queue holds the targets inside the cluster, each once and with its rank, in the order in
which they are popped, and every target is filed under its own cluster. -/
structure WellQueued (t : InnerTransaction ι V) : Prop where
  mem_executor : ∀ e, e ∈ t.executor ↔
    e.2 ∈ t.targetsInsideCurrentCluster ∧ e.1 = (G.inClusterRank e.2).value
  nodup : t.executor.Nodup
  sorted : t.executor.Pairwise G.popsBefore
  inside : ∀ x ∈ t.targetsInsideCurrentCluster, G.clusterId x = t.updatingCluster
  outside : ∀ d, ∀ x ∈ t.targetsOf d, G.clusterId x = d

theorem wellQueued_new (id updatingCluster : ID) :
    G.WellQueued (InnerTransaction.new id updatingCluster) where
  mem_executor := by simp [InnerTransaction.new]
  nodup := List.nodup_nil
  sorted := List.Pairwise.nil
  inside := by simp [InnerTransaction.new]
  outside := by simp [InnerTransaction.targetsOf, InnerTransaction.new]

variable {G} {t : InnerTransaction ι V}

namespace WellQueued

theorem rank_eq (h : G.WellQueued t) {r : ℕ} {x : ι} {rest : List (ℕ × ι)}
    (hexec : t.executor = (r, x) :: rest) : r = (G.inClusterRank x).value :=
  ((h.mem_executor (r, x)).mp (by simp [hexec])).2

theorem mem_inside (h : G.WellQueued t) {r : ℕ} {x : ι} {rest : List (ℕ × ι)}
    (hexec : t.executor = (r, x) :: rest) : x ∈ t.targetsInsideCurrentCluster :=
  ((h.mem_executor (r, x)).mp (by simp [hexec])).1

theorem executor_eq_nil_iff (h : G.WellQueued t) :
    t.executor = [] ↔ t.targetsInsideCurrentCluster = ∅ := by
  constructor
  · intro hnil
    refine Finset.eq_empty_of_forall_notMem fun x hx => ?_
    have := (h.mem_executor ((G.inClusterRank x).value, x)).mpr ⟨hx, rfl⟩
    simp [hnil] at this
  · intro hempty
    refine List.eq_nil_iff_forall_not_mem.mpr fun e he => ?_
    have := ((h.mem_executor e).mp he).1
    simp [hempty] at this

theorem popsBefore_of_mem (h : G.WellQueued t) {r : ℕ} {x y : ι} {rest : List (ℕ × ι)}
    (hexec : t.executor = (r, x) :: rest) (hy : y ∈ t.targetsInsideCurrentCluster) :
    G.popsBefore ((G.inClusterRank x).value, x) ((G.inClusterRank y).value, y) := by
  have hmem := (h.mem_executor ((G.inClusterRank y).value, y)).mpr ⟨hy, rfl⟩
  have hsorted := h.sorted
  rw [hexec] at hmem hsorted
  rw [← h.rank_eq hexec]
  rcases List.mem_cons.mp hmem with heq | hin
  · rw [heq]
    exact Or.inr ⟨rfl, le_rfl⟩
  · exact (List.pairwise_cons.mp hsorted).1 _ hin

theorem rank_le_of_mem (h : G.WellQueued t) {r : ℕ} {x y : ι} {rest : List (ℕ × ι)}
    (hexec : t.executor = (r, x) :: rest) (hy : y ∈ t.targetsInsideCurrentCluster) :
    (G.inClusterRank x).value ≤ (G.inClusterRank y).value := by
  rcases h.popsBefore_of_mem hexec hy with hlt | ⟨heq, -⟩
  · exact hlt.le
  · exact heq.le

theorem of_queue_eq {t' : InnerTransaction ι V} (h : G.WellQueued t)
    (hexec : t'.executor = t.executor)
    (hinside : t'.targetsInsideCurrentCluster = t.targetsInsideCurrentCluster)
    (houtside : t'.targetsOutsideCurrentCluster = t.targetsOutsideCurrentCluster)
    (hcluster : t'.updatingCluster = t.updatingCluster) : G.WellQueued t' := by
  refine ⟨?_, hexec ▸ h.nodup, hexec ▸ h.sorted, ?_, ?_⟩
  · rw [hexec, hinside]
    exact h.mem_executor
  · rw [hinside, hcluster]
    exact h.inside
  · unfold InnerTransaction.targetsOf
    rw [houtside]
    exact h.outside

end WellQueued

variable [DecidableEq ι] (G t)

section Pop

variable {G t} {r : ℕ} {x : ι} {rest : List (ℕ × ι)}

theorem WellQueued.pop (h : G.WellQueued t) (hexec : t.executor = (r, x) :: rest) :
    G.WellQueued (t.pop x rest) := by
  have hnodup := h.nodup
  have hsorted := h.sorted
  rw [hexec] at hnodup hsorted
  obtain ⟨hx, hrest⟩ := List.nodup_cons.mp hnodup
  refine ⟨fun e => ?_, hrest, (List.pairwise_cons.mp hsorted).2, fun y hy => ?_, h.outside⟩
  · have hmem := h.mem_executor e
    rw [hexec, List.mem_cons] at hmem
    simp only [InnerTransaction.pop, Finset.mem_erase]
    constructor
    · intro he
      refine ⟨⟨?_, (hmem.mp (Or.inr he)).1⟩, (hmem.mp (Or.inr he)).2⟩
      intro hex
      have hrank := (hmem.mp (Or.inr he)).2
      rw [hex, ← h.rank_eq hexec] at hrank
      exact hx (by rwa [← hex, ← hrank])
    · rintro ⟨⟨hne, hin⟩, hrank⟩
      rcases hmem.mpr ⟨hin, hrank⟩ with heq | he
      · exact absurd (congrArg Prod.snd heq) hne
      · exact he
  · exact h.inside y (Finset.mem_of_mem_erase hy)

@[simp]
theorem pop_id : (t.pop x rest).id = t.id := rfl

@[simp]
theorem pop_updatingCluster : (t.pop x rest).updatingCluster = t.updatingCluster := rfl

@[simp]
theorem pop_inside : (t.pop x rest).targetsInsideCurrentCluster =
    t.targetsInsideCurrentCluster.erase x := rfl

@[simp]
theorem pop_targetsOf (d : ID) : (t.pop x rest).targetsOf d = t.targetsOf d := rfl

@[simp]
theorem pop_outside : (t.pop x rest).targetsOutsideCurrentCluster =
    t.targetsOutsideCurrentCluster := rfl

@[simp]
theorem pop_cleanups : (t.pop x rest).cleanups = t.cleanups := rfl

@[simp]
theorem pop_hooks : (t.pop x rest).beforeUpdateHooks = t.beforeUpdateHooks := rfl

end Pop

section RegisterUpdate

variable (x y : ι) (d : ID) (l : List ι)

@[simp]
theorem registerUpdate_id : (G.registerUpdate t y).id = t.id := by
  unfold registerUpdate
  split
  · split <;> rfl
  · rfl

@[simp]
theorem registerUpdate_updatingCluster :
    (G.registerUpdate t y).updatingCluster = t.updatingCluster := by
  unfold registerUpdate
  split
  · split <;> rfl
  · rfl

@[simp]
theorem registerUpdate_cleanups : (G.registerUpdate t y).cleanups = t.cleanups := by
  unfold registerUpdate
  split
  · split <;> rfl
  · rfl

@[simp]
theorem registerUpdate_hooks :
    (G.registerUpdate t y).beforeUpdateHooks = t.beforeUpdateHooks := by
  unfold registerUpdate
  split
  · split <;> rfl
  · rfl

theorem mem_inside_registerUpdate :
    x ∈ (G.registerUpdate t y).targetsInsideCurrentCluster ↔
      x ∈ t.targetsInsideCurrentCluster ∨ x = y ∧ G.clusterId x = t.updatingCluster := by
  unfold registerUpdate
  by_cases hcluster : t.updatingCluster = G.clusterId y
  · by_cases hy : y ∈ t.targetsInsideCurrentCluster
    · simp only [hcluster, hy, if_true]
      exact ⟨Or.inl, fun h => h.elim id fun h => h.1 ▸ hy⟩
    · simp only [hcluster, hy, if_true, if_false, Finset.mem_insert]
      constructor
      · rintro (rfl | hx)
        · exact Or.inr ⟨rfl, rfl⟩
        · exact Or.inl hx
      · rintro (hx | ⟨rfl, -⟩)
        · exact Or.inr hx
        · exact Or.inl rfl
  · simp only [hcluster, if_false, InnerTransaction.insertTarget]
    refine ⟨Or.inl, fun h => h.elim id ?_⟩
    rintro ⟨rfl, hx⟩
    exact absurd hx.symm hcluster

theorem mem_targetsOf_registerUpdate :
    x ∈ (G.registerUpdate t y).targetsOf d ↔
      x ∈ t.targetsOf d ∨ x = y ∧ G.clusterId y = d ∧ d ≠ t.updatingCluster := by
  unfold registerUpdate
  by_cases hcluster : t.updatingCluster = G.clusterId y
  · have hsame : ∀ t' : InnerTransaction ι V,
        t'.targetsOutsideCurrentCluster = t.targetsOutsideCurrentCluster →
          (x ∈ t'.targetsOf d ↔
            x ∈ t.targetsOf d ∨ x = y ∧ G.clusterId y = d ∧ d ≠ t.updatingCluster) := by
      intro t' ht'
      rw [InnerTransaction.targetsOf, ht', ← InnerTransaction.targetsOf]
      refine ⟨Or.inl, fun h => h.elim id ?_⟩
      rintro ⟨-, hd, hne⟩
      exact absurd (hcluster.trans hd).symm hne
    simp only [hcluster, if_true]
    split
    · exact hsame _ rfl |>.trans (by rw [hcluster])
    · exact hsame _ rfl |>.trans (by rw [hcluster])
  · simp only [hcluster, if_false, InnerTransaction.mem_targetsOf_insertTarget]
    constructor
    · rintro (hx | ⟨rfl, rfl⟩)
      · exact Or.inl hx
      · exact Or.inr ⟨rfl, rfl, fun h => hcluster h.symm⟩
    · rintro (hx | ⟨rfl, rfl, -⟩)
      · exact Or.inl hx
      · exact Or.inr ⟨rfl, rfl⟩

theorem mem_keys_registerUpdate :
    d ∈ (G.registerUpdate t y).targetsOutsideCurrentCluster ↔
      d ∈ t.targetsOutsideCurrentCluster ∨ G.clusterId y = d ∧ d ≠ t.updatingCluster := by
  unfold registerUpdate
  by_cases hcluster : t.updatingCluster = G.clusterId y
  · have hne : ¬ (G.clusterId y = d ∧ d ≠ t.updatingCluster) :=
      fun h => h.2 (hcluster.trans h.1).symm
    rw [if_pos hcluster, or_iff_left hne]
    split <;> rfl
  · simp only [hcluster, if_false, InnerTransaction.mem_keys_insertTarget]
    constructor
    · rintro (hd | rfl)
      · exact Or.inl hd
      · exact Or.inr ⟨rfl, fun h => hcluster h.symm⟩
    · rintro (hd | ⟨rfl, -⟩)
      · exact Or.inl hd
      · exact Or.inr rfl

variable {G t y}

theorem WellQueued.registerUpdate (h : G.WellQueued t) (y : ι) :
    G.WellQueued (G.registerUpdate t y) := by
  have hinside : ∀ x ∈ (G.registerUpdate t y).targetsInsideCurrentCluster,
      G.clusterId x = (G.registerUpdate t y).updatingCluster := by
    intro x hx
    rw [registerUpdate_updatingCluster]
    rcases (mem_inside_registerUpdate G t x y).mp hx with hx | ⟨-, hcluster⟩
    · exact h.inside x hx
    · exact hcluster
  have houtside : ∀ d, ∀ x ∈ (G.registerUpdate t y).targetsOf d, G.clusterId x = d := by
    intro d x hx
    rcases (mem_targetsOf_registerUpdate G t x y d).mp hx with hx | ⟨rfl, hcluster, -⟩
    · exact h.outside d x hx
    · exact hcluster
  suffices hqueue : (∀ e, e ∈ (G.registerUpdate t y).executor ↔
        e.2 ∈ (G.registerUpdate t y).targetsInsideCurrentCluster ∧
          e.1 = (G.inClusterRank e.2).value) ∧
      (G.registerUpdate t y).executor.Nodup ∧
      (G.registerUpdate t y).executor.Pairwise G.popsBefore from
    ⟨hqueue.1, hqueue.2.1, hqueue.2.2, hinside, houtside⟩
  unfold Graph.registerUpdate
  by_cases hcluster : t.updatingCluster = G.clusterId y
  · by_cases hy : y ∈ t.targetsInsideCurrentCluster
    · simp only [hcluster, hy, if_true]
      exact ⟨h.mem_executor, h.nodup, h.sorted⟩
    · simp only [hcluster, hy, if_true, if_false]
      have hnotin : ((G.inClusterRank y).value, y) ∉ t.executor :=
        fun hin => hy ((h.mem_executor _).mp hin).1
      refine ⟨fun e => ?_, ?_, ?_⟩
      · rw [List.mem_orderedInsert, h.mem_executor, Finset.mem_insert]
        constructor
        · rintro (rfl | ⟨he, hrank⟩)
          · exact ⟨Or.inl rfl, rfl⟩
          · exact ⟨Or.inr he, hrank⟩
        · rintro ⟨heq | he, hrank⟩
          · exact Or.inl (Prod.ext (hrank.trans (by rw [heq])) heq)
          · exact Or.inr ⟨he, hrank⟩
      · exact (List.perm_orderedInsert _ _ _).nodup_iff.mpr (List.nodup_cons.mpr ⟨hnotin, h.nodup⟩)
      · exact h.sorted.orderedInsert _ _
  · simp only [hcluster, if_false]
    exact ⟨h.mem_executor, h.nodup, h.sorted⟩

variable (G t)

/-! ### Registering a list -/

@[simp]
theorem foldl_registerUpdate_id : (l.foldl G.registerUpdate t).id = t.id := by
  induction l generalizing t with
  | nil => rfl
  | cons z l ih => rw [List.foldl_cons, ih, registerUpdate_id]

@[simp]
theorem foldl_registerUpdate_updatingCluster :
    (l.foldl G.registerUpdate t).updatingCluster = t.updatingCluster := by
  induction l generalizing t with
  | nil => rfl
  | cons z l ih => rw [List.foldl_cons, ih, registerUpdate_updatingCluster]

@[simp]
theorem foldl_registerUpdate_cleanups :
    (l.foldl G.registerUpdate t).cleanups = t.cleanups := by
  induction l generalizing t with
  | nil => rfl
  | cons z l ih => rw [List.foldl_cons, ih, registerUpdate_cleanups]

@[simp]
theorem foldl_registerUpdate_hooks :
    (l.foldl G.registerUpdate t).beforeUpdateHooks = t.beforeUpdateHooks := by
  induction l generalizing t with
  | nil => rfl
  | cons z l ih => rw [List.foldl_cons, ih, registerUpdate_hooks]

theorem mem_inside_foldl_registerUpdate :
    x ∈ (l.foldl G.registerUpdate t).targetsInsideCurrentCluster ↔
      x ∈ t.targetsInsideCurrentCluster ∨ x ∈ l ∧ G.clusterId x = t.updatingCluster := by
  induction l generalizing t with
  | nil => simp
  | cons z l ih =>
      rw [List.foldl_cons, ih, mem_inside_registerUpdate, registerUpdate_updatingCluster,
        List.mem_cons]
      tauto

theorem mem_targetsOf_foldl_registerUpdate :
    x ∈ (l.foldl G.registerUpdate t).targetsOf d ↔
      x ∈ t.targetsOf d ∨ x ∈ l ∧ G.clusterId x = d ∧ d ≠ t.updatingCluster := by
  induction l generalizing t with
  | nil => simp
  | cons z l ih =>
      rw [List.foldl_cons, ih, mem_targetsOf_registerUpdate, registerUpdate_updatingCluster,
        List.mem_cons]
      constructor
      · rintro ((hx | ⟨rfl, hd⟩) | ⟨hx, hd⟩)
        · exact Or.inl hx
        · exact Or.inr ⟨Or.inl rfl, hd⟩
        · exact Or.inr ⟨Or.inr hx, hd⟩
      · rintro (hx | ⟨rfl | hx, hd⟩)
        · exact Or.inl (Or.inl hx)
        · exact Or.inl (Or.inr ⟨rfl, hd⟩)
        · exact Or.inr ⟨hx, hd⟩

theorem mem_keys_foldl_registerUpdate :
    d ∈ (l.foldl G.registerUpdate t).targetsOutsideCurrentCluster ↔
      d ∈ t.targetsOutsideCurrentCluster ∨
        d ≠ t.updatingCluster ∧ ∃ y ∈ l, G.clusterId y = d := by
  induction l generalizing t with
  | nil => simp
  | cons z l ih =>
      rw [List.foldl_cons, ih, mem_keys_registerUpdate, registerUpdate_updatingCluster]
      simp only [List.mem_cons, exists_eq_or_imp]
      tauto

variable {G t}

theorem WellQueued.foldl_registerUpdate (h : G.WellQueued t) (l : List ι) :
    G.WellQueued (l.foldl G.registerUpdate t) := by
  induction l generalizing t with
  | nil => exact h
  | cons z l ih => exact ih (h.registerUpdate z)

end RegisterUpdate

/-! ### Sending and updating -/

section Send

variable (x y : ι) (value : V) (store : Store ι V) (d : ID)

@[simp]
theorem send_fst : (G.send x value store t).1 =
    Function.update store x ((store x).insert t.id value) := rfl

@[simp]
theorem send_id : (G.send x value store t).2.id = t.id := by
  simp [send, registerListenersUpdate, InnerTransaction.registerCleanup]

@[simp]
theorem send_updatingCluster :
    (G.send x value store t).2.updatingCluster = t.updatingCluster := by
  simp [send, registerListenersUpdate, InnerTransaction.registerCleanup]

@[simp]
theorem send_cleanups : (G.send x value store t).2.cleanups = insert x t.cleanups := by
  simp [send, registerListenersUpdate, InnerTransaction.registerCleanup]

@[simp]
theorem send_hooks : (G.send x value store t).2.beforeUpdateHooks = t.beforeUpdateHooks := by
  simp [send, registerListenersUpdate, InnerTransaction.registerCleanup]

theorem mem_inside_send :
    y ∈ (G.send x value store t).2.targetsInsideCurrentCluster ↔
      y ∈ t.targetsInsideCurrentCluster ∨
        x ∈ (G.primitive y).listens ∧ G.clusterId y = t.updatingCluster := by
  rw [← G.mem_listners]
  exact mem_inside_foldl_registerUpdate G t y (G.listners x)

theorem mem_targetsOf_send :
    y ∈ (G.send x value store t).2.targetsOf d ↔
      y ∈ t.targetsOf d ∨
        x ∈ (G.primitive y).listens ∧ G.clusterId y = d ∧ d ≠ t.updatingCluster := by
  rw [← G.mem_listners]
  exact mem_targetsOf_foldl_registerUpdate G t y d (G.listners x)

theorem mem_keys_send :
    d ∈ (G.send x value store t).2.targetsOutsideCurrentCluster ↔
      d ∈ t.targetsOutsideCurrentCluster ∨
        d ≠ t.updatingCluster ∧ ∃ y, x ∈ (G.primitive y).listens ∧ G.clusterId y = d := by
  simp only [← G.mem_listners]
  exact mem_keys_foldl_registerUpdate G t d (G.listners x)

variable {G t}

theorem WellQueued.send (h : G.WellQueued t) : G.WellQueued (G.send x value store t).2 :=
  (h.foldl_registerUpdate (G.listners x)).of_queue_eq rfl rfl rfl rfl

end Send

def withHooks (t : InnerTransaction ι V) (hooks : List (Hook ι V)) : InnerTransaction ι V :=
  { t with beforeUpdateHooks := t.beforeUpdateHooks ++ hooks }

omit [DecidableEq ι] in
theorem foldl_registerBeforeUpdateHook (hooks : List (Hook ι V)) :
    hooks.foldl InnerTransaction.registerBeforeUpdateHook t = withHooks t hooks := by
  induction hooks generalizing t with
  | nil => simp [withHooks]
  | cons hook hooks ih =>
      rw [List.foldl_cons, ih]
      simp [withHooks, InnerTransaction.registerBeforeUpdateHook]

omit [DecidableEq ι] in
theorem WellQueued.withHooks {G : Graph ι V} {t : InnerTransaction ι V} (h : G.WellQueued t)
    (hooks : List (Hook ι V)) : G.WellQueued (withHooks t hooks) :=
  h.of_queue_eq rfl rfl rfl rfl

variable {G t} {x : ι} {store store' : Store ι V} {t' : InnerTransaction ι V}

theorem update_cases (h : G.update x store t = .ok (store', t')) :
    (∃ hooks, (G.primitive x).updater x (G.sample store t.id) = .ok (none, hooks) ∧
        store' = store ∧ t' = withHooks t hooks) ∨
      ∃ value hooks,
        (G.primitive x).updater x (G.sample store t.id) = .ok (some value, hooks) ∧
          store' = (G.send x value store (withHooks t hooks)).1 ∧
          t' = (G.send x value store (withHooks t hooks)).2 := by
  unfold update at h
  cases hupd : (G.primitive x).updater x (G.sample store t.id) with
  | error e => simp [hupd] at h
  | ok r =>
      obtain ⟨res, hooks⟩ := r
      simp only [hupd, foldl_registerBeforeUpdateHook] at h
      cases res with
      | none =>
          simp only [Except.ok.injEq, Prod.mk.injEq] at h
          exact Or.inl ⟨hooks, rfl, h.1.symm, h.2.symm⟩
      | some value =>
          simp only [Except.ok.injEq] at h
          exact Or.inr ⟨value, hooks, rfl, by rw [h], by rw [h]⟩

theorem update_of_none {hooks : List (Hook ι V)}
    (h : (G.primitive x).updater x (G.sample store t.id) = .ok (none, hooks)) :
    G.update x store t = .ok (store, withHooks t hooks) := by
  simp [update, h, foldl_registerBeforeUpdateHook]

theorem update_of_some {value : V} {hooks : List (Hook ι V)}
    (h : (G.primitive x).updater x (G.sample store t.id) = .ok (some value, hooks)) :
    G.update x store t = .ok (G.send x value store (withHooks t hooks)) := by
  simp [update, h, foldl_registerBeforeUpdateHook]

theorem WellQueued.update (h : G.WellQueued t) (hupd : G.update x store t = .ok (store', t')) :
    G.WellQueued t' := by
  rcases update_cases hupd with ⟨hooks, -, -, rfl⟩ | ⟨value, hooks, -, -, rfl⟩
  · exact h.withHooks hooks
  · exact (h.withHooks hooks).send x value store

theorem update_id (hupd : G.update x store t = .ok (store', t')) : t'.id = t.id := by
  rcases update_cases hupd with ⟨hooks, -, -, rfl⟩ | ⟨value, hooks, -, -, rfl⟩
  · rfl
  · simp [Graph.withHooks]

theorem update_updatingCluster (hupd : G.update x store t = .ok (store', t')) :
    t'.updatingCluster = t.updatingCluster := by
  rcases update_cases hupd with ⟨hooks, -, -, rfl⟩ | ⟨value, hooks, -, -, rfl⟩
  · rfl
  · simp [Graph.withHooks]

/-! ### Sub-transactions -/

variable (G t) (c d : ID) (y : ι)

theorem generateSubTransaction_snd_fields :
    (G.generateSubTransaction t c).2.id = t.id ∧
      (G.generateSubTransaction t c).2.updatingCluster = c ∧
      (G.generateSubTransaction t c).2.cleanups = ∅ ∧
      (G.generateSubTransaction t c).2.beforeUpdateHooks = [] := by
  simp [generateSubTransaction, InnerTransaction.new]

theorem mem_inside_generateSubTransaction :
    y ∈ (G.generateSubTransaction t c).2.targetsInsideCurrentCluster ↔
      y ∈ t.targetsOf c ∧ G.clusterId y = c := by
  simp [generateSubTransaction, mem_inside_foldl_registerUpdate, InnerTransaction.new]

theorem mem_targetsOf_generateSubTransaction :
    y ∈ (G.generateSubTransaction t c).2.targetsOf d ↔
      y ∈ t.targetsOf c ∧ G.clusterId y = d ∧ d ≠ c := by
  unfold generateSubTransaction
  rw [mem_targetsOf_foldl_registerUpdate, G.mem_sorted, InnerTransaction.targetsOf_new]
  simp [InnerTransaction.new]

theorem mem_keys_generateSubTransaction :
    d ∈ (G.generateSubTransaction t c).2.targetsOutsideCurrentCluster ↔
      d ≠ c ∧ ∃ y ∈ t.targetsOf c, G.clusterId y = d := by
  unfold generateSubTransaction
  rw [mem_keys_foldl_registerUpdate]
  simp [InnerTransaction.new, G.mem_sorted]

variable {G t} in
theorem WellQueued.targetsOf_generateSubTransaction (h : G.WellQueued t) :
    (G.generateSubTransaction t c).2.targetsOf d = ∅ := by
  refine Finset.eq_empty_of_forall_notMem fun x hx => ?_
  obtain ⟨hx, hcluster, hne⟩ := (mem_targetsOf_generateSubTransaction G t c d x).mp hx
  exact hne ((h.outside c x hx).symm.trans hcluster).symm

variable {G t} in
theorem WellQueued.outside_generateSubTransaction (h : G.WellQueued t) :
    d ∉ (G.generateSubTransaction t c).2.targetsOutsideCurrentCluster := by
  rw [mem_keys_generateSubTransaction]
  rintro ⟨hne, x, hx, hcluster⟩
  exact hne ((h.outside c x hx).symm.trans hcluster).symm

theorem wellQueued_generateSubTransaction : G.WellQueued (G.generateSubTransaction t c).2 :=
  (G.wellQueued_new t.id c).foldl_registerUpdate _

theorem targetsOf_generateSubTransaction_fst :
    (G.generateSubTransaction t c).1.targetsOf d = t.targetsOf d := by
  simp only [generateSubTransaction, InnerTransaction.targetsOf,
    Std.ExtTreeMap.getElem?_insertIfNew]
  by_cases hd : c = d
  · subst hd
    cases hget : t.targetsOutsideCurrentCluster[c]? with
    | none =>
        have hmem : c ∉ t.targetsOutsideCurrentCluster := by
          rw [Std.ExtTreeMap.mem_iff_isSome_getElem?, hget]
          simp
        simp [hmem]
    | some s =>
        have hmem : c ∈ t.targetsOutsideCurrentCluster := by
          rw [Std.ExtTreeMap.mem_iff_isSome_getElem?, hget]
          rfl
        simp [hmem]
  · simp [hd]

theorem mem_keys_generateSubTransaction_fst :
    d ∈ (G.generateSubTransaction t c).1.targetsOutsideCurrentCluster ↔
      d ∈ t.targetsOutsideCurrentCluster ∨ d = c := by
  simp only [generateSubTransaction, Std.ExtTreeMap.mem_insertIfNew, Std.compare_eq_iff_eq]
  tauto

/-! ### Results -/

section Result

variable (l : List (ID × Finset ι)) (futures : Finset ID)

theorem mem_targetsOf_foldl_registerTargets :
    y ∈ (l.foldl G.registerTargets (t, futures)).1.targetsOf d ↔
      y ∈ t.targetsOf d ∨ ∃ e ∈ l, e.1 = d ∧ y ∈ e.2 := by
  induction l generalizing t futures with
  | nil => simp
  | cons e l ih =>
      rw [List.foldl_cons, registerTargets, ih, InnerTransaction.mem_targetsOf_foldl_insertTarget,
        G.mem_sorted]
      simp only [List.mem_cons, exists_eq_or_imp]
      constructor
      · rintro ((hy | ⟨hy, rfl⟩) | hy)
        · exact Or.inl hy
        · exact Or.inr (Or.inl ⟨rfl, hy⟩)
        · exact Or.inr (Or.inr hy)
      · rintro (hy | ⟨rfl, hy⟩ | hy)
        · exact Or.inl (Or.inl hy)
        · exact Or.inl (Or.inr ⟨hy, rfl⟩)
        · exact Or.inr hy

theorem sorted_ne_nil_iff (s : Finset ι) : G.sorted s ≠ [] ↔ s.Nonempty := by
  constructor
  · intro hne
    obtain ⟨x, hx⟩ := List.exists_mem_of_ne_nil _ hne
    exact ⟨x, G.mem_sorted.mp hx⟩
  · rintro ⟨x, hx⟩
    exact List.ne_nil_of_mem (G.mem_sorted.mpr hx)

theorem mem_keys_foldl_registerTargets :
    d ∈ (l.foldl G.registerTargets (t, futures)).1.targetsOutsideCurrentCluster ↔
      d ∈ t.targetsOutsideCurrentCluster ∨ ∃ e ∈ l, e.1 = d ∧ e.2.Nonempty := by
  induction l generalizing t futures with
  | nil => simp
  | cons e l ih =>
      rw [List.foldl_cons, registerTargets, ih, InnerTransaction.mem_keys_foldl_insertTarget,
        sorted_ne_nil_iff]
      simp only [List.mem_cons, exists_eq_or_imp]
      constructor
      · rintro ((hd | ⟨hne, rfl⟩) | hd)
        · exact Or.inl hd
        · exact Or.inr (Or.inl ⟨rfl, hne⟩)
        · exact Or.inr (Or.inr hd)
      · rintro (hd | ⟨rfl, hne⟩ | hd)
        · exact Or.inl (Or.inl hd)
        · exact Or.inl (Or.inr ⟨hne, rfl⟩)
        · exact Or.inr hd

theorem mem_futures_foldl_registerTargets :
    d ∈ (l.foldl G.registerTargets (t, futures)).2 ↔
      d ∈ futures ∨ d ∉ t.targetsOutsideCurrentCluster ∧ ∃ e ∈ l, e.1 = d := by
  induction l generalizing t futures with
  | nil => simp
  | cons e l ih =>
      rw [List.foldl_cons, registerTargets, ih, InnerTransaction.mem_keys_foldl_insertTarget]
      simp only [List.mem_cons, exists_eq_or_imp]
      by_cases hed : e.1 = d
      · subst hed
        by_cases hkey : e.1 ∈ t.targetsOutsideCurrentCluster <;> simp [hkey]
      · have hde : d ≠ e.1 := fun h => hed h.symm
        by_cases hkey : e.1 ∈ t.targetsOutsideCurrentCluster <;> simp [hkey, hed, hde]

theorem foldl_registerTargets_frame :
    (l.foldl G.registerTargets (t, futures)).1 =
      { t with targetsOutsideCurrentCluster :=
          (l.foldl G.registerTargets (t, futures)).1.targetsOutsideCurrentCluster } := by
  induction l generalizing t futures with
  | nil => rfl
  | cons e l ih =>
      rw [List.foldl_cons, registerTargets, InnerTransaction.foldl_insertTarget_frame, ih]

variable (sub : InnerTransaction ι V)

/-- `register_execution_result` adds the targets of the sub-transaction to those of its own. -/
theorem mem_targetsOf_registerExecutionResult :
    y ∈ (G.registerExecutionResult t sub.executeResult).1.targetsOf d ↔
      y ∈ t.targetsOf d ∨ y ∈ sub.targetsOf d := by
  have h := mem_targetsOf_foldl_registerTargets G t d y
    sub.targetsOutsideCurrentCluster.toList ∅
  unfold registerExecutionResult InnerTransaction.executeResult
  simp only [InnerTransaction.targetsOf] at h ⊢
  rw [h]
  refine or_congr_right ?_
  simp only [Prod.exists, Std.ExtTreeMap.mem_toList_iff_getElem?_eq_some]
  constructor
  · rintro ⟨_, s, hs, rfl, hy⟩
    simpa [hs] using hy
  · intro hy
    cases hs : sub.targetsOutsideCurrentCluster[d]? with
    | none => simp [hs] at hy
    | some s => exact ⟨d, s, hs, rfl, by simpa [hs] using hy⟩

theorem mem_keys_registerExecutionResult :
    d ∈ (G.registerExecutionResult t sub.executeResult).1.targetsOutsideCurrentCluster ↔
      d ∈ t.targetsOutsideCurrentCluster ∨ (sub.targetsOf d).Nonempty := by
  have h := mem_keys_foldl_registerTargets G t d sub.targetsOutsideCurrentCluster.toList ∅
  unfold registerExecutionResult InnerTransaction.executeResult
  simp only at h ⊢
  rw [h]
  refine or_congr_right ?_
  simp only [Prod.exists, Std.ExtTreeMap.mem_toList_iff_getElem?_eq_some,
    InnerTransaction.targetsOf]
  constructor
  · rintro ⟨_, s, hs, rfl, hne⟩
    simpa [hs] using hne
  · intro hne
    cases hs : sub.targetsOutsideCurrentCluster[d]? with
    | none => simp [hs] at hne
    | some s => exact ⟨d, s, hs, rfl, by simpa [hs] using hne⟩

theorem mem_futures_registerExecutionResult :
    d ∈ (G.registerExecutionResult t sub.executeResult).2 ↔
      d ∉ t.targetsOutsideCurrentCluster ∧ d ∈ sub.targetsOutsideCurrentCluster := by
  have h := mem_futures_foldl_registerTargets G t d sub.targetsOutsideCurrentCluster.toList ∅
  unfold registerExecutionResult InnerTransaction.executeResult
  simp only at h ⊢
  rw [h]
  simp only [Finset.notMem_empty, false_or, Prod.exists,
    Std.ExtTreeMap.mem_toList_iff_getElem?_eq_some]
  refine and_congr_right fun _ => ?_
  rw [Std.ExtTreeMap.mem_iff_isSome_getElem?, Option.isSome_iff_exists]
  exact ⟨fun ⟨_, s, hs, hd⟩ => ⟨s, hd ▸ hs⟩, fun ⟨s, hs⟩ => ⟨d, s, hs, rfl⟩⟩

theorem registerExecutionResult_frame :
    (G.registerExecutionResult t sub.executeResult).1 =
      { t with
        targetsOutsideCurrentCluster :=
          (G.registerExecutionResult t sub.executeResult).1.targetsOutsideCurrentCluster
        cleanups := t.cleanups ∪ sub.cleanups } := by
  unfold registerExecutionResult InnerTransaction.executeResult
  simp only
  rw [foldl_registerTargets_frame]

variable {G t sub} in
theorem WellQueued.registerExecutionResult (h : G.WellQueued t) (hsub : G.WellQueued sub) :
    G.WellQueued (G.registerExecutionResult t sub.executeResult).1 := by
  have houtside := fun d x => mem_targetsOf_registerExecutionResult G t d x sub
  rw [registerExecutionResult_frame] at houtside ⊢
  refine ⟨h.mem_executor, h.nodup, h.sorted, h.inside, fun d x hx => ?_⟩
  rcases (houtside d x).mp hx with hx | hx
  · exact h.outside d x hx
  · exact hsub.outside d x hx

end Result

end Graph

end Prf
