import Prf.Proof.Registration
import Prf.Library.Layering
import Prf.Library.Worklist

/-!
# The loop of a sub-transaction

`InnerTransaction::execute` as a worklist: which value is popped next is the business of the queue,
what popping it does is not. Without a cycle of listeners in the cluster the loop ends.
-/

namespace Prf

namespace Graph

variable {ι V : Type} (G : Graph ι V)

theorem finite (G : Graph ι V) : Finite ι :=
  Set.finite_univ_iff.mp (G.nodes.finite_toSet.subset fun x _ => G.mem_nodes x)

/-- `y` is registered when `x` sends while cluster `c` is updated. A `GlobalCellLoop` never sends. -/
def Feeds (c : ID) (x y : ι) : Prop :=
  x ∈ (G.primitive y).listens ∧ G.clusterId x = c ∧ G.clusterId y = c ∧
    (G.primitive x).isGlobalCellLoop = false

/-- The listener relation of a cluster: `listen` and `listen_over_loop`. -/
def Listens (c : ID) (x y : ι) : Prop :=
  (x ∈ (G.primitive y).listenTo ∨ x ∈ (G.primitive y).listenOverLoop) ∧
    G.clusterId x = c ∧ G.clusterId y = c

/-- The listener relation of a cluster has no cycle. -/
def ListensAcyclic (c : ID) : Prop :=
  ∀ x, ¬ Relation.TransGen (G.Listens c) x x

variable {G} {c : ID}

theorem listens_of_feeds {x y z : ι} (hxy : G.Feeds c x y) (hyz : G.Feeds c y z) :
    G.Listens c x y := by
  obtain ⟨hx, hcx, hcy, -⟩ := hxy
  have hglobal := hyz.2.2.2
  refine ⟨?_, hcx, hcy⟩
  simp only [Primitive.listens, List.mem_append] at hx
  rcases hx with hx | hx
  · exact hx
  · cases hprim : G.primitive y <;> simp_all [Primitive.globalListen, Primitive.isGlobalCellLoop]

theorem listensAcyclic_of_lt (order : ι → ℕ) (h : ∀ x y, G.Listens c x y → order x < order y) :
    G.ListensAcyclic c :=
  Layering.acyclic_of_lt order h

theorem not_transGen_feeds (h : G.ListensAcyclic c) (x : ι) :
    ¬ Relation.TransGen (G.Feeds c) x x := by
  have hlast : ∀ {y z}, Relation.TransGen (G.Feeds c) y z → ∀ w, G.Feeds c z w →
      Relation.TransGen (G.Listens c) y z := by
    intro y z hyz
    induction hyz with
    | single hyz => exact fun w hw => .single (listens_of_feeds hyz hw)
    | tail _ hzw ih => exact fun w hw => (ih _ hzw).tail (listens_of_feeds hzw hw)
  intro hcycle
  obtain ⟨y, hxy, -⟩ := Relation.TransGen.head'_iff.mp hcycle
  exact h x (hlast hcycle y hxy)

theorem wellFounded_feeds (h : G.ListensAcyclic c) : WellFounded fun y x => G.Feeds c x y := by
  have := G.finite
  have hirrefl : Std.Irrefl (Relation.TransGen fun y x => G.Feeds c x y) :=
    ⟨fun x hx => not_transGen_feeds h x (Relation.transGen_swap.mp hx)⟩
  have hwf := Finite.wellFounded_of_trans_of_irrefl (Relation.TransGen fun y x => G.Feeds c x y)
  exact Subrelation.wf (fun h => .single h) hwf

theorem wellFounded_feeds' (h : G.ListensAcyclic c) : WellFounded (G.Feeds c) := by
  have := G.finite
  have hirrefl : Std.Irrefl (Relation.TransGen (G.Feeds c)) := ⟨not_transGen_feeds h⟩
  have hwf := Finite.wellFounded_of_trans_of_irrefl (Relation.TransGen (G.Feeds c))
  exact Subrelation.wf (fun h => .single h) hwf

theorem updater_ne_global {self x : ι} {sample : ι → Option V} {value : V}
    {hooks : List (Hook ι V)}
    (h : (G.primitive x).updater self sample = .ok (some value, hooks)) :
    (G.primitive x).isGlobalCellLoop = false := by
  cases hprim : G.primitive x with
  | globalCellLoop looped =>
      rw [hprim] at h
      cases looped with
      | none => simp [Primitive.updater] at h
      | some y =>
          simp only [Primitive.updater, Primitive.unsafeSample] at h
          split at h <;> simp_all [bind, Except.bind, pure, Except.pure]
  | _ => rfl

variable [DecidableEq ι]

def Pops (G : Graph ι V) (s s' : Store ι V × InnerTransaction ι V) : Prop :=
  ∃ r x rest, s.2.executor = (r, x) :: rest ∧
    G.update x s.1 (s.2.pop x rest) = .ok (s'.1, s'.2)

/-- What one `update` writes, and the values it registers in the cluster. -/
def fire (G : Graph ι V) (c transactionId : ID) (x : ι) (s : Store ι V × Finset ι) :
    Option ((Store ι V × Finset ι) × Finset ι) :=
  match (G.primitive x).updater x (G.sample s.1 transactionId) with
  | .error _ => none
  | .ok (none, _) => some (s, ∅)
  | .ok (some value, _) =>
      some ((Function.update s.1 x ((s.1 x).insert transactionId value), insert x s.2),
        ((G.listners x).filter fun y => G.clusterId y = c).toFinset)

theorem feeds_of_mem_fire {T : ID} {x y : ι} {s s' : Store ι V × Finset ι} {out : Finset ι}
    (hx : G.clusterId x = c) (h : G.fire c T x s = some (s', out)) (hy : y ∈ out) :
    G.Feeds c x y := by
  unfold fire at h
  split at h
  · simp at h
  · simp only [Option.some.injEq, Prod.mk.injEq] at h
    simp [← h.2] at hy
  · next value hooks hupd =>
      simp only [Option.some.injEq, Prod.mk.injEq] at h
      rw [← h.2, List.mem_toFinset, List.mem_filter, G.mem_listners] at hy
      exact ⟨hy.1, hx, by simpa using hy.2, updater_ne_global hupd⟩

variable {s s' : Store ι V × InnerTransaction ι V}

/-- The part of a state of the loop that does not depend on the order of the queue. -/
def sheet (s : Store ι V × InnerTransaction ι V) : (Store ι V × Finset ι) × Finset ι :=
  ((s.1, s.2.cleanups), s.2.targetsInsideCurrentCluster)

theorem Pops.wellQueued (h : G.Pops s s') (hq : G.WellQueued s.2) : G.WellQueued s'.2 := by
  obtain ⟨r, x, rest, hexec, hupd⟩ := h
  exact (hq.pop hexec).update hupd

theorem Pops.id_eq (h : G.Pops s s') : s'.2.id = s.2.id := by
  obtain ⟨r, x, rest, hexec, hupd⟩ := h
  exact (update_id hupd :)

theorem Pops.updatingCluster_eq (h : G.Pops s s') :
    s'.2.updatingCluster = s.2.updatingCluster := by
  obtain ⟨r, x, rest, hexec, hupd⟩ := h
  exact (update_updatingCluster hupd :)

theorem fire_of_update {x : ι} {rest : List (ℕ × ι)}
    (hupd : G.update x s.1 (s.2.pop x rest) = .ok (s'.1, s'.2)) :
    ∃ out, G.fire s.2.updatingCluster s.2.id x (s.1, s.2.cleanups) =
        some ((s'.1, s'.2.cleanups), out) ∧
      s'.2.targetsInsideCurrentCluster = s.2.targetsInsideCurrentCluster.erase x ∪ out := by
  rcases update_cases hupd with ⟨hooks, hval, hstore, ht⟩ | ⟨value, hooks, hval, hstore, ht⟩
  · refine ⟨∅, ?_, ?_⟩
    · rw [pop_id] at hval
      simp [fire, hval, hstore, ht, withHooks]
    · simp [ht, withHooks]
  · rw [pop_id] at hval
    refine ⟨_, by simp [fire, hval, hstore, ht, withHooks]; rfl, ?_⟩
    ext y
    rw [ht, mem_inside_send, ← G.mem_listners]
    simp [withHooks]

/-- The rounds of the loop are rounds of the worklist. -/
theorem Pops.step (h : G.Pops s s') (hq : G.WellQueued s.2)
    (may : ι → (Store ι V × Finset ι) × Finset ι → Prop)
    (hmay : ∀ r x rest, s.2.executor = (r, x) :: rest → may x (sheet s)) :
    Worklist.Step (G.fire s.2.updatingCluster s.2.id) may (sheet s) (sheet s') := by
  obtain ⟨r, x, rest, hexec, hupd⟩ := h
  obtain ⟨out, hfire, hinside⟩ := fire_of_update hupd
  exact ⟨x, hq.mem_inside hexec, hmay r x rest hexec, out, hfire, hinside⟩

theorem wellFounded_fire (may : ι → (Store ι V × Finset ι) × Finset ι → Prop)
    (h : G.ListensAcyclic c) (T : ID) (hmay : ∀ x s, may x s → G.clusterId x = c) :
    WellFounded fun s' s => Worklist.Step (G.fire c T) may s s' :=
  Worklist.wellFounded_step (wellFounded_feeds h)
    fun x s _ _ hx hfire _ hy => feeds_of_mem_fire (hmay x s hx) hfire hy

/-! ### The loop -/

theorem exists_ok_of_check {α : Type} {o : Option (Except Failure α)} {p : α → Prop}
    [DecidablePred p]
    (h : (match o with | some (.ok a) => decide (p a) | _ => false) = true) :
    ∃ a, o = some (.ok a) ∧ p a := by
  match o, h with
  | some (.ok a), h => exact ⟨a, rfl, of_decide_eq_true h⟩

theorem executeLoop_nil (fuel : ℕ) (h : s.2.executor = []) :
    G.executeLoop fuel s.1 s.2 = some (.ok (s.1, s.2)) := by
  unfold executeLoop
  simp [h]

theorem executeLoop_pops (fuel : ℕ) (h : G.Pops s s') :
    G.executeLoop (fuel + 1) s.1 s.2 = G.executeLoop fuel s'.1 s'.2 := by
  obtain ⟨r, x, rest, hexec, hupd⟩ := h
  rw [executeLoop]
  simp [hexec, hupd]

theorem executeLoop_of_pops (h : Relation.ReflTransGen G.Pops s s') (hnil : s'.2.executor = []) :
    ∃ rounds, ∀ fuel ≥ rounds, G.executeLoop fuel s.1 s.2 = some (.ok (s'.1, s'.2)) := by
  induction h using Relation.ReflTransGen.head_induction_on with
  | refl => exact ⟨0, fun fuel _ => executeLoop_nil fuel hnil⟩
  | head hpop _ ih =>
      obtain ⟨rounds, hrounds⟩ := ih
      refine ⟨rounds + 1, fun fuel hfuel => ?_⟩
      obtain ⟨fuel, rfl⟩ : ∃ n, fuel = n + 1 := ⟨fuel - 1, by omega⟩
      rw [executeLoop_pops fuel hpop]
      exact hrounds fuel (by omega)

theorem exists_pops_end {P : Store ι V × InnerTransaction ι V → Prop}
    (hacyclic : G.ListensAcyclic c)
    (hstep : ∀ s r x rest, P s → s.2.executor = (r, x) :: rest →
      ∃ s', G.update x s.1 (s.2.pop x rest) = .ok (s'.1, s'.2) ∧ P s')
    (hq : G.WellQueued s.2) (hc : s.2.updatingCluster = c) (hinv : P s) :
    ∃ s', Relation.ReflTransGen G.Pops s s' ∧ s'.2.executor = [] ∧ P s' ∧ G.WellQueued s'.2 := by
  have hwf := wellFounded_fire (fun x _ => G.clusterId x = c) hacyclic s.2.id
    (fun _ _ h => h)
  generalize hsheet : sheet s = a
  generalize hT : s.2.id = T at hwf
  induction a using hwf.induction generalizing s with
  | _ a ih =>
      cases hexec : s.2.executor with
      | nil => exact ⟨s, .refl, hexec, hinv, hq⟩
      | cons e rest =>
          obtain ⟨r, x⟩ := e
          obtain ⟨s₁, hupd, hinv₁⟩ := hstep s r x rest hinv hexec
          have hpop : G.Pops s s₁ := ⟨r, x, rest, hexec, hupd⟩
          have hround := hpop.step hq (fun x _ => G.clusterId x = c) fun r' x' rest' h' =>
            (hq.inside x' (hq.mem_inside h')).trans hc
          rw [hc, hT, hsheet] at hround
          obtain ⟨s', hreach, hend⟩ := ih (sheet s₁) hround (hpop.wellQueued hq)
            (hpop.updatingCluster_eq.trans hc) hinv₁ rfl (hpop.id_eq.trans hT)
          exact ⟨s', hreach.head hpop, hend⟩

end Graph

end Prf
