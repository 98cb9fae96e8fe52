import Prf.Proof.StreamLoop
import Prf.Evaluation

/-!
# The rounds of a sub-transaction

The loop of `InnerTransaction::execute` with updaters that may do anything, and a log of what it
updates. Every in-cluster listener of a value that has sent is updated after it, and the loop ends
where listening makes no cycle. Where the ranks increase along the links and nothing listens over a
loop, no value is updated twice or before one it depends on.
-/

namespace Prf

open Relation

namespace Graph

variable {ι V : Type}

/-- What the updaters return, the `n`-th round of the loop being the `n`-th call of one. A
`GlobalCellLoop` never returns a value; its closure is the library's own. -/
structure Updaters (G : Graph ι V) where
  run : ℕ → ι → (ι → Option V) → Except Failure (Option V × List (Hook ι V))
  silent : ∀ n x sample value hooks, (G.primitive x).isGlobalCellLoop = true →
    run n x sample ≠ .ok (some value, hooks)

/-- The closures the primitives are constructed with. -/
def updaters (G : Graph ι V) : G.Updaters where
  run _ x sample := (G.primitive x).updater x sample
  silent n x sample value hooks hglobal h := by
    rw [updater_ne_global h] at hglobal
    cases hglobal

variable {G : Graph ι V} [DecidableEq ι]

/-- `update(transaction)` in the round `n`, with what it sends. -/
def updateBy (u : G.Updaters) (n : ℕ) (tiv : ι) (store : Store ι V) (t : InnerTransaction ι V) :
    Except Failure (Option V × Store ι V × InnerTransaction ι V) :=
  match u.run n tiv (G.sample store t.id) with
  | .error e => .error e
  | .ok (res, hooks) =>
      let t := hooks.foldl InnerTransaction.registerBeforeUpdateHook t
      match res with
      | none => .ok (none, store, t)
      | some value => .ok (some value, G.send tiv value store t)

/-- The loop of `InnerTransaction::execute` from the round `n` on, stopped after `fuel` rounds if it is
still running: what it updates, with what each update sends, and its result. -/
def executeLoopBy (u : G.Updaters) : ℕ → ℕ → Store ι V → InnerTransaction ι V →
    List (ι × Option V) × Option (Except Failure (Store ι V × InnerTransaction ι V))
  | fuel, n, store, t =>
      match t.executor with
      | [] => ([], some (.ok (store, t)))
      | (_, tiv) :: rest =>
          match fuel with
          | 0 => ([], none)
          | fuel + 1 =>
              match updateBy u n tiv store (t.pop tiv rest) with
              | .error e => ([(tiv, none)], some (.error e))
              | .ok (sent, store, t) =>
                  let r := executeLoopBy u fuel (n + 1) store t
                  ((tiv, sent) :: r.1, r.2)

/-- The transaction of an update of the cluster in which these values have been registered. -/
def registeredIn (G : Graph ι V) (id c : ID) (registered : List ι) : InnerTransaction ι V :=
  registered.foldl G.registerUpdate (InnerTransaction.new id c)

theorem update_eq_updateBy (n : ℕ) (x : ι) (store : Store ι V) (t : InnerTransaction ι V) :
    G.update x store t = (updateBy G.updaters n x store t).map Prod.snd := by
  simp only [update, updateBy, updaters]
  cases (G.primitive x).updater x (G.sample store t.id) with
  | error e => rfl
  | ok res =>
      obtain ⟨value, hooks⟩ := res
      cases value <;> rfl

/-- With the closures of the primitives it is the loop of `execute`. -/
theorem executeLoopBy_updaters (fuel n : ℕ) (store : Store ι V) (t : InnerTransaction ι V) :
    (executeLoopBy G.updaters fuel n store t).2 = G.executeLoop fuel store t := by
  induction fuel generalizing n store t with
  | zero =>
      rw [executeLoopBy.eq_def, executeLoop.eq_def]
      cases h : t.executor <;> simp [h]
  | succ fuel ih =>
      rw [executeLoopBy, executeLoop]
      cases h : t.executor with
      | nil => rfl
      | cons e rest =>
          simp only [update_eq_updateBy n]
          cases updateBy G.updaters n e.2 store (t.pop e.2 rest) with
          | error e => rfl
          | ok result => exact ih (n + 1) result.2.1 result.2.2

theorem updateBy_eq_error_iff {u : G.Updaters} {n : ℕ} {x : ι} {store : Store ι V}
    {t : InnerTransaction ι V} {e : Failure} :
    updateBy u n x store t = .error e ↔ u.run n x (G.sample store t.id) = .error e := by
  rw [updateBy]
  cases u.run n x (G.sample store t.id) with
  | error e' => simp
  | ok res =>
      obtain ⟨value, hooks⟩ := res
      cases value <;> simp

theorem exists_run_of_error {u : G.Updaters} {e : Failure} (fuel n : ℕ) (store : Store ι V)
    (t : InnerTransaction ι V) (h : (executeLoopBy u fuel n store t).2 = some (.error e)) :
    ∃ n x sample, u.run n x sample = .error e := by
  induction fuel generalizing n store t with
  | zero =>
      rw [executeLoopBy.eq_def] at h
      cases hexec : t.executor <;> simp [hexec] at h
  | succ fuel ih =>
      rw [executeLoopBy] at h
      cases hexec : t.executor with
      | nil => simp [hexec] at h
      | cons entry rest =>
          simp only [hexec] at h
          cases hupd : updateBy u n entry.2 store (t.pop entry.2 rest) with
          | error e' =>
              simp only [hupd, Option.some.injEq, Except.error.injEq] at h
              exact ⟨n, entry.2, _, updateBy_eq_error_iff.mp (h ▸ hupd)⟩
          | ok state =>
              simp only [hupd] at h
              exact ih _ _ _ h

/-! ## One round -/

/-- What a round does to the transaction: the value popped is one of the least rank, and its
listeners in the cluster are registered if it sends. -/
structure UpdateRound (G : Graph ι V) (x : ι) (sent : Option V)
    (t t' : InnerTransaction ι V) : Prop where
  mem : x ∈ t.targetsInsideCurrentCluster
  rank_le : ∀ y ∈ t.targetsInsideCurrentCluster,
    (G.inClusterRank x).value ≤ (G.inClusterRank y).value
  wellQueued : G.WellQueued t'
  updatingCluster : t'.updatingCluster = t.updatingCluster
  inside : ∀ y, y ∈ t'.targetsInsideCurrentCluster ↔
    y ∈ t.targetsInsideCurrentCluster ∧ y ≠ x ∨
      sent.isSome ∧ x ∈ (G.primitive y).listens ∧ G.clusterId y = t.updatingCluster
  silent : sent.isSome → (G.primitive x).isGlobalCellLoop = false

variable {u : G.Updaters} {n fuel : ℕ} {c : ID} {store store' : Store ι V}
  {t t' : InnerTransaction ι V} {x y : ι} {sent : Option V}

theorem updateRound_of_updateBy (hq : G.WellQueued t) {r : ℕ} {rest : List (ℕ × ι)}
    (hexec : t.executor = (r, x) :: rest)
    (hupd : updateBy u n x store (t.pop x rest) = .ok (sent, store', t')) :
    G.UpdateRound x sent t t' := by
  have hpop := hq.pop hexec
  have hmem := hq.mem_inside hexec
  have hle : ∀ y ∈ t.targetsInsideCurrentCluster,
      (G.inClusterRank x).value ≤ (G.inClusterRank y).value := fun y => hq.rank_le_of_mem hexec
  rw [updateBy] at hupd
  split at hupd
  · cases hupd
  · next value hooks hrun =>
      rw [foldl_registerBeforeUpdateHook] at hupd
      cases value with
      | none =>
          simp only [Except.ok.injEq, Prod.mk.injEq] at hupd
          obtain ⟨rfl, -, rfl⟩ := hupd
          refine ⟨hmem, hle, hpop.withHooks hooks, rfl, fun y => ?_, by simp⟩
          simp [withHooks, and_comm]
      | some value =>
          simp only [Except.ok.injEq, Prod.mk.injEq] at hupd
          obtain ⟨rfl, hsend⟩ := hupd
          obtain rfl : t' = _ := (congrArg Prod.snd hsend).symm
          refine ⟨hmem, hle, (hpop.withHooks hooks).send x value store, by simp [withHooks],
            fun y => ?_, fun _ => ?_⟩
          · rw [mem_inside_send, ← G.mem_listners]
            simp [withHooks, and_comm]
          · by_contra hglobal
            exact u.silent n x _ value hooks (by simpa using hglobal) hrun

namespace UpdateRound

omit [DecidableEq ι] in
theorem feeds (h : G.UpdateRound x sent t t') (hq : G.WellQueued t) (hc : t.updatingCluster = c)
    (hy : y ∈ t'.targetsInsideCurrentCluster) :
    y ∈ t.targetsInsideCurrentCluster ∧ y ≠ x ∨ G.Feeds c x y := by
  rcases (h.inside y).mp hy with hold | ⟨hsent, hlistens, hcluster⟩
  · exact .inl hold
  · exact .inr ⟨hlistens, (hq.inside x h.mem).trans hc, hcluster.trans hc, h.silent hsent⟩

theorem cutExpand (h : G.UpdateRound x sent t t') (hq : G.WellQueued t) (hc : t.updatingCluster = c) :
    CutExpand (fun y x => G.Feeds c x y) t'.targetsInsideCurrentCluster.val
      t.targetsInsideCurrentCluster.val := by
  have hunion : t'.targetsInsideCurrentCluster = t.targetsInsideCurrentCluster.erase x ∪
      t'.targetsInsideCurrentCluster.filter fun y => y ∉ t.targetsInsideCurrentCluster.erase x := by
    ext y
    have hy := h.inside y
    simp only [Finset.mem_union, Finset.mem_erase, Finset.mem_filter]
    tauto
  rw [hunion]
  refine Worklist.cutExpand_erase_union h.mem fun y hy => ?_
  rw [Finset.mem_filter, Finset.mem_erase] at hy
  rcases h.feeds hq hc hy.1 with hold | hfeeds
  · exact absurd hold.symm hy.2
  · exact hfeeds

end UpdateRound

/-! ## All rounds -/

/-- How the loop goes on from a transaction: what it logs, and the result if it comes to one. -/
inductive Rounds (G : Graph ι V) : InnerTransaction ι V → List (ι × Option V) →
    Option (Except Failure (Store ι V × InnerTransaction ι V)) → Prop where
  | ends {t : InnerTransaction ι V} (store : Store ι V) (hexec : t.executor = []) :
      Rounds G t [] (some (.ok (store, t)))
  | cut (t : InnerTransaction ι V) : Rounds G t [] none
  | fails {t : InnerTransaction ι V} {x : ι} (e : Failure)
      (hmem : x ∈ t.targetsInsideCurrentCluster) : Rounds G t [(x, none)] (some (.error e))
  | round {t t' : InnerTransaction ι V} {x : ι} {sent : Option V} {log : List (ι × Option V)}
      {result : Option (Except Failure (Store ι V × InnerTransaction ι V))}
      (hround : G.UpdateRound x sent t t') (hrest : Rounds G t' log result) :
      Rounds G t ((x, sent) :: log) result

variable {log : List (ι × Option V)}
  {result : Option (Except Failure (Store ι V × InnerTransaction ι V))}

theorem rounds_executeLoopBy (u : G.Updaters) (fuel n : ℕ) (store : Store ι V)
    (hq : G.WellQueued t) :
    G.Rounds t (executeLoopBy u fuel n store t).1 (executeLoopBy u fuel n store t).2 := by
  induction fuel generalizing n store t with
  | zero =>
      rw [executeLoopBy.eq_def]
      cases hexec : t.executor with
      | nil => simpa [hexec] using Rounds.ends store hexec
      | cons e rest => simpa [hexec] using Rounds.cut t
  | succ fuel ih =>
      rw [executeLoopBy]
      cases hexec : t.executor with
      | nil => exact .ends store hexec
      | cons e rest =>
          obtain ⟨r, x⟩ := e
          simp only
          split
          · next e hupd => exact .fails e (hq.mem_inside hexec)
          · next sent store' t' hupd =>
              have hround := updateRound_of_updateBy hq hexec hupd
              exact .round hround (ih (n + 1) store' hround.wellQueued)

namespace Rounds

theorem mem_of_ok (h : G.Rounds t log result) (hq : G.WellQueued t)
    (hok : result = some (.ok (store', t'))) (hy : y ∈ t.targetsInsideCurrentCluster) :
    y ∈ log.map Prod.fst := by
  induction h with
  | ends store hexec => simp [hq.executor_eq_nil_iff.mp hexec] at hy
  | cut t => cases hok
  | fails e hmem => cases hok
  | @round t₁ t₂ x sent log result hround hrest ih =>
      by_cases hyx : y = x
      · simp [hyx]
      · have hmem := ih hround.wellQueued hok ((hround.inside y).mpr (.inl ⟨hy, hyx⟩))
        exact List.mem_cons_of_mem _ hmem

/-- After a value has sent, each of its listeners in the cluster is updated. -/
theorem listener_after (h : G.Rounds t log result) (hc : t.updatingCluster = c)
    (hok : result = some (.ok (store', t'))) {before after : List (ι × Option V)} {v : V}
    (hlog : log = before ++ (x, some v) :: after) (hlistens : x ∈ (G.primitive y).listens)
    (hy : G.clusterId y = c) : y ∈ after.map Prod.fst := by
  induction h generalizing before with
  | ends store hexec => simp at hlog
  | cut t => cases hok
  | fails e hmem => cases hok
  | @round t₁ t₂ x₁ sent log result hround hrest ih =>
      cases before with
      | nil =>
          obtain ⟨heq, rfl⟩ := List.cons.inj hlog
          obtain ⟨rfl, rfl⟩ := Prod.mk.inj heq
          have hcluster : G.clusterId y = t₁.updatingCluster := hy.trans hc.symm
          exact hrest.mem_of_ok hround.wellQueued hok
            ((hround.inside y).mpr (.inr ⟨rfl, hlistens, hcluster⟩))
      | cons e before =>
          exact ih (hround.updatingCluster.trans hc) hok (List.cons.inj hlog).2

omit [DecidableEq ι] in
theorem executor_of_ok (h : G.Rounds t log result) (hq : G.WellQueued t)
    (hok : result = some (.ok (store', t'))) :
    t'.executor = [] ∧ t'.targetsInsideCurrentCluster = ∅ := by
  induction h with
  | ends store hexec =>
      obtain ⟨-, rfl⟩ := Prod.mk.inj (Except.ok.inj (Option.some.inj hok))
      exact ⟨hexec, hq.executor_eq_nil_iff.mp hexec⟩
  | cut t => cases hok
  | fails e hmem => cases hok
  | round hround hrest ih => exact ih hround.wellQueued hok

end Rounds

theorem exists_executeLoopBy_end (hacyclic : G.ListensAcyclic c) (u : G.Updaters) (n : ℕ)
    (store : Store ι V) (hq : G.WellQueued t) (hc : t.updatingCluster = c) :
    ∃ rounds log result, ∀ fuel ≥ rounds, executeLoopBy u fuel n store t = (log, some result) := by
  have hwf := (wellFounded_feeds hacyclic).cutExpand
  generalize hinside : t.targetsInsideCurrentCluster.val = inside
  induction inside using hwf.induction generalizing n store t with
  | _ inside ih =>
      cases hexec : t.executor with
      | nil =>
          refine ⟨0, [], .ok (store, t), fun fuel _ => ?_⟩
          rw [executeLoopBy.eq_def]
          simp [hexec]
      | cons e rest =>
          obtain ⟨r, x⟩ := e
          cases hupd : updateBy u n x store (t.pop x rest) with
          | error e =>
              refine ⟨1, [(x, none)], .error e, fun fuel hfuel => ?_⟩
              obtain ⟨fuel, rfl⟩ : ∃ n, fuel = n + 1 := ⟨fuel - 1, by omega⟩
              rw [executeLoopBy]
              simp [hexec, hupd]
          | ok state =>
              obtain ⟨sent, store', t'⟩ := state
              have hround := updateRound_of_updateBy hq hexec hupd
              obtain ⟨rounds, log, result, hend⟩ := ih _ (hinside ▸ hround.cutExpand hq hc) (n + 1)
                store' hround.wellQueued (hround.updatingCluster.trans hc) rfl
              refine ⟨rounds + 1, (x, sent) :: log, result, fun fuel hfuel => ?_⟩
              obtain ⟨fuel, rfl⟩ : ∃ n, fuel = n + 1 := ⟨fuel - 1, by omega⟩
              rw [executeLoopBy]
              simp [hexec, hupd, hend fuel (by omega)]

/-! ## Ranks along the links -/

/-- A link inside a cluster. -/
def LinkedIn (G : Graph ι V) (c : ID) (x y : ι) : Prop :=
  G.LinkedTo x y ∧ G.clusterId x = c ∧ G.clusterId y = c

omit [DecidableEq ι] in
theorem linkedIn_of_feeds
    (hloop : ∀ x y, G.clusterId x = c → G.clusterId y = c →
      x ∉ (G.primitive y).listenOverLoop ∧ x ∉ (G.primitive y).globalListen)
    (h : G.Feeds c x y) : G.LinkedIn c x y := by
  obtain ⟨hlistens, hx, hy, -⟩ := h
  obtain ⟨hover, hglobal⟩ := hloop x y hx hy
  simp only [Primitive.listens, List.mem_append, hover, hglobal, or_false] at hlistens
  exact ⟨List.mem_append_left _ hlistens, hx, hy⟩

omit [DecidableEq ι] in
theorem inClusterRank_lt_of_path
    (hranks : ∀ x y, G.LinkedIn c x y → (G.inClusterRank x).value < (G.inClusterRank y).value)
    (h : TransGen (G.LinkedIn c) x y) : (G.inClusterRank x).value < (G.inClusterRank y).value :=
  Layering.lt_of_transGen (fun x => (G.inClusterRank x).value) hranks h

namespace Rounds

variable (hlinked : ∀ x y, G.Feeds c x y → G.LinkedIn c x y)

include hlinked

omit [DecidableEq ι] in
theorem exists_path (h : G.Rounds t log result) (hq : G.WellQueued t) (hc : t.updatingCluster = c)
    (hy : y ∈ log.map Prod.fst) :
    ∃ x ∈ t.targetsInsideCurrentCluster, ReflTransGen (G.LinkedIn c) x y := by
  induction h with
  | ends store hexec => cases hy
  | cut t => cases hy
  | fails e hmem =>
      obtain rfl := List.mem_singleton.mp hy
      exact ⟨_, hmem, .refl⟩
  | @round t₁ t₂ x sent log result hround hrest ih =>
      rcases List.mem_cons.mp hy with rfl | hy
      · exact ⟨_, hround.mem, .refl⟩
      · obtain ⟨z, hz, hpath⟩ := ih hround.wellQueued (hround.updatingCluster.trans hc) hy
        rcases hround.feeds hq hc hz with hold | hfeeds
        · exact ⟨z, hold.1, hpath⟩
        · exact ⟨x, hround.mem, hpath.head (hlinked x z hfeeds)⟩

variable (hranks : ∀ x y, G.LinkedIn c x y →
  (G.inClusterRank x).value < (G.inClusterRank y).value)

include hranks

omit [DecidableEq ι] in
theorem pairwise (h : G.Rounds t log result) (hq : G.WellQueued t) (hc : t.updatingCluster = c) :
    (log.map Prod.fst).Pairwise fun x y => ¬ ReflTransGen (G.LinkedIn c) y x := by
  induction h with
  | ends store hexec => exact .nil
  | cut t => exact .nil
  | fails e hmem => exact List.pairwise_singleton _ _
  | @round t₁ t₂ x sent log result hround hrest ih =>
      have hc' := hround.updatingCluster.trans hc
      refine List.pairwise_cons.mpr ⟨fun y hy hyx => ?_, ih hround.wellQueued hc'⟩
      -- what is still registered lies before `y`, and `x` had the least rank
      obtain ⟨z, hz, hzy⟩ := hrest.exists_path hlinked hround.wellQueued hc' hy
      rcases hround.feeds hq hc hz with ⟨hold, hne⟩ | hfeeds
      · have hle := hround.rank_le z hold
        rcases reflTransGen_iff_eq_or_transGen.mp (hzy.trans hyx) with heq | hpath
        · exact hne heq.symm
        · exact absurd (inClusterRank_lt_of_path hranks hpath) (not_lt.mpr hle)
      · have hpath := TransGen.head' (hlinked x z hfeeds) (hzy.trans hyx)
        exact lt_irrefl _ (inClusterRank_lt_of_path hranks hpath)

end Rounds

theorem wellQueued_registeredIn (T c : ID) (registered : List ι) :
    G.WellQueued (G.registeredIn T c registered) :=
  (wellQueued_new G T c).foldl_registerUpdate registered

theorem registeredIn_updatingCluster (T c : ID) (registered : List ι) :
    (G.registeredIn T c registered).updatingCluster = c :=
  foldl_registerUpdate_updatingCluster ..

theorem mem_inside_registeredIn (T : ID) (registered : List ι) :
    x ∈ (G.registeredIn T c registered).targetsInsideCurrentCluster ↔
      x ∈ registered ∧ G.clusterId x = c := by
  rw [registeredIn, mem_inside_foldl_registerUpdate]
  simp [InnerTransaction.new]

/-- In a cluster in which listening makes no cycle the loop of `execute` ends whatever the updaters
do, with a failure only if an updater fails, and else every listener of a value that has sent is
updated once more. -/
theorem executeLoopBy_settles (hacyclic : G.ListensAcyclic c) (u : G.Updaters) (store : Store ι V)
    (T : ID) (registered : List ι) :
    ∃ rounds log result,
      (∀ fuel ≥ rounds,
        executeLoopBy u fuel 0 store (G.registeredIn T c registered) = (log, some result)) ∧
      (∀ e, result = .error e → ∃ n x sample, u.run n x sample = .error e) ∧
      ∀ final, result = .ok final → ∀ before x v after y, log = before ++ (x, some v) :: after →
        x ∈ (G.primitive y).listens → G.clusterId y = c → y ∈ after.map Prod.fst := by
  have hq := wellQueued_registeredIn (G := G) T c registered
  have hc := registeredIn_updatingCluster (G := G) T c registered
  obtain ⟨rounds, log, result, hend⟩ := exists_executeLoopBy_end hacyclic u 0 store hq hc
  refine ⟨rounds, log, result, hend, ?_, ?_⟩
  · rintro e rfl
    exact exists_run_of_error rounds 0 store _ (congrArg Prod.snd (hend rounds le_rfl))
  · rintro ⟨store', t'⟩ rfl before x v after y hlog hlistens hy
    have hrounds := rounds_executeLoopBy u rounds 0 store hq
    rw [hend rounds le_rfl] at hrounds
    exact hrounds.listener_after hc rfl hlog hlistens hy

/-- The filter behind a loop, updated because of the sink. -/
theorem executeLoopBy_settles_filterBehindLoop :
    ∃ rounds log result,
      (∀ fuel ≥ rounds, executeLoopBy filterBehindLoop.updaters fuel 0
        (sinkSent filterBehindLoop 1).1 (filterBehindLoop.registeredIn 0 1 [1, 6]) =
          (log, some result)) ∧
      (∀ e, result = .error e →
        ∃ n x sample, filterBehindLoop.updaters.run n x sample = .error e) ∧
      ∀ final, result = .ok final → ∀ before x v after y, log = before ++ (x, some v) :: after →
        x ∈ (filterBehindLoop.primitive y).listens → filterBehindLoop.clusterId y = 1 →
          y ∈ after.map Prod.fst :=
  executeLoopBy_settles listensAcyclic_filterBehindLoop filterBehindLoop.updaters _ 0 [1, 6]

/-- In a cluster without loop listeners whose ranks increase along the links the loop of `execute`
updates no value twice and none before one it depends on. Unless an updater fails it updates all that
is registered and every listener of a value that sends, and leaves its queue empty. -/
theorem executeLoopBy_once
    (hloop : ∀ x y, G.clusterId x = c → G.clusterId y = c →
      x ∉ (G.primitive y).listenOverLoop ∧ x ∉ (G.primitive y).globalListen)
    (hranks : ∀ x y, G.LinkedIn c x y → (G.inClusterRank x).value < (G.inClusterRank y).value)
    (u : G.Updaters) (store : Store ι V) (T : ID) (registered : List ι) :
    ∃ rounds log result,
      (∀ fuel ≥ rounds,
        executeLoopBy u fuel 0 store (G.registeredIn T c registered) = (log, some result)) ∧
      (log.map Prod.fst).Nodup ∧
      (∀ before y after, log.map Prod.fst = before ++ y :: after →
        ∀ x ∈ log.map Prod.fst, TransGen (G.LinkedIn c) x y → x ∈ before) ∧
      (∀ e, result = .error e → ∃ n x sample, u.run n x sample = .error e) ∧
      ∀ store' t', result = .ok (store', t') →
        t'.executor = [] ∧ t'.targetsInsideCurrentCluster = ∅ ∧
        (∀ x ∈ registered, G.clusterId x = c → x ∈ log.map Prod.fst) ∧
        ∀ x v, (x, some v) ∈ log → ∀ y ∈ G.listners x, G.clusterId y = c →
          y ∈ log.map Prod.fst := by
  have hacyclic : G.ListensAcyclic c := by
    refine listensAcyclic_of_lt (fun x => (G.inClusterRank x).value) fun x y h => ?_
    obtain ⟨hlistens | hover, hx, hy⟩ := h
    · exact hranks x y ⟨List.mem_append_left _ hlistens, hx, hy⟩
    · exact absurd hover (hloop x y hx hy).1
  have hq := wellQueued_registeredIn (G := G) T c registered
  have hc := registeredIn_updatingCluster (G := G) T c registered
  obtain ⟨rounds, log, result, hend⟩ := exists_executeLoopBy_end hacyclic u 0 store hq hc
  have hrounds := rounds_executeLoopBy u rounds 0 store hq
  rw [hend rounds le_rfl] at hrounds
  have hpairwise := hrounds.pairwise (fun x y => linkedIn_of_feeds hloop) hranks hq hc
  refine ⟨rounds, log, result, hend, ?_, ?_, ?_, ?_⟩
  · refine hpairwise.imp fun hpath => ?_
    rintro rfl
    exact hpath .refl
  · intro before y after hlog x hx hpath
    rw [hlog, List.pairwise_append, List.pairwise_cons] at hpairwise
    rw [hlog, List.mem_append, List.mem_cons] at hx
    rcases hx with hx | rfl | hx
    · exact hx
    · exact absurd (inClusterRank_lt_of_path hranks hpath) (lt_irrefl _)
    · exact absurd hpath.to_reflTransGen (hpairwise.2.1.1 x hx)
  · rintro e rfl
    exact exists_run_of_error rounds 0 store _ (congrArg Prod.snd (hend rounds le_rfl))
  · rintro store' t' rfl
    obtain ⟨hexec, hinside⟩ := hrounds.executor_of_ok hq rfl
    refine ⟨hexec, hinside, fun x hx hcx => ?_, fun x v hx y hy hcy => ?_⟩
    · exact hrounds.mem_of_ok hq rfl ((mem_inside_registeredIn T registered).mpr ⟨hx, hcx⟩)
    · obtain ⟨before, after, hlog⟩ := List.append_of_mem hx
      have hafter := hrounds.listener_after hc rfl hlog ((G.mem_listners x y).mp hy) hcy
      rw [hlog, List.map_append, List.map_cons]
      exact List.mem_append_right _ (List.mem_cons_of_mem _ hafter)

/-- The filter behind the maps, updated because of the sink. -/
theorem executeLoopBy_once_filterBehindMaps :
    ∃ rounds log result,
      (∀ fuel ≥ rounds, executeLoopBy filterBehindMaps.updaters fuel 0
        (sinkSent filterBehindMaps 1).1 (filterBehindMaps.registeredIn 0 1 [5, 1, 5]) =
          (log, some result)) ∧ (log.map Prod.fst).Nodup := by
  obtain ⟨rounds, log, result, hend, hnodup, -⟩ :=
    executeLoopBy_once (G := filterBehindMaps) (c := 1) (by decide)
      (by unfold LinkedIn; decide) filterBehindMaps.updaters (sinkSent filterBehindMaps 1).1 0
      [5, 1, 5]
  exact ⟨rounds, log, result, hend, hnodup⟩

end Graph

end Prf
