import Prf.Proof.History

/-!
# Both modes compute the meaning

At each finalisation the values visible are those the program means, where the running planner starts
clusters of least rank only. `simple_planner` always does, so sequential mode computes the meaning;
and parallel mode makes the same values visible as long as `rank_based_planner` does.
-/

namespace Prf

open Relation

variable {ι V : Type} [DecidableEq ι] {G : Graph ι V}

def Event.view? : Event ι V → Option (ID × (ι → Option V))
  | finalize T view => some (T, view)
  | _ => none

namespace State

/-- What has been visible at the finalisations, in order. -/
def views (s : State ι V) : List (ID × (ι → Option V)) :=
  s.trace.filterMap Event.view?

def Solved (G : Graph ι V) (first : ID) (s : State ι V) : Prop :=
  ∀ T, first ≤ T → T < s.oldest → ∀ x, lastSent s.trace T x =
    G.sentBy (lastBefore s.trace T) (topSent s.trace T) (lastSent s.trace T) x

/-- `s` is reached by steps before each of which the next round of the running planner proposes
clusters of least rank only. -/
def Orderly (planner : Planner) (G : Graph ι V) (first : ID) (s : State ι V) : Prop :=
  ReflTransGen (fun s s' => (∀ registered oldest, (s.abstract registered oldest).LeastNext planner
    G.clusterRanks) ∧ Step G planner s s') (State.init G first) s

variable {planner planner' : Planner} {first : ID} {s s' : State ι V} {registered T : ID} {x : ι}
  {actions actions' : List (Action ι V)} {order : List ι}

/-! ## Finalisations -/

omit [DecidableEq ι] in
theorem views_append {events : List (Event ι V)} (htrace : s'.trace = s.trace ++ events)
    (hevents : ∀ event ∈ events, event.view? = none) : s'.views = s.views := by
  rw [views, htrace, Log.filterMap_append_silent hevents, views]

omit [DecidableEq ι] in
theorem view?_updateEvents (store : Store ι V) (T : ID) (x : ι) :
    ∀ event ∈ updateEvents G store T x, event.view? = none := by
  intro event hevent
  obtain rfl | ⟨value, rfl⟩ := mem_updateEvents hevent <;> rfl

theorem Simulated.views_step (hsim : Simulated planner G first s registered s.oldest)
    (hstep : Step G planner s s') :
    s'.oldest = s.oldest ∧ s'.finalized = s.finalized ∧ s'.views = s.views ∨
      (∃ rest, s.executorMessages = .finalizeTransaction s.oldest :: rest) ∧
        s'.oldest = s.oldest + 1 ∧ s'.finalized = s.finalized ++ [s.oldest] ∧
        s'.views = s.views ++ [(s.oldest, G.sample s.store s.oldest)] ∧
        (∀ T x, lastSent s'.trace T x = lastSent s.trace T x) ∧
        ∀ T x, topSent s'.trace T x = topSent s.trace T x := by
  have hsilent : ∀ {events : List (Event ι V)}, s'.trace = s.trace ++ events →
      (∀ event ∈ events, event.finalized? = none) → (∀ event ∈ events, event.view? = none) →
      s'.oldest = s.oldest ∧ s'.finalized = s.finalized ∧ s'.views = s.views := by
    intro events htrace hfinalized hviews
    have hsame := finalized_append htrace hfinalized
    exact ⟨oldest_congr hstep.buildTransaction_eq hsame, hsame, views_append htrace hviews⟩
  cases hstep.writes with
  | nothing hsame => exact .inl (hsilent (hsame.trans (List.append_nil _).symm) nofun nofun)
  | send _ htrace => exact .inl (hsilent htrace (by simp [Event.finalized?]) (by simp [Event.view?]))
  | update hupdates =>
      exact .inl (hsilent hupdates.trace_eq (finalized?_updateEvents _ _ _) (view?_updateEvents _ _ _))
  | @finalize T rest store deliveries hfront hrunning hfinalize htrace =>
      obtain rfl := hsim.finalize_oldest hfront hrunning
      refine .inr ⟨⟨rest, hfront⟩, oldest_finalize hstep.buildTransaction_eq htrace,
        finalized_finalize htrace, ?_, fun T x => ?_, fun T x => ?_⟩
      · have hdeliveries : (deliveries.map (Event.deliver s.oldest)).filterMap Event.view? = [] := by
          simp [Event.view?]
        rw [views, htrace, List.filterMap_append, List.filterMap_append, hdeliveries, List.append_nil]
        rfl
      · rw [htrace, lastSent_finalize]
      · rw [htrace, topSent_finalize]

theorem Reached.views_eq (h : Reached planner G first s)
    (hglobal : ∀ x, (G.primitive x).isGlobalCellLoop = false) :
    s.views = s.finalized.map fun T => (T, shown G s.trace T) := by
  induction h with
  | refl => rfl
  | @tail s s' hreach hstep ih =>
      obtain ⟨registered, hsim⟩ := Reached.simulated hreach
      have hsame : s.finalized.map (fun T => (T, shown G s'.trace T)) =
          s.finalized.map fun T => (T, shown G s.trace T) := by
        refine List.map_congr_left fun T hT => ?_
        have hlt := (hsim.mem_finalized.mp hT).2
        have hshown : shown G s'.trace T = shown G s.trace T :=
          funext fun x => shown_congr fun k hk => hsim.lastSent_step hstep (hk.trans_lt hlt) x
        rw [hshown]
      rcases hsim.views_step hstep with
        ⟨-, hfinalized, hviews⟩ | ⟨-, -, hfinalized, hviews, hlast, -⟩
      · rw [hviews, hfinalized, ih, hsame]
      · have hshown : shown G s'.trace s.oldest = shown G s.trace s.oldest :=
          funext fun x => shown_congr fun k _ => hlast k x
        rw [hviews, hfinalized, List.map_append, List.map_singleton, hsame, ih, hshown,
          (Reached.recorded hreach).values.sample_eq_shown hglobal le_rfl]

/-! ## Every value sends what it has to -/

theorem Orderly.reached (h : Orderly planner G first s) : Reached planner G first s :=
  ReflTransGen.mono (fun _ _ hstep => hstep.2) _ _ h

theorem Orderly.ascending (h : Orderly planner G first s)
    (hranks : Protocol.RanksIncrease G.clusterRanks G.edge) (registered : ID) :
    Protocol.Ascending G.clusterRanks (s.abstract registered s.oldest) := by
  induction h generalizing registered with
  | refl => exact ⟨by simp [abstract, init, Protocol.State.proposals], by simp [abstract, init, phaseOf]⟩
  | @tail s s' horderly hstep ih =>
      obtain ⟨registered₀, hsim⟩ := Reached.simulated (Orderly.reached horderly)
      obtain ⟨registered', oldest', hsim', hmove⟩ := hsim.follows hstep.2
      have hascending : Protocol.Ascending G.clusterRanks (s'.abstract registered' oldest') := by
        rcases hmove with hmove | heq
        · exact (ih registered₀).move hsim.inv hranks (hstep.1 _ _) hmove
        · exact heq ▸ ih registered₀
      -- the count of the registered transactions plays no part in the order
      obtain rfl := hsim'.oldest_eq
      exact ⟨hascending.start, hascending.task⟩

theorem Orderly.progressed (h : Orderly planner G first s) (hlayered : G.Layered) :
    Progressed G s := by
  induction h with
  | refl => exact progressed_init
  | tail horderly hstep ih =>
      have hreach := Orderly.reached horderly
      obtain ⟨registered, hsim⟩ := hreach.simulated
      exact ih.step hreach hsim hlayered
        (Orderly.ascending horderly hlayered.ranksIncrease registered) hstep.2

theorem Orderly.solved (h : Orderly planner G first s) (hlayered : G.Layered) :
    Solved G first s := by
  induction h with
  | refl =>
      intro T hfirst hlt
      exact absurd hlt (not_lt.mpr hfirst)
  | @tail s s' horderly hstep ih =>
      obtain ⟨registered, hsim⟩ := Reached.simulated (Orderly.reached horderly)
      -- what an unchanged history has solved stays solved
      have hkept : ∀ T, (∀ k ≤ T, ∀ x, lastSent s'.trace k x = lastSent s.trace k x) →
          (∀ x, topSent s'.trace T x = topSent s.trace T x) →
          (∀ x, lastSent s.trace T x =
            G.sentBy (lastBefore s.trace T) (topSent s.trace T) (lastSent s.trace T) x) →
          ∀ x, lastSent s'.trace T x =
            G.sentBy (lastBefore s'.trace T) (topSent s'.trace T) (lastSent s'.trace T) x := by
        intro T hlast htop hsolved
        have hbefore : lastBefore s'.trace T = lastBefore s.trace T :=
          funext fun x => lastBefore_congr fun k hk => hlast k hk.le x
        rw [hbefore, funext htop, funext (hlast T le_rfl)]
        exact hsolved
      intro T hfirst hlt
      by_cases hold : T < s.oldest
      · exact hkept T (fun k hk => hsim.lastSent_step hstep.2 (hk.trans_lt hold))
          (hsim.topSent_step hstep.2 (.inl hold)) (ih T hfirst hold)
      · rcases hsim.views_step hstep.2 with ⟨holdest, -⟩ | ⟨⟨rest, hfront⟩, holdest, -, -, hlast, htop⟩
        · exact absurd (holdest ▸ hlt) hold
        · obtain rfl : T = s.oldest := by lia
          exact hkept _ (fun k _ => hlast k) (htop _)
            ((Orderly.progressed horderly hlayered).sent_eq hsim hfront)

/-! ## The planners -/

omit [DecidableEq ι] in
theorem Simulated.leastNext_simple (hsim : Simulated .simple G first s registered s.oldest)
    (registered' oldest : ID) : (s.abstract registered' oldest).LeastNext .simple G.clusterRanks :=
  hsim.inv.leastNext_simple

theorem Reached.orderly_simple (h : Reached .simple G first s) : Orderly .simple G first s := by
  induction h with
  | refl => exact .refl
  | tail hreach hstep ih =>
      obtain ⟨registered, hsim⟩ := Reached.simulated hreach
      exact ih.tail ⟨hsim.leastNext_simple, hstep⟩

omit [DecidableEq ι] in
theorem Simulated.summarised (hsim : Simulated .rankBased G first s registered s.oldest) :
    (s.abstract registered s.oldest).Summarised G.clusterRanks := by
  have hreach := hsim.reachable
  generalize s.abstract registered s.oldest = a at hreach
  induction hreach with
  | refl => simp [Protocol.State.Summarised, Protocol.State.init]
  | tail _ hmove ih => exact Protocol.summarised_move ih hmove

omit [DecidableEq ι] in
theorem Simulated.leastNext_rankBased (hsim : Simulated .rankBased G first s registered s.oldest)
    (horder : s.planner.InRankOrder G.clusterRanks) (registered' oldest : ID) :
    (s.abstract registered' oldest).LeastNext .rankBased G.clusterRanks :=
  hsim.summarised.leastNext horder

/-- A run of `rank_based_planner` is orderly if ids and ranks do not disagree in its states. -/
theorem orderly_rankBased (h : Orderly .rankBased G first s)
    (hrun : run G .rankBased s actions = some s')
    (horder : ∀ k t, run G .rankBased s (actions.take k) = some t →
      t.planner.InRankOrder G.clusterRanks) : Orderly .rankBased G first s' := by
  induction actions generalizing s with
  | nil =>
      obtain rfl := Option.some.inj hrun
      exact h
  | cons action actions ih =>
      rw [run, Option.bind_eq_some_iff] at hrun
      obtain ⟨t, ht, hrest⟩ := hrun
      obtain ⟨registered, hsim⟩ := h.reached.simulated
      refine ih (h.tail ⟨hsim.leastNext_rankBased (horder 0 s rfl), step_of_eq ht⟩) hrest ?_
      intro k u hu
      refine horder (k + 1) u ?_
      rw [List.take_succ_cons, run, ht, Option.bind_some, hu]

/-! ## The meaning -/

theorem map_shown_eq_meanings {trace : List (Event ι V)} (hlayered : G.Layered)
    (horder : Dataflow.Enumerates G.LinkedTo order) (n k : ℕ)
    (hsolved : ∀ T, k ≤ T → T < k + n → ∀ x, lastSent trace T x =
      G.sentBy (lastBefore trace T) (topSent trace T) (lastSent trace T) x) :
    (List.range' k n).map (shown G trace) =
      G.meanings order (lastBefore trace k) ((List.range' k n).map (topSent trace)) := by
  induction n generalizing k with
  | zero => rfl
  | succ n ih =>
      have hsent : lastSent trace k = G.evaluate order (lastBefore trace k) (topSent trace k) :=
        hlayered.eq_evaluate horder (hsolved k le_rfl (by omega))
      rw [List.range'_succ, List.map_cons, List.map_cons, Graph.meanings, ← hsent,
        ih (k + 1) fun T hle hlt => hsolved T (by omega) (by omega)]
      rfl

theorem Reached.lastBefore_none (h : Reached planner G first s) :
    lastBefore s.trace first = fun _ => none := by
  funext x
  by_contra hsome
  obtain ⟨value, hvalue⟩ := Option.ne_none_iff_exists'.mp hsome
  obtain ⟨k, hk, hsent, -⟩ := lastBefore_eq_some_iff.mp hvalue
  rw [h.lastSent_none hk] at hsent
  cases hsent

/-- Sequential mode computes the meaning. At each finalisation it is visible what the program means
for the values sent from outside: the initial values in the build transaction, and what user threads
send in the others. -/
theorem simple_meaning (hlayered : G.Layered) (horder : Dataflow.Enumerates G.LinkedTo order)
    (hrun : run G .simple (State.init G first) actions = some s) :
    s.views = s.finalized.zip
      (G.meanings order (fun _ => none) (s.finalized.map (G.sends first actions))) := by
  have hreach : Reached .simple G first s := steps_of_run hrun
  obtain ⟨registered, hsim⟩ := hreach.simulated
  have htop : s.finalized.map (G.sends first actions) = s.finalized.map (topSent s.trace) :=
    List.map_congr_left fun T hT => (topSent_eq_sends hrun hT).symm
  have hsolved := hreach.orderly_simple.solved hlayered
  have hmeanings : s.finalized.map (shown G s.trace) =
      G.meanings order (fun _ => none) (s.finalized.map (topSent s.trace)) := by
    rw [hsim.finalized, ← hreach.lastBefore_none]
    exact map_shown_eq_meanings hlayered horder _ first fun T hfirst hlt =>
      hsolved T hfirst (by lia)
  rw [hreach.views_eq hlayered.isGlobalCellLoop, List.map_prod_left_eq_zip, htop, hmeanings]

/-- `sinkMapHold` in sequential mode, when its two transactions that are committed after the build are
finalised. -/
def sinkMapHoldSequential : State (Fin 3) ℕ :=
  (run sinkMapHold .simple (State.init sinkMapHold 0)
    (played sinkMapHold .simple twoSends 200)).getD (State.init sinkMapHold 0)

theorem simple_meaning_sinkMapHold :
    sinkMapHoldSequential.views.map (fun view => (view.1, (List.finRange 3).map view.2)) =
        [(0, [none, none, some 0]), (1, [some 5, some 6, some 6]), (2, [some 7, some 8, some 8])] ∧
      sinkMapHoldSequential.views = sinkMapHoldSequential.finalized.zip
        (sinkMapHold.meanings [0, 1, 2] (fun _ => none) (sinkMapHoldSequential.finalized.map
          (sinkMapHold.sends 0 (played sinkMapHold .simple twoSends 200)))) := by
  have hlayered : sinkMapHold.Layered := ⟨by decide, by decide, by decide, by decide⟩
  have horder : Dataflow.Enumerates sinkMapHold.LinkedTo [0, 1, 2] :=
    ⟨by decide, by decide, by decide⟩
  have hrun : run sinkMapHold .simple (State.init sinkMapHold 0)
      (played sinkMapHold .simple twoSends 200) = some sinkMapHoldSequential := by
    obtain ⟨s, hs⟩ := Option.isSome_iff_exists.mp (show (run sinkMapHold .simple
      (State.init sinkMapHold 0) (played sinkMapHold .simple twoSends 200)).isSome by decide +kernel)
    rw [sinkMapHoldSequential, hs, Option.getD_some]
  exact ⟨by decide +kernel, simple_meaning hlayered horder hrun⟩

/-! ## Agreement -/

/-- Orderly runs in which the same is sent from outside send the same. -/
theorem Orderly.lastSent_eq (h : Orderly planner G first s) (h' : Orderly planner' G first s')
    (hlayered : G.Layered) (holdest : s.oldest = s'.oldest)
    (htop : ∀ T, first ≤ T → T < s.oldest → topSent s.trace T = topSent s'.trace T)
    (hT : T < s.oldest) : lastSent s.trace T = lastSent s'.trace T := by
  induction T using Nat.strong_induction_on with
  | _ T ih =>
      by_cases hfirst : first ≤ T
      · have hbefore : lastBefore s.trace T = lastBefore s'.trace T :=
          funext fun x => lastBefore_congr fun k hk => congrFun (ih k hk (hk.trans hT)) x
        have hsolved := h.solved hlayered T hfirst hT
        have hsolved' := h'.solved hlayered T hfirst (holdest ▸ hT)
        rw [← hbefore, ← htop T hfirst hT] at hsolved'
        exact funext (Dataflow.solution_unique hlayered.wellFounded
          (Graph.sentBy_local hlayered.loopFree _ _) hsolved hsolved')
      · funext x
        rw [h.reached.lastSent_none (not_le.mp hfirst), h'.reached.lastSent_none (not_le.mp hfirst)]

/-- Parallel mode agrees with sequential mode as long as ids and ranks do not disagree in a round of
`rank_based_planner`: if the same is sent from outside, the same is visible at each finalisation. -/
theorem rankBased_agrees (hlayered : G.Layered)
    (hrun : run G .rankBased (State.init G first) actions = some s)
    (horder : ∀ k t, run G .rankBased (State.init G first) (actions.take k) = some t →
      t.planner.InRankOrder G.clusterRanks)
    (hrun' : run G .simple (State.init G first) actions' = some s')
    (hfinalized : s.finalized = s'.finalized)
    (hsends : ∀ T ∈ s.finalized, G.sends first actions T = G.sends first actions' T) :
    s.views = s'.views := by
  have horderly : Orderly .rankBased G first s := orderly_rankBased .refl hrun horder
  have hreach' : Reached .simple G first s' := steps_of_run hrun'
  obtain ⟨registered, hsim⟩ := horderly.reached.simulated
  obtain ⟨registered', hsim'⟩ := hreach'.simulated
  have holdest : s.oldest = s'.oldest := by
    rw [oldest, oldest, hsim.build, hsim'.build, hfinalized]
  have htop : ∀ T, first ≤ T → T < s.oldest → topSent s.trace T = topSent s'.trace T := by
    intro T hfirst hlt
    have hin := hsim.mem_finalized.mpr ⟨hfirst, hlt⟩
    rw [topSent_eq_sends hrun hin, hsends T hin, topSent_eq_sends hrun' (hfinalized ▸ hin)]
  rw [horderly.reached.views_eq hlayered.isGlobalCellLoop,
    hreach'.views_eq hlayered.isGlobalCellLoop, ← hfinalized]
  refine List.map_congr_left fun T hT => ?_
  have hlt := (hsim.mem_finalized.mp hT).2
  have hshown : shown G s.trace T = shown G s'.trace T :=
    funext fun x => shown_congr fun k hk => congrFun
      (horderly.lastSent_eq hreach'.orderly_simple hlayered holdest htop (hk.trans_lt hlt)) x
  rw [hshown]

/-! ## A merge before its input -/

/-- The clusters numbered in the order of their ranks. -/
def diamondOrdered : Graph (Fin 3) ℕ :=
  diamond ![0, 1, 2] fun c => .ofNat (min c 2)

/-- The merge has the smaller id. -/
def diamondReversed : Graph (Fin 3) ℕ :=
  diamond ![0, 2, 1] diamondRanks

/-- The state in which no thread of the program can move any more. -/
def oneSendAt (G : Graph (Fin 3) ℕ) (planner : Planner) : State (Fin 3) ℕ :=
  (run G planner (State.init G 0) (played G planner oneSend 200)).getD (State.init G 0)

theorem run_oneSendAt {G : Graph (Fin 3) ℕ} {planner : Planner}
    (h : (run G planner (State.init G 0) (played G planner oneSend 200)).isSome) :
    run G planner (State.init G 0) (played G planner oneSend 200) = some (oneSendAt G planner) := by
  obtain ⟨s, hs⟩ := Option.isSome_iff_exists.mp h
  rw [oneSendAt, hs, Option.getD_some]

theorem sent?_turns {fuel : ℕ} {action : Action ι V} (h : action ∈ turns G planner fuel s) :
    action.sent? T x = none := by
  induction fuel generalizing s with
  | zero => cases h
  | succ fuel ih =>
      rw [turns] at h
      split at h
      · cases h
      · rename_i moved s' hfound
        rcases List.mem_cons.mp h with rfl | hin
        · obtain ⟨candidate, hin, hmoved⟩ := List.exists_of_findSome?_eq_some hfound
          obtain ⟨t, -, hpair⟩ := Option.map_eq_some_iff.mp hmoved
          obtain ⟨rfl, -⟩ := Prod.mk.inj hpair
          simp only [List.cons_append, List.nil_append, List.mem_cons, List.mem_map] at hin
          obtain rfl | rfl | rfl | rfl | ⟨i, -, rfl⟩ := hin <;> rfl
        · exact ih hin

theorem sends_played (users : List (Action ι V)) (fuel : ℕ) :
    G.sends 0 (played G planner users fuel) = G.sends 0 users := by
  funext T x
  have hnone : ((run G planner (State.init G 0) users).elim [] (turns G planner fuel)).filterMap
      (Action.sent? T x) = [] := by
    refine List.filterMap_eq_nil_iff.mpr fun action haction => ?_
    cases hrun : run G planner (State.init G 0) users with
    | none => simp [hrun] at haction
    | some s =>
        rw [hrun, Option.elim_some] at haction
        exact sent?_turns haction
  rw [Graph.sends, Graph.sends, played, List.filterMap_append, hnone, List.append_nil]

theorem rankBased_agrees_diamond :
    (oneSendAt diamondOrdered .rankBased).views.map (fun view => view.2 2) = [none, some 515] ∧
      (oneSendAt diamondOrdered .rankBased).views = (oneSendAt diamondOrdered .simple).views := by
  have hlayered : diamondOrdered.Layered := ⟨by decide, by decide, by decide, by decide⟩
  have hmono : ∀ c d, c < d →
      (diamondOrdered.clusterRanks c).value ≤ (diamondOrdered.clusterRanks d).value := by
    intro c d hlt
    have hsmall : ∀ e : ℕ, min e 2 % u64Size = min e 2 := fun e =>
      Nat.mod_eq_of_lt ((min_le_right e 2).trans_lt (by decide))
    change min c 2 % u64Size ≤ min d 2 % u64Size
    rw [hsmall, hsmall]
    lia
  refine ⟨by decide +kernel, rankBased_agrees hlayered (run_oneSendAt (by decide +kernel))
    (fun _ t _ => t.planner.inRankOrder_of_monotone hmono) (run_oneSendAt (by decide +kernel))
    (by decide +kernel) fun T _ => ?_⟩
  rw [sends_played, sends_played]

/-- The merge is started with the map still to come, and is not started again. -/
theorem not_rankBased_agrees_diamond :
    diamondReversed.Layered ∧
      (∀ x, diamondReversed.clusterId x = unmanagedClusterId ↔
        (diamondReversed.primitive x).isSink = true) ∧
      run diamondReversed .rankBased (State.init diamondReversed 0)
        (played diamondReversed .rankBased oneSend 200) = some (oneSendAt diamondReversed .rankBased) ∧
      run diamondReversed .simple (State.init diamondReversed 0)
        (played diamondReversed .simple oneSend 200) = some (oneSendAt diamondReversed .simple) ∧
      (oneSendAt diamondReversed .rankBased).committed = {0, 1} ∧
      (oneSendAt diamondReversed .rankBased).finalized = [0, 1] ∧
      (oneSendAt diamondReversed .simple).finalized = [0, 1] ∧
      diamondReversed.sends 0 (played diamondReversed .rankBased oneSend 200) =
        diamondReversed.sends 0 (played diamondReversed .simple oneSend 200) ∧
      (oneSendAt diamondReversed .rankBased).views.map (fun view => view.2 2) = [none, some 5] ∧
      (oneSendAt diamondReversed .simple).views.map (fun view => view.2 2) = [none, some 515] ∧
      (oneSendAt diamondReversed .rankBased).views ≠ (oneSendAt diamondReversed .simple).views := by
  have hparallel : (oneSendAt diamondReversed .rankBased).views.map (fun view => view.2 2) =
      [none, some 5] := by decide +kernel
  have hsequential : (oneSendAt diamondReversed .simple).views.map (fun view => view.2 2) =
      [none, some 515] := by decide +kernel
  refine ⟨⟨by decide, by decide, by decide, by decide⟩, by decide, run_oneSendAt (by decide +kernel),
    run_oneSendAt (by decide +kernel), by decide +kernel, by decide +kernel, by decide +kernel, ?_,
    hparallel, hsequential, fun heq => ?_⟩
  · rw [sends_played, sends_played]
  · rw [heq, hsequential] at hparallel
    revert hparallel
    decide

end State

end Prf
