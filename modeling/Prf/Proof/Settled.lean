import Prf.Proof.RankOrder
import Prf.Proof.Requests
import Prf.Proof.Visible

/-!
# When a value is settled

A value is settled in a transaction once nothing will be sent to it there any more. Where ranks
increase along the links, and each cluster that is started is of the least rank its transaction has
before it and clear of the older transactions, all that an updater samples is settled when it is
called.
-/

namespace Prf

open Relation

variable {ι V : Type}

def TaskPhase.IsPast (G : Graph ι V) (y : ι) : TaskPhase ι V → Prop
  | queued => False
  | announced => False
  | executing sub => ∀ z ∈ sub.targetsInsideCurrentCluster,
      (G.inClusterRank y).value < (G.inClusterRank z).value
  | _ => True

theorem Graph.Layered.isGlobalCellLoop {G : Graph ι V} (h : G.Layered) (x : ι) :
    (G.primitive x).isGlobalCellLoop = false := by
  have hloop := h.loopFree x
  cases hx : G.primitive x <;> simp_all [Primitive.isLoop, Primitive.isGlobalCellLoop]

theorem Graph.Layered.ranksIncrease {G : Graph ι V} (h : G.Layered) :
    Protocol.RanksIncrease G.clusterRanks G.edge :=
  State.ranksIncrease_of_links h.isGlobalCellLoop h.clusterRank_lt

namespace State

variable {G : Graph ι V} {planner : Planner} {first : ID} {s s' : State ι V} {registered T c : ID}
  {x y : ι}

def Outstanding (s : State ι V) (T c : ID) : Prop :=
  c ∈ (s.inner T).targetClusters ∧ s.phaseOf T c ≠ some .finished

def Held (s : State ι V) (T : ID) : Prop :=
  T < s.oldest ∨ T ∈ s.executor.transactions

/-- Nothing that the transaction has before it can lead to an update of `y`. -/
def Settled (G : Graph ι V) (s : State ι V) (T : ID) (y : ι) : Prop :=
  T < s.oldest ∨ T ∈ s.executor.transactions ∧ ∀ p, s.Outstanding T p →
    Protocol.AtLeast G.clusterRanks (G.clusterId y) p ∧
      (p = G.clusterId y → ∃ phase, s.phaseOf T p = some phase ∧ phase.IsPast G y)

theorem Settled.held (h : s.Settled G T y) : s.Held T :=
  h.imp id And.left

theorem outstanding_abstract {oldest : ID} :
    (s.abstract registered oldest).Outstanding T c ↔ s.Outstanding T c := by
  refine and_congr_right fun _ => not_congr ?_
  simp only [abstract]
  cases s.phaseOf T c with
  | none => simp
  | some phase => cases phase <;> simp [TaskPhase.abstract]

theorem Simulated.outstanding (hsim : Simulated planner G first s registered s.oldest)
    {phase : TaskPhase ι V} (hphase : s.phaseOf T c = some phase) (hunfinished : phase ≠ .finished) :
    s.Outstanding T c := by
  have habstract : (s.abstract registered s.oldest).phase T c = some phase.abstract := by
    simp [abstract, hphase]
  refine ⟨(hsim.inv.core.tasks.phase_key T c _ habstract).1, ?_⟩
  rw [hphase]
  exact fun heq => hunfinished (Option.some.inj heq)

variable [DecidableEq ι]

/-! ## One step -/

theorem Held.step (h : s.Held T) (hsim : Simulated planner G first s registered s.oldest)
    (hstep : Step G planner s s') : s'.Held T := by
  rcases h with hlt | hrun
  · exact .inl (hlt.trans_le hstep.oldest_le)
  · cases hstep
    case handleExecute => exact .inr (Finset.mem_insert_of_mem hrun)
    case finalize T' rest store deliveries hfront hrunning hfinalize =>
      have hT' := hsim.finalize_oldest hfront hrunning
      by_cases heq : T = T'
      · left
        refine lt_of_lt_of_eq (b := s.oldest + 1) ?_ (Eq.symm ?_)
        · exact heq.trans hT' ▸ Nat.lt_succ_self _
        · exact oldest_finalize rfl rfl
      · exact .inr (Finset.mem_erase.mpr ⟨heq, hrun⟩)
    all_goals exact .inr hrun

theorem Simulated.outstanding_step (hsim : Simulated planner G first s registered s.oldest)
    (hstep : Step G planner s s') (hT : s.Held T) (hout : s'.Outstanding T c) :
    s.Outstanding T c ∨ ∃ c', s.Outstanding T c' ∧ G.edge c' c := by
  obtain ⟨registered', oldest', -, hmove⟩ := hsim.follows hstep
  have hout' : (s'.abstract registered' oldest').Outstanding T c := outstanding_abstract.mpr hout
  rcases hmove with hmove | heq
  · exact (hsim.inv.core.outstanding_cases hmove hT hout').imp outstanding_abstract.mp
      fun ⟨c', hc', hedge⟩ => ⟨c', outstanding_abstract.mp hc', hedge⟩
  · rw [heq] at hout'
    exact .inl (outstanding_abstract.mp hout')

theorem isPast_step (h : G.Layered) (hsim : Simulated planner G first s registered s.oldest)
    (hstep : Step G planner s s') {phase : TaskPhase ι V}
    (hphase : s.phaseOf T (G.clusterId y) = some phase) (hpast : phase.IsPast G y) :
    ∃ phase', s'.phaseOf T (G.clusterId y) = some phase' ∧ phase'.IsPast G y := by
  have hwf := hsim.wellFormed
  have hset : ∀ {i : ℕ} {T' c' : ID} {old new : TaskPhase ι V}, s.tasks[i]? = some ⟨T', c', old⟩ →
      s'.tasks = s.tasks.set i ⟨T', c', new⟩ →
      (c' = G.clusterId y → old.IsPast G y → new.IsPast G y) →
      ∃ phase', s'.phaseOf T (G.clusterId y) = some phase' ∧ phase'.IsPast G y := by
    intro i T' c' old new hi htasks hnew
    rw [phaseOf_of_set hwf hi htasks]
    split
    · rename_i heq
      obtain ⟨rfl, rfl⟩ := heq
      obtain rfl := Option.some.inj (hphase.symm.trans (phaseOf_of_getElem? hwf.tasks_nodup hi))
      exact ⟨new, rfl, hnew rfl hpast⟩
    · exact ⟨phase, hphase, hpast⟩
  cases hstep
  case start T' c' rest hfront hrunning hfresh =>
    have hnone := hsim.phaseOf_none_of_fresh hrunning hfresh
    refine ⟨phase, ?_, hpast⟩
    rw [phaseOf_append hnone .queued rfl, if_neg, hphase]
    rintro ⟨rfl, rfl⟩
    rw [hnone] at hphase
    cases hphase
  case announce hi => exact hset hi rfl fun _ hold => hold.elim
  case generate hi => exact hset hi rfl fun _ hold => hold.elim
  case update i T' c' sub sub' r x rest store hi hfront hupdate =>
    refine hset hi rfl fun hc hold z hz => ?_
    have hsub := hwf.sub T' c' sub (phaseOf_of_getElem? hwf.tasks_nodup hi)
    have hx := hsub.wellQueued.mem_inside hfront
    have hcx : G.clusterId x = c' := (hsub.wellQueued.inside x hx).trans hsub.updatingCluster
    rcases Graph.update_cases hupdate with ⟨hooks, -, -, rfl⟩ | ⟨value, hooks, -, -, rfl⟩
    · exact hold z (Finset.mem_of_mem_erase hz)
    · rcases (Graph.mem_inside_send G _ x z value s.store).mp hz with hin | ⟨hlistens, hcz⟩
      · exact hold z (Finset.mem_of_mem_erase hin)
      -- what the popped value requests has a rank above it
      · have hlinked : G.LinkedTo x z := h.linked_of_listens hlistens
        have hcluster : G.clusterId x = G.clusterId z := by
          rw [hcx, hcz]
          exact hsub.updatingCluster.symm
        exact (hold x hx).trans (h.inClusterRank_lt x z hlinked hcluster)
  case collect hi hfront => exact hset hi rfl fun _ _ => trivial
  case buffer hi => exact hset hi rfl fun _ _ => trivial
  case finish hi => exact hset hi rfl fun _ _ => trivial
  all_goals exact ⟨phase, hphase, hpast⟩

theorem Settled.step (h : s.Settled G T y) (hlayered : G.Layered)
    (hsim : Simulated planner G first s registered s.oldest) (hstep : Step G planner s s') :
    s'.Settled G T y := by
  have hheld := h.held.step hsim hstep
  rcases h with hlt | ⟨hrun, hall⟩
  · exact .inl (hlt.trans_le hstep.oldest_le)
  refine hheld.imp id fun hrun' => ⟨hrun', fun p hout => ?_⟩
  rcases hsim.outstanding_step hstep (.inr hrun) hout with hold | ⟨c, hc, hedge⟩
  · obtain ⟨hle, hpast⟩ := hall p hold
    refine ⟨hle, ?_⟩
    rintro rfl
    obtain ⟨phase, hphase, hcome⟩ := hpast rfl
    exact isPast_step hlayered hsim hstep hphase hcome
  · have hlt := (hall c hc).1.trans_lt (hlayered.ranksIncrease c p hedge)
    refine ⟨hlt.le, ?_⟩
    rintro rfl
    exact absurd hlt (lt_irrefl _)

theorem Settled.lastSent_step (h : s.Settled G T y)
    (hsim : Simulated planner G first s registered s.oldest) (hstep : Step G planner s s') :
    lastSent s'.trace T y = lastSent s.trace T y := by
  rcases h with hlt | ⟨hrun, hall⟩
  · exact hsim.lastSent_step hstep hlt y
  cases hstep.writes with
  | nothing hsame => rw [hsame]
  | send hisOpen htrace =>
      rw [htrace, lastSent_topSend, if_neg]
      rintro ⟨rfl, -⟩
      exact (hsim.open_waits hisOpen).1 hrun
  | update hupdates =>
      obtain ⟨c, sub, r, rest, hphase, hfront, -⟩ :=
        hupdates.executing hsim.wellFormed.tasks_nodup
      rw [hupdates.trace_eq, lastSent_updateEvents, if_neg]
      rintro ⟨rfl, rfl⟩
      have hsub := hsim.wellFormed.sub _ _ _ hphase
      have hx := hsub.wellQueued.mem_inside hfront
      have hc := ((hsub.wellQueued.inside _ hx).trans hsub.updatingCluster).symm
      obtain ⟨phase, hphase', hpast⟩ := (hall _ (hsim.outstanding hphase (by simp))).2 hc
      obtain rfl := Option.some.inj (hphase.symm.trans hphase')
      exact lt_irrefl _ (hpast _ hx)
  | finalize _ _ _ htrace => rw [htrace, lastSent_finalize]

omit [DecidableEq ι] in
/-- What is linked to a value is settled when the value is popped, in its transaction and in the older
ones. -/
theorem Simulated.settled_of_front (hsim : Simulated planner G first s registered s.oldest)
    (hlayered : G.Layered)
    (hascending : Protocol.Ascending G.clusterRanks (s.abstract registered s.oldest))
    {sub : InnerTransaction ι V} {r : ℕ} {rest : List (ℕ × ι)}
    (hphase : s.phaseOf T c = some (.executing sub)) (hfront : sub.executor = (r, x) :: rest)
    {T' : ID} (hle : T' ≤ T) (hlinked : G.LinkedTo y x) : s.Settled G T' y := by
  have hsub := hsim.wellFormed.sub T c sub hphase
  have hx := hsub.wellQueued.mem_inside hfront
  have hcx : G.clusterId x = c := (hsub.wellQueued.inside x hx).trans hsub.updatingCluster
  have hstarted : (s.abstract registered s.oldest).phase T c ≠ none := by simp [abstract, hphase]
  have hbelow : G.clusterId y = c ∨
      (G.clusterRanks (G.clusterId y)).value < (G.clusterRanks c).value := by
    by_cases hcluster : G.clusterId y = c
    · exact .inl hcluster
    · exact .inr (hcx ▸ hlayered.clusterRank_lt y x hlinked (hcx ▸ hcluster))
  have hrank : (G.clusterRanks (G.clusterId y)).value ≤ (G.clusterRanks c).value :=
    hbelow.elim (fun heq => heq ▸ le_rfl) le_of_lt
  rcases hle.lt_or_eq with hlt | rfl
  · by_cases hfirst : first ≤ T'
    · have hclear := (hsim.reachable.serial hlayered.ranksIncrease).task T c hstarted T' hfirst hlt
      refine hclear.imp id ?_
      rintro ⟨hrun, hall⟩
      refine ⟨hrun, fun p hout => ?_⟩
      obtain ⟨hclear, hne⟩ := hall p (outstanding_abstract.mpr hout)
      refine ⟨hrank.trans hclear, ?_⟩
      rintro rfl
      exact hbelow.elim (fun heq => (hne heq).elim) fun hlt => absurd hclear (not_le.mpr hlt)
    · have hoverlap : first ≤ s.oldest := hsim.inv.core.queues.first_le
      exact .inl ((not_le.mp hfirst).trans_le hoverlap)
  · refine (hascending.task T' c hstarted).imp id ?_
    rintro ⟨hrun, hall⟩
    refine ⟨hrun, fun p hout => ?_⟩
    have hleast := hall p (outstanding_abstract.mpr hout)
    refine ⟨hrank.trans hleast, ?_⟩
    rintro rfl
    rcases hbelow with heq | hlt
    · refine ⟨_, heq ▸ hphase, fun z hz => ?_⟩
      exact (hlayered.inClusterRank_lt y x hlinked (heq.trans hcx.symm)).trans_le
        (hsub.wellQueued.rank_le_of_mem hfront hz)
    · exact absurd hleast (not_le.mpr hlt)

end State

end Prf
