import Prf.Proof.Settled

/-!
# A run evaluates what has to be evaluated

A value that has been caused stays requested until it is popped. When it is popped, all it samples is
settled, so the value it sends then is the value it has in that transaction, for good.
-/

namespace Prf

open Relation

variable {ι V : Type} [DecidableEq ι] {G : Graph ι V}

namespace State

variable {planner : Planner} {first : ID} {s s' : State ι V} {registered T c : ID} {x y : ι}

/-! ## Requests come in time -/

omit [DecidableEq ι] in
theorem Simulated.phaseOf_none_of_edge (hsim : Simulated planner G first s registered s.oldest)
    (hlayered : G.Layered)
    (hascending : Protocol.Ascending G.clusterRanks (s.abstract registered s.oldest)) {d : ID}
    {phase : TaskPhase ι V} (hphase : s.phaseOf T c = some phase) (hunfinished : phase ≠ .finished)
    (hedge : G.edge c d) : s.phaseOf T d = none := by
  by_contra hstarted
  have hwithin := hascending.task T d (by simpa [abstract] using hstarted)
  rcases hwithin with hlt | ⟨-, hall⟩
  · exact absurd hlt (not_lt.mpr (hsim.task_bounds hphase hunfinished).2.1)
  · have hle := hall c (outstanding_abstract.mpr (hsim.outstanding hphase hunfinished))
    exact absurd hle (not_le.mpr (hlayered.ranksIncrease c d hedge))

omit [DecidableEq ι] in
/-- A task that registers a request for another cluster comes before that cluster is started. -/
theorem Simulated.inTime (hsim : Simulated planner G first s registered s.oldest)
    (hlayered : G.Layered)
    (hascending : Protocol.Ascending G.clusterRanks (s.abstract registered s.oldest)) (x : ι) :
    s.InTime G x := by
  intro task htask sub hended hin task' htask' hT hcluster
  have hnodup := hsim.wellFormed.tasks_nodup
  have hphase : task.phase = .executing sub := by
    cases hcase : task.phase <;> simp_all [TaskPhase.ended?]
  have hget := phaseOf_of_mem hnodup htask
  rw [hphase] at hget
  have hedge := (hsim.wellFormed.sub _ _ sub hget).edge _ x hin
  have hnone := hsim.phaseOf_none_of_edge hlayered hascending hget (by simp) hedge
  rw [← hT, ← hcluster, phaseOf_of_mem hnodup htask'] at hnone
  cases hnone

/-! ## Sends -/

theorem sent_cases (hstep : Step G planner s s') (T : ID) (x : ι) :
    lastSent s'.trace T x = lastSent s.trace T x ∧ topSent s'.trace T x = topSent s.trace T x ∨
      s.IsOpen T ∧ lastSent s'.trace T x = topSent s'.trace T x ∨ Updates G s s' T x := by
  cases hstep.writes with
  | nothing hsame =>
      rw [hsame]
      exact .inl ⟨rfl, rfl⟩
  | @send T' y value hopen htrace =>
      rw [htrace, lastSent_topSend, topSent_topSend]
      by_cases heq : T' = T ∧ y = x
      · exact .inr (.inl ⟨heq.1 ▸ hopen, by rw [if_pos heq, if_pos heq]⟩)
      · exact .inl ⟨if_neg heq, if_neg heq⟩
  | @update T' y hupdates =>
      by_cases heq : T' = T ∧ y = x
      · obtain ⟨rfl, rfl⟩ := heq
        exact .inr (.inr hupdates)
      · rw [hupdates.trace_eq, lastSent_updateEvents, topSent_updateEvents, if_neg heq]
        exact .inl ⟨rfl, rfl⟩
  | finalize _ _ _ htrace =>
      rw [htrace, lastSent_finalize, topSent_finalize]
      exact .inl ⟨rfl, rfl⟩

theorem caused_cases (hsim : Simulated planner G first s registered s.oldest) (hvalues : Stored G s)
    (hlayered : G.Layered) (hstep : Step G planner s s') (h : s'.Caused G T x) :
    s.Caused G T x ∨ s'.Requested G x T := by
  obtain ⟨y, hlistens, hsent⟩ := h
  have hcluster : G.clusterId x ≠ unmanagedClusterId := by
    intro heq
    have hsink := hlayered.sink x heq
    cases hx : G.primitive x <;>
      simp_all [Primitive.isSink, Primitive.listens, Primitive.listenTo, Primitive.listenOverLoop,
        Primitive.globalListen]
  rcases requested_of_sent hlistens (fun _ => hcluster) hsim hvalues hstep T with hsame | hrequested
  · exact .inl ⟨y, hlistens, hsame ▸ hsent⟩
  · exact .inr hrequested

/-! ## Values -/

/-- No updater of `x` has run in `T`; where one has to, a request for it is on its way. -/
def Unevaluated (G : Graph ι V) (s : State ι V) (T : ID) (x : ι) : Prop :=
  lastSent s.trace T x = topSent s.trace T x ∧ (s.Caused G T x → s.Requested G x T)

/-- The value `x` has in `T` has been sent, and nothing it depends on is going to change. -/
structure Evaluated (G : Graph ι V) (s : State ι V) (T : ID) (x : ι) : Prop where
  caused : s.Caused G T x
  settled : ∀ T' ≤ T, ∀ y, G.LinkedTo y x → s.Settled G T' y
  lastSent_eq : lastSent s.trace T x =
    ((G.primitive x).meaning (shown G s.trace T)).or (topSent s.trace T x)

theorem meaning_step (hlayered : G.Layered)
    (hsim : Simulated planner G first s registered s.oldest) (hstep : Step G planner s s')
    (hsettled : ∀ T' ≤ T, ∀ y, G.LinkedTo y x → s.Settled G T' y) :
    (G.primitive x).meaning (shown G s'.trace T) = (G.primitive x).meaning (shown G s.trace T) := by
  refine Primitive.meaning_congr fun y hy => shown_congr fun k hk => ?_
  exact (hsettled k hk y (Graph.linkedTo_of_reads hlayered.loopFree hy)).lastSent_step hsim hstep

theorem Updates.evaluated (h : Updates G s s' T x) (hreach : Reached planner G first s)
    (hsim : Simulated planner G first s registered s.oldest) (hlayered : G.Layered)
    (hascending : Protocol.Ascending G.clusterRanks (s.abstract registered s.oldest))
    (hstep : Step G planner s s')
    (hbefore : lastSent s.trace T x = topSent s.trace T x ∨
      lastSent s.trace T x =
        ((G.primitive x).meaning (shown G s.trace T)).or (topSent s.trace T x)) :
    s'.Evaluated G T x := by
  have htrace := h.trace_eq
  obtain ⟨c, sub, r, rest, hphase, hfront, result, hupdate⟩ :=
    h.executing hsim.wellFormed.tasks_nodup
  have hsub := hsim.wellFormed.sub T c sub hphase
  have hsettled : ∀ T' ≤ T, ∀ y, G.LinkedTo y x → s.Settled G T' y :=
    fun T' hle y hlinked => hsim.settled_of_front hlayered hascending hphase hfront hle hlinked
  have hcaused : s.Caused G T x :=
    hreach.requests.working T c _ hphase sub rfl x (.inr (hsub.wellQueued.mem_inside hfront))
  -- the updater computes the meaning of what the trace shows
  have hupdated : updated G s.store T x = (G.primitive x).meaning (shown G s.trace T) := by
    have hle : s.oldest ≤ T := (hsim.task_bounds hphase (by simp)).2.1
    rw [← hreach.recorded.values.sample_eq_shown hlayered.isGlobalCellLoop hle]
    have hid : (sub.pop x rest).id = T := hsub.id
    rcases Graph.update_cases hupdate with ⟨hooks, hupd, -, -⟩ | ⟨value, hooks, hupd, -, -⟩
    all_goals
      rw [hid] at hupd
      rw [updated, hupd]
      exact Primitive.meaning_of_updater hupd
  refine ⟨hstep.caused_mono hcaused, fun T' hle y hlinked => ?_, ?_⟩
  · exact (hsettled T' hle y hlinked).step hlayered hsim hstep
  · rw [meaning_step hlayered hsim hstep hsettled, htrace, lastSent_updateEvents, topSent_updateEvents,
      if_pos ⟨rfl, rfl⟩, hupdated]
    rcases hbefore with heq | heq
    · rw [heq]
    · rw [heq, ← Option.or_assoc, Option.or_self]

def Progressed (G : Graph ι V) (s : State ι V) : Prop :=
  ∀ T x, s.Unevaluated G T x ∨ s.Evaluated G T x

theorem Unevaluated.step (h : s.Unevaluated G T x) (hreach : Reached planner G first s)
    (hsim : Simulated planner G first s registered s.oldest) (hlayered : G.Layered)
    (hascending : Protocol.Ascending G.clusterRanks (s.abstract registered s.oldest))
    (hstep : Step G planner s s') : s'.Unevaluated G T x ∨ s'.Evaluated G T x := by
  obtain ⟨hlast, hrequested⟩ := h
  by_cases hupdates : Updates G s s' T x
  · exact .inr (hupdates.evaluated hreach hsim hlayered hascending hstep (.inl hlast))
  refine .inl ⟨?_, fun hcaused => ?_⟩
  · obtain ⟨hsame, htop⟩ | ⟨-, heq⟩ | hupd := sent_cases hstep T x
    · rw [hsame, hlast, htop]
    · exact heq
    · exact absurd hupd hupdates
  · have hvalues := hreach.recorded.values
    rcases caused_cases hsim hvalues hlayered hstep hcaused with hold | hnew
    · have hintime := hsim.inTime hlayered hascending x
      exact ((hrequested hold).step hreach.requests hintime hsim hvalues hstep).resolve_right hupdates
    · exact hnew

theorem Evaluated.step (h : s.Evaluated G T x) (hreach : Reached planner G first s)
    (hsim : Simulated planner G first s registered s.oldest) (hlayered : G.Layered)
    (hascending : Protocol.Ascending G.clusterRanks (s.abstract registered s.oldest))
    (hstep : Step G planner s s') : s'.Evaluated G T x := by
  obtain ⟨hcaused, hsettled, hlast⟩ := h
  obtain ⟨hsame, htop⟩ | ⟨hopen, -⟩ | hupdates := sent_cases hstep T x
  · refine ⟨hstep.caused_mono hcaused, fun T' hle y hlinked => ?_, ?_⟩
    · exact (hsettled T' hle y hlinked).step hlayered hsim hstep
    · rw [meaning_step hlayered hsim hstep hsettled, hsame, htop, hlast]
  -- a transaction in which something has been popped is not open
  · obtain ⟨y, hlistens, -⟩ := hcaused
    obtain ⟨hwaits, hle⟩ := hsim.open_waits hopen
    rcases (hsettled T le_rfl y (hlayered.linked_of_listens hlistens)).held with hlt | hrun
    · exact absurd hle (not_le.mpr hlt)
    · exact absurd hrun hwaits
  · exact hupdates.evaluated hreach hsim hlayered hascending hstep (.inr hlast)

theorem progressed_init : Progressed G (State.init G first) := by
  intro T x
  refine .inl ⟨rfl, ?_⟩
  rintro ⟨y, -, hsent⟩
  exact (hsent rfl).elim

theorem Progressed.step (h : Progressed G s) (hreach : Reached planner G first s)
    (hsim : Simulated planner G first s registered s.oldest) (hlayered : G.Layered)
    (hascending : Protocol.Ascending G.clusterRanks (s.abstract registered s.oldest))
    (hstep : Step G planner s s') : Progressed G s' := by
  intro T x
  rcases h T x with hunevaluated | hevaluated
  · exact hunevaluated.step hreach hsim hlayered hascending hstep
  · exact .inr (hevaluated.step hreach hsim hlayered hascending hstep)

/-- When a transaction is finalised, every value has sent what it has to. -/
theorem Progressed.sent_eq (h : Progressed G s)
    (hsim : Simulated planner G first s registered s.oldest) {rest : List ExecutorMessage}
    (hfront : s.executorMessages = .finalizeTransaction s.oldest :: rest) (x : ι) :
    lastSent s.trace s.oldest x =
      G.sentBy (lastBefore s.trace s.oldest) (topSent s.trace s.oldest)
        (lastSent s.trace s.oldest) x := by
  have hiff : (∃ y ∈ (G.primitive x).listens, (lastSent s.trace s.oldest y).isSome) ↔
      s.Caused G s.oldest x := by
    simp only [Caused, Option.isSome_iff_ne_none]
  rw [Graph.sentBy]
  rcases h s.oldest x with ⟨hlast, hrequested⟩ | ⟨hcaused, -, hlast⟩
  · rw [if_neg fun hsent => hsim.not_requested hfront x (hrequested (hiff.mp hsent)), hlast]
  · rw [if_pos (hiff.mpr hcaused), hlast]
    rfl

end State

end Prf
