import Prf.Proof.Ties
import Prf.Build

/-!
# The order of the addresses

What a sub-transaction computes does not depend on where the values are in memory, as long as no
order of two values of one rank matters.
-/

namespace Prf

namespace Graph

variable {ι V : Type}

variable [DecidableEq ι] {G : Graph ι V} {c T : ID}

/-! ### Targets of other clusters -/

section Collect

variable {t₀ : InnerTransaction ι V} {p p' : Store ι V × InnerTransaction ι V}

structure Collected (G : Graph ι V) (t₀ : InnerTransaction ι V)
    (p : Store ι V × InnerTransaction ι V) : Prop where
  targets : ∀ d y, y ∈ p.2.targetsOf d ↔ y ∈ t₀.targetsOf d ∨
    ∃ x ∈ p.2.cleanups, x ∈ (G.primitive y).listens ∧ G.clusterId y = d ∧
      d ≠ p.2.updatingCluster
  keys : ∀ d, d ∈ p.2.targetsOutsideCurrentCluster ↔ d ∈ t₀.targetsOutsideCurrentCluster ∨
    d ≠ p.2.updatingCluster ∧ ∃ x ∈ p.2.cleanups, ∃ y, x ∈ (G.primitive y).listens ∧
      G.clusterId y = d

theorem Collected.of_pops (h : G.Collected t₀ p) (hpop : G.Pops p p') : G.Collected t₀ p' := by
  obtain ⟨r, x, rest, hexec, hupd⟩ := hpop
  rcases update_cases hupd with ⟨hooks, -, -, ht⟩ | ⟨v, hooks, -, -, ht⟩
  · constructor <;> rw [ht]
    · exact h.targets
    · exact h.keys
  · constructor
    · intro d y
      rw [ht, mem_targetsOf_send, send_cleanups, send_updatingCluster]
      have htargets := h.targets d y
      simp only [withHooks, InnerTransaction.targetsOf, InnerTransaction.pop, Finset.mem_insert,
        exists_eq_or_imp] at htargets ⊢
      rw [htargets]
      exact or_assoc.trans (or_congr_right or_comm)
    · intro d
      rw [ht, mem_keys_send, send_cleanups, send_updatingCluster]
      have hkeys := h.keys d
      simp only [withHooks, InnerTransaction.pop, Finset.mem_insert, exists_eq_or_imp] at hkeys ⊢
      rw [hkeys, or_assoc, ← and_or_left]
      exact or_congr_right (and_congr_right fun _ => or_comm)

theorem Collected.of_reach (h : G.Collected t₀ p) (hreach : Relation.ReflTransGen G.Pops p p') :
    G.Collected t₀ p' := by
  induction hreach with
  | refl => exact h
  | tail _ hpop ih => exact ih.of_pops hpop

end Collect

section TwoOrders

variable {store : Store ι V} {t : InnerTransaction ι V} {p : Store ι V × InnerTransaction ι V}

theorem fields_of_reach
    (hreach : Relation.ReflTransGen G.Pops (store, (G.generateSubTransaction t c).2) p) :
    G.WellQueued p.2 ∧ p.2.id = t.id ∧ p.2.updatingCluster = c := by
  induction hreach with
  | refl =>
      obtain ⟨hid, hupdating, -, -⟩ := G.generateSubTransaction_snd_fields t c
      exact ⟨G.wellQueued_generateSubTransaction t c, hid, hupdating⟩
  | tail _ hpop ih =>
      exact ⟨hpop.wellQueued ih.1, hpop.id_eq.trans ih.2.1, hpop.updatingCluster_eq.trans ih.2.2⟩

/-- Popping by address is one way to pop by rank. -/
theorem rankRounds_of_reach
    (hreach : Relation.ReflTransGen G.Pops (store, (G.generateSubTransaction t c).2) p) :
    Relation.ReflTransGen (G.RankRound c t.id)
      (sheet (store, (G.generateSubTransaction t c).2)) (sheet p) := by
  induction hreach with
  | refl => exact .refl
  | @tail q q' hreach hpop ih =>
      obtain ⟨hq, hid, hupdating⟩ := fields_of_reach hreach
      refine ih.tail ?_
      rw [← hid, ← hupdating]
      refine hpop.step hq _ fun r x rest hexec => ?_
      exact ⟨hq.inside x (hq.mem_inside hexec), fun y hy => hq.rank_le_of_mem hexec hy⟩

theorem RunsSettled.exists_end (hacyclic : G.ListensAcyclic c)
    (h : G.RunsSettled c t.id (sheet (store, (G.generateSubTransaction t c).2))) :
    ∃ p, Relation.ReflTransGen G.Pops (store, (G.generateSubTransaction t c).2) p ∧
      p.2.executor = [] := by
  obtain ⟨-, hupdating, -, -⟩ := G.generateSubTransaction_snd_fields t c
  obtain ⟨p, hreach, hnil, -⟩ := exists_pops_end (s := (store, (G.generateSubTransaction t c).2))
    (P := Relation.ReflTransGen G.Pops (store, (G.generateSubTransaction t c).2)) hacyclic
    (fun p r x rest hreach hexec => by
      obtain ⟨hq, hid, hupdating⟩ := fields_of_reach hreach
      obtain ⟨sent, hooks, hsent⟩ := (h _ (rankRounds_of_reach hreach)).1 x (hq.mem_inside hexec)
        ⟨(hq.inside x (hq.mem_inside hexec)).trans hupdating,
          fun y hy => hq.rank_le_of_mem hexec hy⟩
      have hpop : (p.2.pop x rest).id = p.2.id := pop_id
      rw [← hid, ← hpop] at hsent
      cases sent with
      | none =>
          have hupd : G.update x p.1 (p.2.pop x rest) =
              .ok (p.1, withHooks (p.2.pop x rest) hooks) := update_of_none hsent
          exact ⟨(p.1, withHooks (p.2.pop x rest) hooks), hupd,
            hreach.tail ⟨r, x, rest, hexec, hupd⟩⟩
      | some v =>
          have hupd : G.update x p.1 (p.2.pop x rest) =
              .ok (G.send x v p.1 (withHooks (p.2.pop x rest) hooks)) := update_of_some hsent
          exact ⟨G.send x v p.1 (withHooks (p.2.pop x rest) hooks), hupd,
            hreach.tail ⟨r, x, rest, hexec, hupd⟩⟩)
    (G.wellQueued_generateSubTransaction t c) hupdating .refl
  exact ⟨p, hreach, hnil⟩

def Fed (G : Graph ι V) (T : ID) (s : Sheet ι V) : Prop :=
  ∀ x ∈ s.2, ∃ y ∈ (G.primitive x).listens, G.sample s.1.1 T y ≠ none

theorem Fed.of_reach {s s' : Sheet ι V} (h : G.Fed T s)
    (hreach : Relation.ReflTransGen (G.RankRound c T) s s') : G.Fed T s' := by
  induction hreach with
  | refl => exact h
  | tail _ hround ih =>
      obtain ⟨x, hx, -, sent, hsent, rfl⟩ := step_iff.mp hround
      intro q hq
      cases sent with
      | none =>
          rw [mem_take] at hq
          exact ih q (hq.resolve_right fun hno => hno.1 rfl).2
      | some v =>
          rw [sample_take]
          rcases mem_take.mp hq with ⟨-, hq⟩ | ⟨-, hq⟩
          · obtain ⟨y, hy, hval⟩ := ih q hq
            refine ⟨y, hy, ?_⟩
            by_cases hyx : y = x
            · simp [hyx]
            · simpa [Function.update_of_ne hyx] using hval
          · exact ⟨x, (mem_listnersIn.mp hq).1, by simp⟩

end TwoOrders

end Graph

end Prf
