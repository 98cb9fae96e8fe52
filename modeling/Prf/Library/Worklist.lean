import Mathlib

/-!
# Worklists

A loop that takes an entry off a set, changes a state and puts further entries on the set. It ends
when what an entry may put on the set lies below it in a well-founded order, and where any two
entries can be exchanged its result does not depend on the order in which they are taken.
-/

namespace Worklist

open Relation

section Rewriting

variable {σ : Type*} {r : σ → σ → Prop}

/-- Where a relation terminates and every fork that can be come to can be joined, so can all runs. -/
theorem join_of_locallyJoined (hwf : WellFounded fun b a => r a b) {a b c : σ}
    (hlocal : ∀ s b c, ReflTransGen r a s → r s b → r s c → Join (ReflTransGen r) b c)
    (hab : ReflTransGen r a b) (hac : ReflTransGen r a c) : Join (ReflTransGen r) b c := by
  induction a using hwf.induction generalizing b c with
  | _ a ih =>
      rcases hab.cases_head with rfl | ⟨b₁, hab₁, hb₁b⟩
      · exact ⟨c, hac, .refl⟩
      rcases hac.cases_head with rfl | ⟨c₁, hac₁, hc₁c⟩
      · exact ⟨b, .refl, hab⟩
      obtain ⟨d, hb₁d, hc₁d⟩ := hlocal a b₁ c₁ .refl hab₁ hac₁
      have hlater : ∀ {a₁}, r a a₁ → ∀ s b c, ReflTransGen r a₁ s → r s b → r s c →
          Join (ReflTransGen r) b c := fun h s b c hs => hlocal s b c (hs.head h)
      obtain ⟨e, hbe, hde⟩ := ih b₁ hab₁ (hlater hab₁) hb₁b hb₁d
      obtain ⟨f, hef, hcf⟩ := ih c₁ hac₁ (hlater hac₁) (hc₁d.trans hde) hc₁c
      exact ⟨f, hbe.trans hef, hcf⟩

/-- Two runs that cannot be continued have ended in the same state. -/
theorem eq_of_normal (hwf : WellFounded fun b a => r a b) {a b c : σ}
    (hlocal : ∀ s b c, ReflTransGen r a s → r s b → r s c → Join (ReflTransGen r) b c)
    (hab : ReflTransGen r a b) (hac : ReflTransGen r a c) (hb : ∀ d, ¬ r b d)
    (hc : ∀ d, ¬ r c d) : b = c := by
  obtain ⟨d, hbd, hcd⟩ := join_of_locallyJoined hwf hlocal hab hac
  rcases hbd.cases_head with rfl | ⟨_, h, _⟩
  · rcases hcd.cases_head with rfl | ⟨_, h, _⟩
    · rfl
    · exact absurd h (hc _)
  · exact absurd h (hb _)

end Rewriting

variable {α σ : Type*} [DecidableEq α]

/-- One round: an entry that may be taken is, and what it puts on the list is added. -/
def Step (fire : α → σ → Option (σ × Finset α)) (may : α → σ × Finset α → Prop)
    (s s' : σ × Finset α) : Prop :=
  ∃ x ∈ s.2, may x s ∧ ∃ out, fire x s.1 = some (s'.1, out) ∧ s'.2 = s.2.erase x ∪ out

variable {fire : α → σ → Option (σ × Finset α)} {may : α → σ × Finset α → Prop}
  {feeds : α → α → Prop}

/-- Taking an entry off and adding some that it feeds goes down in the multiset order. -/
theorem cutExpand_erase_union {pending out : Finset α} {x : α} (hx : x ∈ pending)
    (hout : ∀ y ∈ out, feeds x y) :
    CutExpand (fun y x => feeds x y) (pending.erase x ∪ out).val pending.val := by
  refine ⟨(out \ pending.erase x).val, x, fun y hy => hout y ?_, ?_⟩
  · exact (Finset.mem_sdiff.mp (Finset.mem_val.mp hy)).1
  · have hdisj : Disjoint (pending.erase x) (out \ pending.erase x) := Finset.disjoint_sdiff
    have hunion : pending.erase x ∪ out = (pending.erase x).disjUnion (out \ pending.erase x) hdisj := by
      rw [Finset.disjUnion_eq_union, Finset.union_sdiff_self_eq_union]
    have hval : pending.val = (pending.erase x).val + {x} := by
      rw [Finset.erase_val, add_comm, Multiset.singleton_add, Multiset.cons_erase hx]
    rw [hunion, Finset.disjUnion_val, hval]
    abel

/-- A loop whose entries only feed entries below them ends. -/
theorem wellFounded_step (hwf : WellFounded fun y x => feeds x y)
    (hfeeds : ∀ x s s' out, may x s → fire x s.1 = some (s', out) → ∀ y ∈ out, feeds x y) :
    WellFounded fun s' s => Step fire may s s' := by
  refine Subrelation.wf ?_ (InvImage.wf (fun s : σ × Finset α => s.2.val) hwf.cutExpand)
  rintro s' s ⟨x, hx, hmay, out, hfire, hpending⟩
  change CutExpand _ s'.2.val s.2.val
  rw [hpending]
  exact cutExpand_erase_union hx (hfeeds x s _ out hmay hfire)

end Worklist
