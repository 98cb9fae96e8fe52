import Prf.Evaluation
import Prf.Proof.Delivery

/-!
# What the trace shows

What has been sent decides what is visible: at a transaction that is not finalised yet, `sample`
returns what the sends up to it leave, whatever the finalisation of older transactions has removed.
-/

namespace Prf

open Relation

variable {ι V : Type} [DecidableEq ι] {G : Graph ι V}

def Event.topSent? (T : ID) (x : ι) : Event ι V → Option V
  | topSend T' x' value => if T' = T ∧ x' = x then some value else none
  | _ => none

def topSent (trace : List (Event ι V)) (T : ID) (x : ι) : Option V :=
  (trace.filterMap (Event.topSent? T x)).getLast?

theorem topSent_topSend (trace : List (Event ι V)) (T T' : ID) (x y : ι) (value : V) :
    topSent (trace ++ [.topSend T x value]) T' y =
      if T = T' ∧ x = y then some value else topSent trace T' y := by
  calc topSent (trace ++ [Event.topSend T x value]) T' y
      = (Event.topSent? T' y (.topSend T x value)).or (topSent trace T' y) :=
        Log.last_concat (Event.topSent? T' y) trace (.topSend T x value)
    _ = if T = T' ∧ x = y then some value else topSent trace T' y := by
      rw [Event.topSent?]
      split <;> simp

theorem topSent_updateEvents (trace : List (Event ι V)) (store : Store ι V) (T T' : ID) (x y : ι) :
    topSent (trace ++ State.updateEvents G store T x) T' y = topSent trace T' y := by
  apply Log.last_append_silent
  intro event hevent
  obtain rfl | ⟨value, rfl⟩ := State.mem_updateEvents hevent <;> rfl

theorem topSent_finalize (trace : List (Event ι V)) (T : ID) (deliveries : List (Delivery ι V))
    (view : ι → Option V) (T' : ID) (x : ι) :
    topSent (trace ++ deliveries.map (.deliver T) ++ [.finalize T view]) T' x =
      topSent trace T' x := by
  rw [List.append_assoc]
  apply Log.last_append_silent
  intro event hevent
  obtain ⟨delivery, rfl⟩ | rfl := State.mem_finalizeEvents hevent <;> rfl

/-! ## What is left of the sends -/

def lastBefore (trace : List (Event ι V)) : ID → ι → Option V
  | 0, _ => none
  | T + 1, x => (lastSent trace T x).or (lastBefore trace T x)

/-- What is visible at `T`. -/
def shown (G : Graph ι V) (trace : List (Event ι V)) (T : ID) : ι → Option V :=
  G.visible (lastBefore trace T) (lastSent trace T)

variable {trace trace' : List (Event ι V)} {T : ID} {x : ι}

theorem lastBefore_congr (h : ∀ k < T, lastSent trace k x = lastSent trace' k x) :
    lastBefore trace T x = lastBefore trace' T x := by
  induction T with
  | zero => rfl
  | succ T ih =>
      have hbefore := ih fun k hk => h k (Nat.lt_succ_of_lt hk)
      rw [lastBefore, lastBefore, h T (Nat.lt_succ_self T), hbefore]

theorem shown_congr (h : ∀ k ≤ T, lastSent trace k x = lastSent trace' k x) :
    shown G trace T x = shown G trace' T x := by
  have hbefore : lastBefore trace T x = lastBefore trace' T x :=
    lastBefore_congr fun k hk => h k hk.le
  rw [shown, shown, Graph.visible, Graph.visible, h T le_rfl, hbefore]

theorem lastBefore_eq_some_iff {value : V} :
    lastBefore trace T x = some value ↔
      ∃ k < T, lastSent trace k x = some value ∧
        ∀ k', k < k' → k' < T → lastSent trace k' x = none := by
  induction T with
  | zero => simp [lastBefore]
  | succ T ih =>
      rw [lastBefore]
      cases hsent : lastSent trace T x with
      | some w =>
          rw [Option.some_or]
          constructor
          · intro heq
            refine ⟨T, Nat.lt_succ_self T, hsent.trans heq, fun k' hlt hle => ?_⟩
            exact absurd hlt (not_lt.mpr (Nat.le_of_lt_succ hle))
          · rintro ⟨k, hk, hvalue, hlater⟩
            rcases Nat.lt_succ_iff_lt_or_eq.mp hk with hlt | rfl
            · rw [hlater T hlt (Nat.lt_succ_self T)] at hsent
              cases hsent
            · rw [← hvalue, hsent]
      | none =>
          rw [Option.none_or, ih]
          constructor
          · rintro ⟨k, hk, hvalue, hlater⟩
            refine ⟨k, Nat.lt_succ_of_lt hk, hvalue, fun k' hlt hle => ?_⟩
            rcases Nat.lt_succ_iff_lt_or_eq.mp hle with hlt' | rfl
            · exact hlater k' hlt hlt'
            · exact hsent
          · rintro ⟨k, hk, hvalue, hlater⟩
            rcases Nat.lt_succ_iff_lt_or_eq.mp hk with hlt | rfl
            · exact ⟨k, hlt, hvalue, fun k' hlt' hle => hlater k' hlt' (Nat.lt_succ_of_lt hle)⟩
            · rw [hsent] at hvalue
              cases hvalue

namespace State

variable {planner : Planner} {first : ID} {s s' : State ι V} {registered : ID}

theorem Stored.floor?_eq (h : Stored G s) (hx : (G.primitive x).isGlobalCellLoop = false)
    (hcell : (G.primitive x).isCell = true) (hle : s.oldest ≤ T) :
    OrderedMap.floor? (s.store x) T = lastBefore s.trace (T + 1) x := by
  have hsent : ∀ k value, (s.store x)[k]? = some value → lastSent s.trace k x = some value :=
    fun k value => h.stored x k value hx
  apply Option.ext
  intro value
  rw [OrderedMap.floor?_eq_some_iff, lastBefore_eq_some_iff]
  constructor
  · rintro ⟨k, hk, hvalue, hlater⟩
    refine ⟨k, Nat.lt_succ_of_le hk, hsent k value hvalue, fun k' hlt hle' => ?_⟩
    by_contra hsome
    obtain ⟨w, hw⟩ := Option.ne_none_iff_exists'.mp hsome
    rcases h.kept x k' w hw with hstored | ⟨-, hlast⟩
    · rw [hlater k' hlt (Nat.le_of_lt_succ hle')] at hstored
      cases hstored
    -- a value that has been removed has a later one before the oldest transaction
    · obtain ⟨T', hin, hlt', hold⟩ := hlast hcell
      rw [Std.ExtTreeMap.mem_iff_isSome_getElem?, hlater T' (hlt.trans hlt') (hold.le.trans hle)]
        at hin
      cases hin
  · rintro ⟨k, hk, hvalue, hlater⟩
    have hnone : ∀ k', k < k' → k' ≤ T → (s.store x)[k']? = none := by
      intro k' hlt hle'
      by_contra hsome
      obtain ⟨w, hw⟩ := Option.ne_none_iff_exists'.mp hsome
      have hlast := hsent k' w hw
      rw [hlater k' hlt (Nat.lt_succ_of_le hle')] at hlast
      cases hlast
    refine ⟨k, Nat.le_of_lt_succ hk, ?_, hnone⟩
    rcases h.kept x k value hvalue with hstored | ⟨-, hlast⟩
    · exact hstored
    · obtain ⟨T', hin, hlt', hold⟩ := hlast hcell
      rw [Std.ExtTreeMap.mem_iff_isSome_getElem?, hnone T' hlt' (hold.le.trans hle)] at hin
      cases hin

/-- What a transaction that is not finalised samples is what the trace shows. -/
theorem Stored.sample_eq_shown (h : Stored G s)
    (hglobal : ∀ x, (G.primitive x).isGlobalCellLoop = false) (hle : s.oldest ≤ T) :
    G.sample s.store T = shown G s.trace T := by
  funext x
  rw [Graph.sample, shown, Graph.visible]
  split
  · rename_i hcell
    exact h.floor?_eq (hglobal x) hcell hle
  · apply Option.ext
    intro value
    constructor
    · exact h.stored x T value (hglobal x)
    · exact fun hvalue => h.getElem?_of_sent hle hvalue

theorem Reached.lastSent_none (h : Reached planner G first s) (hT : T < first) (x : ι) :
    lastSent s.trace T x = none := by
  induction h with
  | refl => rfl
  | tail hreach hstep ih =>
      obtain ⟨registered, hsim⟩ := Reached.simulated hreach
      have hfirst : first ≤ _ := hsim.inv.core.queues.first_le
      rw [hsim.lastSent_step hstep (hT.trans_le hfirst), ih]

theorem Simulated.topSent_step (hsim : Simulated planner G first s registered s.oldest)
    (hstep : Step G planner s s') (hT : T < s.oldest ∨ T ∈ s.executor.transactions) (x : ι) :
    topSent s'.trace T x = topSent s.trace T x := by
  cases hstep.writes with
  | nothing hsame => rw [hsame]
  | send hisOpen htrace =>
      rw [htrace, topSent_topSend, if_neg]
      rintro ⟨rfl, -⟩
      obtain ⟨hwaits, hle⟩ := hsim.open_waits hisOpen
      exact hT.elim (fun hlt => absurd hle (not_le.mpr hlt)) hwaits
  | update hupdates => rw [hupdates.trace_eq, topSent_updateEvents]
  | finalize _ _ _ htrace => rw [htrace, topSent_finalize]

end State

end Prf
