import Prf.UserThread

/-!
# One user thread

At most one of the `Transaction` objects of a thread keeps a transaction, and that one is the
`current_transaction` of the thread, or it is being waited for. What a thread knows about its
transaction and its handlers is not touched by the steps of the others.
-/

namespace Prf

variable {θ ι V : Type}

namespace UserThread

def Commits (T : ID) : UserPoint ι V → Prop
  | .initializes T' => T' = T
  | .destructs _ T' => T' = T
  | _ => False

def Inside : UserPoint ι V → Prop
  | .free => False
  | .joins _ => False
  | .drops _ _ => False
  | _ => True

def Watches (u : UserThread ι V) (T : ID) : Prop :=
  u.currentTransaction = some T ∨ some T ∈ u.handlers

structure WellFormed (s : State ι V) (u : UserThread ι V) : Prop where
  bounds : ∀ T, u.currentTransaction = some T → s.buildTransaction ≤ T ∧ T < s.nextTransactionId
  committed : ∀ T, u.currentTransaction = some T → (T ∈ s.committed ↔ Commits T u.point)
  inside : Inside u.point → u.currentTransaction ≠ none
  objects : ∀ T, some T ∈ u.transactions → u.currentTransaction = some T
  unique : u.transactions.countP Option.isSome ≤ 1
  destructs : ∀ index T, u.point = .destructs index T → u.transactions[index]? = some (some T)
  initializes : ∀ T, u.point = .initializes T →
    u.currentTransaction = some T ∧ u.transactions = []
  sends : (∃ x value, u.point = .sends x value) ∨ u.point = .sent →
    ∃ T, u.transactions.getLast? = some (some T)
  drops : ∀ index T, u.point = .drops index T → u.handlers[index]? = some (some T)
  handlers : ∀ T, some T ∈ u.handlers → T ∈ s.committed
  awaits : ∀ T, u.point.awaits = some T → T ∈ s.committed

variable {s s' : State ι V} {u : UserThread ι V} {index : ℕ} {T : ID}

theorem WellFormed.mono (h : u.WellFormed s) (hbuild : s'.buildTransaction = s.buildTransaction)
    (hnext : s.nextTransactionId ≤ s'.nextTransactionId) (hcommitted : s.committed ⊆ s'.committed)
    (hmine : ∀ T, u.currentTransaction = some T → T ∈ s'.committed → T ∈ s.committed) :
    u.WellFormed s' where
  bounds := fun T hT => ⟨hbuild ▸ (h.bounds T hT).1, (h.bounds T hT).2.trans_le hnext⟩
  committed := fun T hT =>
    ⟨fun hin => (h.committed T hT).mp (hmine T hT hin),
      fun hpoint => hcommitted ((h.committed T hT).mpr hpoint)⟩
  inside := h.inside
  objects := h.objects
  unique := h.unique
  destructs := h.destructs
  initializes := h.initializes
  sends := h.sends
  drops := h.drops
  handlers := fun T hT => hcommitted (h.handlers T hT)
  awaits := fun T hT => hcommitted (h.awaits T hT)

theorem WellFormed.none_left (h : u.WellFormed s) (hindex : u.transactions[index]? = some (some T))
    (T' : ID) : some T' ∉ u.transactions.eraseIdx index := by
  obtain ⟨hlt, hget⟩ := List.getElem?_eq_some_iff.mp hindex
  have hcount := (List.getElem_cons_eraseIdx_perm hlt).countP_eq Option.isSome
  have hunique := h.unique
  rw [hget, List.countP_cons_of_pos (by rfl)] at hcount
  have hzero : (u.transactions.eraseIdx index).countP Option.isSome = 0 := by lia
  intro hin
  exact absurd (List.countP_eq_zero.mp hzero _ hin) (by simp)

/-! ## What one thread does -/

theorem WellFormed.constructed (h : u.WellFormed s) (hnone : u.currentTransaction = none)
    (hlater : s'.buildTransaction = s.buildTransaction ∧ s'.committed = s.committed ∧
      s'.nextTransactionId = s.nextTransactionId + 1)
    (hbuild : s.buildTransaction ≤ s.nextTransactionId) (hnew : s.nextTransactionId ∉ s.committed)
    {point : UserPoint ι V} (hpoint : point = .free ∨ ∃ x value, point = .sends x value) :
    WellFormed s' { u.constructed s.nextTransactionId with point := point } where
  bounds := by
    rintro T hT
    obtain rfl := Option.some.inj hT
    rw [hlater.1, hlater.2.2]
    exact ⟨hbuild, Nat.lt_succ_self _⟩
  committed := by
    rintro T hT
    obtain rfl := Option.some.inj hT
    rw [hlater.2.1]
    rcases hpoint with rfl | ⟨x, value, rfl⟩ <;> simpa [Commits] using hnew
  inside := by simp [UserThread.constructed]
  objects := by
    intro T hT
    rcases List.mem_append.mp hT with hin | hin
    · have hcurrent := h.objects T hin
      rw [hnone] at hcurrent
      cases hcurrent
    · exact (List.mem_singleton.mp hin).symm
  unique := by
    have hzero : u.transactions.countP Option.isSome = 0 := by
      refine List.countP_eq_zero.mpr fun inner hin hsome => ?_
      obtain ⟨T, rfl⟩ := Option.isSome_iff_exists.mp hsome
      have hcurrent := h.objects T hin
      rw [hnone] at hcurrent
      cases hcurrent
    simp [UserThread.constructed, hzero]
  destructs := by rcases hpoint with rfl | ⟨x, value, rfl⟩ <;> simp
  initializes := by rcases hpoint with rfl | ⟨x, value, rfl⟩ <;> simp
  sends := fun _ => ⟨s.nextTransactionId, by simp [UserThread.constructed]⟩
  drops := by rcases hpoint with rfl | ⟨x, value, rfl⟩ <;> simp
  handlers := fun T hT => hlater.2.1 ▸ h.handlers T hT
  awaits := by rcases hpoint with rfl | ⟨x, value, rfl⟩ <;> simp [UserPoint.awaits]

theorem WellFormed.withHandlers (h : u.WellFormed s) {handlers : List (Option ID)}
    (hhandlers : ∀ T, some T ∈ handlers → T ∈ s.committed)
    (hdrops : ∀ index T, u.point = .drops index T → handlers[index]? = some (some T)) :
    WellFormed s { u with handlers := handlers } where
  bounds := h.bounds
  committed := h.committed
  inside := h.inside
  objects := h.objects
  unique := h.unique
  destructs := h.destructs
  initializes := h.initializes
  sends := h.sends
  drops := hdrops
  handlers := hhandlers
  awaits := h.awaits

theorem WellFormed.waits (h : u.WellFormed s) (hfree : u.point = .free) {point : UserPoint ι V}
    (hindex : u.handlers[index]? = some (some T))
    (hpoint : point = .joins T ∨ point = .drops index T) :
    WellFormed s { u with point := point } where
  bounds := h.bounds
  committed := by
    intro T' hT'
    have hcommitted := h.committed T' hT'
    rw [hfree] at hcommitted
    rcases hpoint with rfl | rfl <;> exact hcommitted
  inside := by rcases hpoint with rfl | rfl <;> exact fun h => h.elim
  objects := h.objects
  unique := h.unique
  destructs := by rcases hpoint with rfl | rfl <;> simp
  initializes := by rcases hpoint with rfl | rfl <;> simp
  sends := by rcases hpoint with rfl | rfl <;> simp
  drops := by
    rcases hpoint with rfl | rfl
    · simp
    · rintro index' T' heq
      obtain ⟨rfl, rfl⟩ := UserPoint.drops.inj heq
      exact hindex
  handlers := h.handlers
  awaits := by
    have hT := h.handlers T (List.mem_of_getElem? hindex)
    rcases hpoint with rfl | rfl <;> exact fun T' heq => Option.some.inj heq ▸ hT

theorem WellFormed.commits (h : u.WellFormed s) (hcurrent : u.currentTransaction = some T)
    (hlater : s'.buildTransaction = s.buildTransaction ∧
      s'.nextTransactionId = s.nextTransactionId ∧ s'.committed = insert T s.committed)
    {point : UserPoint ι V}
    (hpoint : point = .initializes T ∧ u.transactions = [] ∨
      ∃ index, u.transactions[index]? = some (some T) ∧ point = .destructs index T) :
    WellFormed s' { u with point := point } where
  bounds := fun T' hT' => by
    rw [hlater.1, hlater.2.1]
    exact h.bounds T' hT'
  committed := by
    intro T' hT'
    obtain rfl := Option.some.inj (hcurrent.symm.trans hT')
    rw [hlater.2.2]
    rcases hpoint with ⟨rfl, -⟩ | ⟨index, -, rfl⟩ <;> simp [Commits]
  inside := fun _ => by simp [hcurrent]
  objects := h.objects
  unique := h.unique
  destructs := by
    rcases hpoint with ⟨rfl, -⟩ | ⟨index, hindex, rfl⟩
    · simp
    · rintro index' T' heq
      obtain ⟨rfl, rfl⟩ := UserPoint.destructs.inj heq
      exact hindex
  initializes := by
    rcases hpoint with ⟨rfl, hempty⟩ | ⟨index, -, rfl⟩
    · rintro T' heq
      obtain rfl := UserPoint.initializes.inj heq
      exact ⟨hcurrent, hempty⟩
    · simp
  sends := by rcases hpoint with ⟨rfl, -⟩ | ⟨index, -, rfl⟩ <;> simp
  drops := by rcases hpoint with ⟨rfl, -⟩ | ⟨index, -, rfl⟩ <;> simp
  handlers := fun T' hT' => hlater.2.2 ▸ Finset.mem_insert_of_mem (h.handlers T' hT')
  awaits := by
    rw [hlater.2.2]
    rcases hpoint with ⟨rfl, -⟩ | ⟨index, -, rfl⟩ <;> simp [UserPoint.awaits]

theorem WellFormed.handedOver (h : u.WellFormed s) (hfree : u.point = .free)
    (hindex : u.transactions[index]? = some (some T))
    (hlater : s'.committed = insert T s.committed) : WellFormed s' (u.handedOver index T) := by
  have hnone : ∀ T', some T' ∉ u.transactions.set index none := by
    intro T' hin
    have hlt := (List.getElem?_eq_some_iff.mp hindex).1
    have hperm := (List.set_perm_cons_eraseIdx hlt none).mem_iff (a := some T')
    exact h.none_left hindex T' (by simpa using hperm.mp hin)
  exact
    { bounds := by simp [UserThread.handedOver]
      committed := by simp [UserThread.handedOver]
      inside := by simp [UserThread.handedOver, hfree, Inside]
      objects := fun T' hT' => absurd hT' (hnone T')
      unique := by
        refine (List.countP_eq_zero.mpr fun inner hin hsome => ?_).le.trans (Nat.zero_le 1)
        obtain ⟨T', rfl⟩ := Option.isSome_iff_exists.mp hsome
        exact hnone T' hin
      destructs := by simp [UserThread.handedOver, hfree]
      initializes := by simp [UserThread.handedOver, hfree]
      sends := by simp [UserThread.handedOver, hfree]
      drops := by simp [UserThread.handedOver, hfree]
      handlers := by
        rw [hlater]
        intro T' hT'
        rcases List.mem_append.mp hT' with hin | hin
        · exact Finset.mem_insert_of_mem (h.handlers T' hin)
        · obtain rfl : T' = T := by simpa using hin
          exact Finset.mem_insert_self _ _
      awaits := by simp [UserThread.handedOver, hfree, UserPoint.awaits] }

theorem WellFormed.woken (h : u.WellFormed s) (hawaits : u.point.awaits ≠ none) :
    u.woken.WellFormed s := by
  have hmem : ∀ {l : List (Option ID)} {index : ℕ} {inner : Option ID}, inner ∈ l.eraseIdx index →
      inner ∈ l := fun hin => List.mem_of_mem_eraseIdx hin
  obtain ⟨point, current, transactions, handlers⟩ := u
  cases point with
  | free | invokesHooks | sends | sent => exact absurd rfl hawaits
  | joins T =>
      exact ⟨h.bounds, h.committed, fun h => h.elim, h.objects, h.unique, by simp [UserThread.woken],
        by simp [UserThread.woken], by simp [UserThread.woken], by simp [UserThread.woken],
        h.handlers, by simp [UserThread.woken, UserPoint.awaits]⟩
  | drops index T =>
      exact ⟨h.bounds, h.committed, fun h => h.elim, h.objects, h.unique, by simp [UserThread.woken],
        by simp [UserThread.woken], by simp [UserThread.woken], by simp [UserThread.woken],
        fun T hT => h.handlers T (hmem hT), by simp [UserThread.woken, UserPoint.awaits]⟩
  | initializes T =>
      obtain ⟨-, hempty⟩ := h.initializes T rfl
      simp only at hempty
      subst hempty
      exact ⟨by simp [UserThread.woken], by simp [UserThread.woken], fun h => h.elim,
        by simp [UserThread.woken], by simp [UserThread.woken], by simp [UserThread.woken],
        by simp [UserThread.woken], by simp [UserThread.woken], by simp [UserThread.woken],
        h.handlers, by simp [UserThread.woken, UserPoint.awaits]⟩
  | destructs index T =>
      have hnone := h.none_left (h.destructs index T rfl)
      refine ⟨by simp [UserThread.woken], by simp [UserThread.woken], fun h => h.elim,
        fun T' hT' => absurd hT' (hnone T'), ?_, by simp [UserThread.woken],
        by simp [UserThread.woken], by simp [UserThread.woken], by simp [UserThread.woken],
        h.handlers, by simp [UserThread.woken, UserPoint.awaits]⟩
      refine (List.countP_eq_zero.mpr fun inner hin hsome => ?_).le.trans (Nat.zero_le 1)
      obtain ⟨T', rfl⟩ := Option.isSome_iff_exists.mp hsome
      exact hnone T' hin

theorem woken_point (h : u.point.awaits ≠ none) : u.woken.point = .free := by
  obtain ⟨point, current, transactions, handlers⟩ := u
  cases point <;> simp_all [UserThread.woken, UserPoint.awaits]

theorem woken_currentTransaction (h : u.woken.currentTransaction = some T) :
    u.currentTransaction = some T := by
  obtain ⟨point, current, transactions, handlers⟩ := u
  cases point <;> simp_all [UserThread.woken]

theorem mem_handlers_of_woken (h : some T ∈ u.woken.handlers) : some T ∈ u.handlers := by
  obtain ⟨point, current, transactions, handlers⟩ := u
  cases point with
  | drops index T' => exact List.mem_of_mem_eraseIdx h
  | _ => exact h

theorem WellFormed.watches_woken (h : u.WellFormed s) {T' : ID} (hawaits : u.point.awaits = some T)
    (hne : T' ≠ T) (hwatches : u.Watches T') : u.woken.Watches T' := by
  obtain ⟨point, current, transactions, handlers⟩ := u
  cases point with
  | free | invokesHooks | sends | sent => simp [UserPoint.awaits] at hawaits
  | joins => exact hwatches
  | initializes T'' =>
      obtain rfl := Option.some.inj hawaits
      refine .inr (hwatches.resolve_left fun hT' => hne ?_)
      exact Option.some.inj (hT'.symm.trans (h.initializes T'' rfl).1)
  | destructs index T'' =>
      obtain rfl := Option.some.inj hawaits
      refine .inr (hwatches.resolve_left fun hT' => hne ?_)
      have hT := h.objects T'' (List.mem_of_getElem? (h.destructs index T'' rfl))
      exact Option.some.inj (hT'.symm.trans hT)
  | drops index T'' =>
      obtain rfl := Option.some.inj hawaits
      refine hwatches.imp_right fun hin => ?_
      obtain ⟨hlt, hget⟩ := List.getElem?_eq_some_iff.mp (h.drops index T'' rfl)
      have hperm := (List.getElem_cons_eraseIdx_perm hlt).mem_iff (a := some T')
      rw [hget] at hperm
      exact (List.mem_cons.mp (hperm.mpr hin)).resolve_left fun heq => hne (Option.some.inj heq)

theorem WellFormed.nested (h : u.WellFormed s) (hfree : u.point = .free)
    {transactions : List (Option ID)} (hsub : ∀ T, some T ∈ transactions → some T ∈ u.transactions)
    (hcount : transactions.countP Option.isSome ≤ u.transactions.countP Option.isSome) :
    WellFormed s { u with transactions := transactions } where
  bounds := h.bounds
  committed := h.committed
  inside := h.inside
  objects := fun T hT => h.objects T (hsub T hT)
  unique := hcount.trans h.unique
  destructs := by simp [hfree]
  initializes := by simp [hfree]
  sends := by simp [hfree]
  drops := h.drops
  handlers := h.handlers
  awaits := h.awaits

theorem WellFormed.sent (h : u.WellFormed s) {x : ι} {value : V} (hpoint : u.point = .sends x value) :
    WellFormed s { u with point := .sent } where
  bounds := h.bounds
  committed := fun T hT => by
    have hcommitted := h.committed T hT
    rw [hpoint] at hcommitted
    exact hcommitted
  inside := fun _ => h.inside (by rw [hpoint]; trivial)
  objects := h.objects
  unique := h.unique
  destructs := by simp
  initializes := by simp
  sends := fun _ => h.sends (.inl ⟨x, value, hpoint⟩)
  drops := by simp
  handlers := h.handlers
  awaits := by simp [UserPoint.awaits]

theorem WellFormed.builds (h : u.WellFormed s) (htransactions : u.transactions = [])
    (hlater : s'.buildTransaction = s.buildTransaction ∧ s'.committed = s.committed ∧
      s'.nextTransactionId = s.nextTransactionId + 1)
    (hbuild : s.buildTransaction ≤ s.nextTransactionId) (hnew : s.nextTransactionId ∉ s.committed) :
    WellFormed s' { u with
      point := .invokesHooks
      currentTransaction := some s.nextTransactionId } where
  bounds := by
    rintro T hT
    obtain rfl := Option.some.inj hT
    rw [hlater.1, hlater.2.2]
    exact ⟨hbuild, Nat.lt_succ_self _⟩
  committed := by
    rintro T hT
    obtain rfl := Option.some.inj hT
    rw [hlater.2.1]
    simpa [Commits] using hnew
  inside := by simp
  objects := by simp [htransactions]
  unique := h.unique
  destructs := by simp
  initializes := by simp
  sends := by simp
  drops := by simp
  handlers := fun T hT => hlater.2.1 ▸ h.handlers T hT
  awaits := by simp [UserPoint.awaits]

end UserThread

theorem UserPoint.eq_free {point : UserPoint ι V} (h : point.isFree = true) : point = .free := by
  cases point <;> simp [isFree] at h ⊢

end Prf
