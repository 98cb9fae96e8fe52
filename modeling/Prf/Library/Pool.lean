import Prf.Library.Termination

/-!
# A pool of workers

A system starts jobs, and one of its actions is the next step of a job. A pool has a fixed number of
workers: a worker takes the oldest job that nobody has taken, makes its steps until it has ended, and
comes back. A run of the pool is a run of the system in which the jobs begin in the order in which
they were started and no more of them are under way than there are workers. If the system has no
endless runs the pool has none, and a pool with a worker rests only where all jobs have ended.
-/

/-- A system with jobs, numbered as they are started. -/
structure Jobs (σ α : Type*) where
  step : σ → α → Option σ
  started : σ → ℕ
  advance : ℕ → α
  isJob : α → Bool
  begun : σ → ℕ → Bool
  ended : σ → ℕ → Bool

/-- What a system has to do with its jobs. -/
structure Jobs.Lawful {σ α : Type*} (J : Jobs σ α) : Prop where
  started_le : ∀ {s a s'}, J.step s a = some s' → J.started s ≤ J.started s'
  started_advance : ∀ {s i s'}, J.step s (J.advance i) = some s' → J.started s' = J.started s
  lt_of_begun : ∀ {s i}, J.begun s i → i < J.started s
  begun_of_ended : ∀ {s i}, J.ended s i → J.begun s i
  begun_step : ∀ {s a s' i}, J.step s a = some s' → J.begun s' i → J.begun s i ∨ a = J.advance i
  ended_step : ∀ {s a s' i}, J.step s a = some s' → J.ended s i → J.ended s' i
  isJob_advance : ∀ i, J.isJob (J.advance i)
  advance_injective : Function.Injective J.advance

/-- A system, the jobs nobody has taken, and what each worker is at. -/
structure Pool (n : ℕ) (σ : Type*) where
  system : σ
  queue : List ℕ
  worker : Fin n → Option ℕ

namespace Pool

variable {n : ℕ} {σ α : Type*}

/-- A worker moves, or the rest of the system. -/
inductive Move (n : ℕ) (α : Type*) where
  | worker (w : Fin n)
  | system (a : α)

/-- What the rest of the system does in a move. -/
def Move.action? : Move n α → Option α
  | worker _ => none
  | system a => some a

variable (J : Jobs σ α)

/-- The jobs that a move has started are put into the queue. -/
def request (p : Pool n σ) (s : σ) : Pool n σ :=
  { p with
    system := s
    queue := p.queue ++ List.range' (J.started p.system) (J.started s - J.started p.system) }

/-- The loop of a worker. -/
def work (p : Pool n σ) (w : Fin n) : Option (Pool n σ) :=
  match p.worker w with
  | none =>
      match p.queue with
      | [] => none
      | i :: rest => some { p with queue := rest, worker := Function.update p.worker w (some i) }
  | some i =>
      if J.ended p.system i then some { p with worker := Function.update p.worker w none }
      else (J.step p.system (J.advance i)).map fun s => { p with system := s }

/-- One move. A step of a job is made by the worker that has taken it. -/
def step (p : Pool n σ) : Move n α → Option (Pool n σ)
  | .worker w => p.work J w
  | .system a => if J.isJob a then none else (J.step p.system a).map (p.request J)

/-- The pool of a system that has not started a job. -/
def idle (n : ℕ) (s : σ) : Pool n σ :=
  ⟨s, [], fun _ => none⟩

/-- `taken` is the number of jobs that have been taken. -/
structure Inv (taken : ℕ) (p : Pool n σ) : Prop where
  le : taken ≤ J.started p.system
  queue : p.queue = List.range' taken (J.started p.system - taken)
  lt : ∀ {w i}, p.worker w = some i → i < taken
  distinct : ∀ {v w i}, p.worker v = some i → p.worker w = some i → v = w
  waiting : ∀ i, taken ≤ i → J.begun p.system i = false
  covered : ∀ i, i < taken → J.ended p.system i ∨ ∃ w, p.worker w = some i

variable {J} {p p' : Pool n σ} {taken : ℕ} {m : Move n α}

/-- What a move of the pool does: it is a step of the system, or a worker takes a job or is done with
one. -/
theorem step_cases (h : p.step J m = some p') :
    (∃ a s, J.isJob a = false ∧ m = .system a ∧ J.step p.system a = some s ∧ p' = p.request J s) ∨
      (∃ w i s, m = .worker w ∧ p.worker w = some i ∧ J.step p.system (J.advance i) = some s ∧
        p' = { p with system := s }) ∨
      (∃ w i rest, m = .worker w ∧ p.worker w = none ∧ p.queue = i :: rest ∧
        p' = { p with queue := rest, worker := Function.update p.worker w (some i) }) ∨
      ∃ w i, m = .worker w ∧ p.worker w = some i ∧ J.ended p.system i ∧
        p' = { p with worker := Function.update p.worker w none } := by
  cases m with
  | system a =>
      rw [step, Option.ite_none_left_eq_some] at h
      obtain ⟨s, hs, rfl⟩ := Option.map_eq_some_iff.mp h.2
      exact .inl ⟨a, s, by simpa using h.1, rfl, hs, rfl⟩
  | worker w =>
      simp only [step, work] at h
      split at h
      · rename_i hidle
        split at h
        · cases h
        · rename_i i rest hqueue
          obtain rfl := Option.some.inj h
          exact .inr (.inr (.inl ⟨w, i, rest, rfl, hidle, hqueue, rfl⟩))
      · rename_i i hbusy
        split at h
        · rename_i hended
          obtain rfl := Option.some.inj h
          exact .inr (.inr (.inr ⟨w, i, rfl, hbusy, hended, rfl⟩))
        · obtain ⟨s, hs, rfl⟩ := Option.map_eq_some_iff.mp h
          exact .inr (.inl ⟨w, i, s, rfl, hbusy, hs, rfl⟩)

/-- A move of the rest of the system or of another worker. -/
theorem worker_of_step (h : p.step J m = some p') {w : Fin n} (hother : m ≠ .worker w) :
    p'.worker w = p.worker w := by
  rcases step_cases h with ⟨a, s, -, rfl, -, rfl⟩ | ⟨v, i, s, rfl, -, -, rfl⟩ |
    ⟨v, i, rest, rfl, -, -, rfl⟩ | ⟨v, i, rfl, -, -, rfl⟩
  · rfl
  · rfl
  all_goals
    have hne : w ≠ v := by
      rintro rfl
      exact hother rfl
    exact Function.update_of_ne hne _ _

/-- A move leaves the system as it is, or it is a step of it. -/
theorem system_of_step (h : p.step J m = some p') :
    p'.system = p.system ∨ ∃ a, (m.action? = some a ∨ ∃ i, a = J.advance i) ∧
      J.step p.system a = some p'.system := by
  rcases step_cases h with ⟨a, s, -, rfl, hs, rfl⟩ | ⟨w, i, s, rfl, -, hs, rfl⟩ |
    ⟨w, i, rest, rfl, -, -, rfl⟩ | ⟨w, i, rfl, -, -, rfl⟩
  · exact .inr ⟨a, .inl rfl, hs⟩
  · exact .inr ⟨_, .inr ⟨i, rfl⟩, hs⟩
  · exact .inl rfl
  · exact .inl rfl

/-- Something done to the system that its steps and its jobs do not notice. -/
theorem step_update (f : σ → σ) (hstarted : ∀ s, J.started (f s) = J.started s)
    (hended : ∀ s i, J.ended (f s) i = J.ended s i)
    (hstep : ∀ a, J.isJob a ∨ m.action? = some a → J.step (f p.system) a = (J.step p.system a).map f)
    (hadvance : ∀ i, J.isJob (J.advance i)) :
    step J { p with system := f p.system } m =
      (p.step J m).map fun p => { p with system := f p.system } := by
  cases m with
  | system a =>
      simp only [step]
      split
      · rfl
      · rw [hstep a (.inr rfl)]
        cases J.step p.system a with
        | none => rfl
        | some s => simp [request, hstarted]
  | worker w =>
      simp only [step, work]
      cases p.worker w with
      | none => cases p.queue <;> rfl
      | some i =>
          simp only [hended]
          cases J.ended p.system i with
          | true => rfl
          | false =>
              simp only [Bool.false_eq_true, if_false, hstep _ (.inl (hadvance i))]
              cases J.step p.system (J.advance i) <;> rfl

/-! ## What every run keeps -/

theorem inv_idle {s : σ} (hstarted : J.started s = 0) (hbegun : ∀ i, J.begun s i = false) :
    Inv J 0 (idle n s) where
  le := Nat.zero_le _
  queue := by simp [idle, hstarted]
  lt := by simp [idle]
  distinct := by simp [idle]
  waiting := fun i _ => hbegun i
  covered := fun i hi => absurd hi (Nat.not_lt_zero i)

theorem Inv.step (hJ : J.Lawful) (h : Inv J taken p) (hstep : p.step J m = some p') :
    ∃ taken', Inv J taken' p' := by
  have hworker : ∀ {w v : Fin n} {job : Option ℕ} {i},
      Function.update p.worker w job v = some i → v = w ∧ job = some i ∨
        v ≠ w ∧ p.worker v = some i := by
    intro w v job i hv
    by_cases heq : v = w
    · subst heq
      exact .inl ⟨rfl, by simpa using hv⟩
    · exact .inr ⟨heq, by simpa [heq] using hv⟩
  rcases step_cases hstep with ⟨a, s, hother, rfl, hs, rfl⟩ | ⟨w, i, s, rfl, hbusy, hs, rfl⟩ |
    ⟨w, i, rest, rfl, hidle, hqueue, rfl⟩ | ⟨w, i, rfl, hbusy, hended, rfl⟩
  · have hle := hJ.started_le hs
    have htaken := h.le
    refine ⟨taken, htaken.trans hle, ?_, h.lt, h.distinct, fun i hi => ?_, fun i hi => ?_⟩
    · have hstart : J.started p.system = taken + 1 * (J.started p.system - taken) := by omega
      have hlength : J.started s - taken =
          J.started p.system - taken + (J.started s - J.started p.system) := by
        omega
      simp only [request, h.queue]
      rw [hlength, ← List.range'_append, ← hstart]
    · by_contra hbegun
      rcases hJ.begun_step hs (by simpa [request] using hbegun) with hbefore | rfl
      · rw [h.waiting i hi] at hbefore
        cases hbefore
      · rw [hJ.isJob_advance i] at hother
        cases hother
    · exact (h.covered i hi).imp_left (hJ.ended_step hs)
  · have hsame := hJ.started_advance hs
    refine ⟨taken, hsame ▸ h.le, ?_, h.lt, h.distinct, fun j hj => ?_, fun j hj => ?_⟩
    · simp only [hsame]
      exact h.queue
    · by_contra hbegun
      rcases hJ.begun_step hs (by simpa using hbegun) with hbefore | heq
      · rw [h.waiting j hj] at hbefore
        cases hbefore
      · have hlt := h.lt hbusy
        rw [hJ.advance_injective heq] at hlt
        omega
    · exact (h.covered j hj).imp_left (hJ.ended_step hs)
  · have hrange := h.queue
    rw [hqueue] at hrange
    obtain ⟨count, hcount⟩ : ∃ count, J.started p.system - taken = count + 1 := by
      cases hlength : J.started p.system - taken with
      | zero => simp [hlength] at hrange
      | succ count => exact ⟨count, rfl⟩
    rw [hcount, List.range'_succ, List.cons.injEq] at hrange
    obtain ⟨rfl, hrest⟩ := hrange
    refine ⟨i + 1, Nat.lt_of_sub_eq_succ hcount, ?_, fun {v j} hv => ?_, fun {v u j} hv hu => ?_,
      fun j hj => h.waiting j (by omega), fun j hj => ?_⟩
    · simp only [hrest]
      congr 1
      omega
    · rcases hworker hv with ⟨-, heq⟩ | ⟨-, hold⟩
      · obtain rfl := Option.some.inj heq
        exact Nat.lt_succ_self _
      · exact Nat.lt_succ_of_lt (h.lt hold)
    · rcases hworker hv with ⟨rfl, heq⟩ | ⟨-, hold⟩ <;>
        rcases hworker hu with ⟨rfl, heq'⟩ | ⟨-, hold'⟩
      · rfl
      · obtain rfl := Option.some.inj heq
        exact absurd (h.lt hold') (lt_irrefl _)
      · obtain rfl := Option.some.inj heq'
        exact absurd (h.lt hold) (lt_irrefl _)
      · exact h.distinct hold hold'
    · rcases Nat.lt_succ_iff_lt_or_eq.mp hj with hlt | rfl
      · refine (h.covered j hlt).imp_right ?_
        rintro ⟨v, hv⟩
        have hne : v ≠ w := by
          rintro rfl
          rw [hidle] at hv
          cases hv
        exact ⟨v, by simpa [hne] using hv⟩
      · exact .inr ⟨w, by simp⟩
  · refine ⟨taken, h.le, h.queue, fun {v j} hv => ?_, fun {v u j} hv hu => ?_, h.waiting,
      fun j hj => ?_⟩
    · rcases hworker hv with ⟨-, heq⟩ | ⟨-, hold⟩
      · cases heq
      · exact h.lt hold
    · rcases hworker hv with ⟨-, heq⟩ | ⟨-, hold⟩
      · cases heq
      · rcases hworker hu with ⟨-, heq⟩ | ⟨-, hold'⟩
        · cases heq
        · exact h.distinct hold hold'
    · rcases h.covered j hj with hended' | ⟨v, hv⟩
      · exact .inl hended'
      · by_cases heq : v = w
        · subst heq
          obtain rfl := Option.some.inj (hbusy.symm.trans hv)
          exact .inl hended
        · exact .inr ⟨v, by simpa [heq] using hv⟩

/-- A run of the pool. -/
def run (J : Jobs σ α) (p : Pool n σ) (moves : List (Move n α)) : Option (Pool n σ) :=
  moves.foldlM (Pool.step J) p

theorem Inv.run (hJ : J.Lawful) (h : Inv J taken p) {moves : List (Move n α)}
    (hrun : p.run J moves = some p') : ∃ taken', Inv J taken' p' := by
  induction moves generalizing p taken with
  | nil =>
      obtain rfl := Option.some.inj hrun
      exact ⟨taken, h⟩
  | cons m moves ih =>
      rw [Pool.run, List.foldlM_cons] at hrun
      obtain ⟨q, hq, hrest⟩ := Option.bind_eq_some_iff.mp hrun
      obtain ⟨taken', h'⟩ := h.step hJ hq
      exact ih h' hrest

/-- The pool does nothing that the system could not do, and leaves the rest of the system alone. -/
theorem system_run (hJ : J.Lawful) {moves : List (Move n α)} (hrun : p.run J moves = some p') :
    ∃ actions : List α, actions.foldlM J.step p.system = some p'.system ∧
      actions.filter (fun a => ¬ J.isJob a) = moves.filterMap Move.action? := by
  induction moves generalizing p with
  | nil =>
      obtain rfl := Option.some.inj hrun
      exact ⟨[], rfl, rfl⟩
  | cons m moves ih =>
      rw [Pool.run, List.foldlM_cons] at hrun
      obtain ⟨q, hq, hrest⟩ := Option.bind_eq_some_iff.mp hrun
      obtain ⟨actions, hactions, hothers⟩ := ih hrest
      rcases step_cases hq with ⟨a, s, hother, rfl, hs, rfl⟩ | ⟨w, i, s, rfl, -, hs, rfl⟩ |
        ⟨w, i, rest, rfl, -, -, rfl⟩ | ⟨w, i, rfl, -, -, rfl⟩
      · refine ⟨a :: actions, by rw [List.foldlM_cons, hs]; exact hactions, ?_⟩
        rw [List.filter_cons_of_pos (by simp [hother]), hothers]
        rfl
      · refine ⟨J.advance i :: actions, by rw [List.foldlM_cons, hs]; exact hactions, ?_⟩
        rw [List.filter_cons_of_neg (by simp [hJ.isJob_advance i]), hothers]
        rfl
      · exact ⟨actions, hactions, hothers⟩
      · exact ⟨actions, hactions, hothers⟩

/-- A job that is under way is with a worker. -/
theorem Inv.exists_worker (h : Inv J taken p) {i : ℕ} (hbegun : J.begun p.system i)
    (hended : J.ended p.system i = false) : ∃ w, p.worker w = some i := by
  have hlt : i < taken := by
    by_contra hge
    rw [h.waiting i (not_lt.mp hge)] at hbegun
    cases hbegun
  exact (h.covered i hlt).resolve_left (by simp [hended])

/-- No more jobs are under way than there are workers. -/
theorem Inv.card_le (h : Inv J taken p) :
    {i ∈ Finset.range (J.started p.system) |
      J.begun p.system i ∧ J.ended p.system i = false}.card ≤ n := by
  classical
  have hsub : {i ∈ Finset.range (J.started p.system) |
      J.begun p.system i ∧ J.ended p.system i = false} ⊆
        Finset.univ.biUnion fun w => (p.worker w).toFinset := by
    intro i hi
    simp only [Finset.mem_filter] at hi
    obtain ⟨w, hw⟩ := h.exists_worker hi.2.1 hi.2.2
    exact Finset.mem_biUnion.mpr ⟨w, Finset.mem_univ w, by simp [hw]⟩
  calc _ ≤ (Finset.univ.biUnion fun w => (p.worker w).toFinset).card := Finset.card_le_card hsub
    _ ≤ ∑ w : Fin n, (p.worker w).toFinset.card := Finset.card_biUnion_le
    _ ≤ ∑ _w : Fin n, 1 := by
      apply Finset.sum_le_sum
      intro w _
      cases p.worker w <;> simp
    _ = n := by simp

/-- When a job has begun the jobs before it have ended or are with a worker. -/
theorem Inv.fifo (h : Inv J taken p) {i j : ℕ} (hlt : i < j) (hbegun : J.begun p.system j) :
    J.ended p.system i ∨ ∃ w, p.worker w = some i := by
  have htaken : j < taken := by
    by_contra hge
    rw [h.waiting j (not_lt.mp hge)] at hbegun
    cases hbegun
  exact h.covered i (hlt.trans htaken)

/-! ## Rest -/

/-- A pool with a worker rests only where no worker has a job and none is waiting. -/
theorem Inv.idle_of_rest (h : Inv J taken p) (hn : 0 < n)
    (hprogress : ∀ i, i < J.started p.system → J.ended p.system i = false →
      ∃ s, J.step p.system (J.advance i) = some s)
    (hrest : ∀ w, p.work J w = none) : (∀ w, p.worker w = none) ∧ p.queue = [] := by
  have hidle : ∀ w, p.worker w = none := by
    intro w
    cases hbusy : p.worker w with
    | none => rfl
    | some j =>
        have hnone := hrest w
        cases hended : J.ended p.system j with
        | true => simp [work, hbusy, hended] at hnone
        | false =>
            obtain ⟨s, hs⟩ := hprogress j ((h.lt hbusy).trans_le h.le) hended
            simp [work, hbusy, hended, hs] at hnone
  refine ⟨hidle, ?_⟩
  cases hqueue : p.queue with
  | nil => rfl
  | cons j rest =>
      have hnone := hrest ⟨0, hn⟩
      simp [work, hidle, hqueue] at hnone

/-- Where no worker has a job and none is waiting, all jobs have ended. -/
theorem Inv.ended_of_idle (h : Inv J taken p) (hidle : ∀ w, p.worker w = none)
    (hqueue : p.queue = []) {i : ℕ} (hi : i < J.started p.system) : J.ended p.system i := by
  have htaken : i < taken := by
    have hrange := h.queue
    rw [hqueue, eq_comm, List.range'_eq_nil_iff] at hrange
    omega
  refine (h.covered i htaken).resolve_right ?_
  rintro ⟨w, hw⟩
  rw [hidle w] at hw
  cases hw

/-- How many workers have a job. -/
def busy (p : Pool n σ) : ℕ :=
  ∑ w, (p.worker w).toList.length

theorem busy_update (p : Pool n σ) (w : Fin n) (job : Option ℕ) (queue : List ℕ) :
    busy { p with queue := queue, worker := Function.update p.worker w job } +
      (p.worker w).toList.length = busy p + job.toList.length := by
  have hcomp : (fun v => (Function.update p.worker w job v).toList.length) =
      Function.update (fun v => (p.worker v).toList.length) w job.toList.length :=
    Function.comp_update (fun job : Option ℕ => job.toList.length) p.worker w job
  have hsplit := Finset.add_sum_erase Finset.univ (fun v => (p.worker v).toList.length)
    (Finset.mem_univ w)
  simp only [busy, hcomp]
  rw [Finset.sum_update_of_mem (Finset.mem_univ w), Finset.sdiff_singleton_eq_erase]
  omega

/-- What the pool does on its own. -/
def Own (own : α → Prop) : Move n α → Prop
  | .worker _ => True
  | .system a => own a

/-- A pool has no endless run where its system has none. -/
theorem acc_of_system {own : α → Prop} (hadvance : ∀ i, own (J.advance i))
    (hacc : Acc (Termination.Moves J.step own) p.system) :
    Acc (Termination.Moves (Pool.step J) (Own (n := n) own)) p := by
  refine Termination.acc_of_simulates (fun (p : Pool n σ) s => p.system = s)
    (measure fun p : Pool n σ => 2 * p.queue.length + p.busy).wf ?_ hacc rfl
  rintro p s p' rfl ⟨m, hown, hstep⟩
  rcases step_cases hstep with ⟨a, s, -, rfl, hs, rfl⟩ | ⟨w, i, s, rfl, -, hs, rfl⟩ |
    ⟨w, i, rest, rfl, hidle, hqueue, rfl⟩ | ⟨w, i, rfl, hbusy, -, rfl⟩
  · exact .inl ⟨s, ⟨a, hown, hs⟩, rfl⟩
  · exact .inl ⟨s, ⟨J.advance i, hadvance i, hs⟩, rfl⟩
  · refine .inr ⟨?_, rfl⟩
    have hmore := busy_update p w (some i) rest
    simp only [hidle, Option.toList_none, Option.toList_some, List.length_nil,
      List.length_singleton] at hmore
    show 2 * rest.length + _ < 2 * p.queue.length + _
    rw [hqueue, List.length_cons]
    omega
  · refine .inr ⟨?_, rfl⟩
    have hless := busy_update p w none p.queue
    simp only [hbusy, Option.toList_none, Option.toList_some, List.length_nil,
      List.length_singleton] at hless
    show 2 * p.queue.length + _ < 2 * p.queue.length + _
    omega

end Pool
