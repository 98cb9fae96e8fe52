import Prf.Library.Layering
import Prf.Proof.Clusters

/-!
# What the rank loop computes

The worklist loop behind `generate_cluster_ranks` and `generate_in_cluster_ranks`, over any vertices
and links. It treats the vertices that no cycle leads to, each of them once and after everything that
leads to it, and counts how long a chain of treated vertices ends in each.
-/

namespace Prf

namespace NodeManager

variable {links : List (ℕ × ℕ)} {u v : ℕ}

@[simp]
theorem mem_childsOf : v ∈ childsOf links u ↔ (u, v) ∈ links := by
  simp [childsOf]

@[simp]
theorem mem_parentsOf : u ∈ parentsOf links v ↔ (u, v) ∈ links := by
  simp [parentsOf]

/-- One round of the rank loop, for the vertex `updatingId` at the back of `updates`. -/
def rankRound (childs : ℕ → Finset ℕ) (updatingId : ℕ) (rest : List ℕ) (state : RankState) :
    RankState :=
  (ascending (childs updatingId)).foldl (releaseChild updatingId)
    { state with
      updates := rest
      ranks := (ascending (childs updatingId)).foldl (ensureChild updatingId) state.ranks }

theorem rankLoop_cons {childs : ℕ → Finset ℕ} {fuel : ℕ} {state : RankState} {rest : List ℕ}
    (h : state.updates = u :: rest) :
    rankLoop childs (fuel + 1) state = rankLoop childs fuel (rankRound childs u rest state) := by
  conv_lhs => rw [rankLoop]
  simp only [h, rankRound]

theorem rankLoop_nil {childs : ℕ → Finset ℕ} {fuel : ℕ} {state : RankState}
    (h : state.updates = []) : rankLoop childs fuel state = some state.ranks := by
  rw [rankLoop.eq_def]
  simp [h]

/-- The first inner loop raises the children above the vertex. -/
theorem foldl_ensureChild (children : List ℕ) (hu : u ∉ children) (ranks : ℕ → Rank)
    (hsmall : ∀ c ∈ children, (ranks u).value + 1 < u64Size) (v : ℕ) :
    (children.foldl (ensureChild u) ranks v).value =
      if v ∈ children then max (ranks v).value ((ranks u).value + 1) else (ranks v).value := by
  induction children generalizing ranks with
  | nil => simp
  | cons c children ih =>
      obtain ⟨huc, hu⟩ : u ≠ c ∧ u ∉ children := by simpa using hu
      have hstep : ∀ w, (ensureChild u ranks c w).value =
          if w = c then max (ranks c).value ((ranks u).value + 1) else (ranks w).value := by
        intro w
        rw [ensureChild, Function.update_apply]
        split
        · rw [Rank.ensureAfter]
          split
          case isTrue hlt => exact (max_eq_left hlt).symm
          case isFalse hle =>
            rw [max_eq_right (by omega)]
            exact Nat.mod_eq_of_lt (hsmall c List.mem_cons_self)
        · rfl
      have hself : (ensureChild u ranks c u).value = (ranks u).value := by rw [hstep, if_neg huc]
      have hsmall' : ∀ d ∈ children, (ensureChild u ranks c u).value + 1 < u64Size :=
        fun d hd => hself ▸ hsmall d (List.mem_cons_of_mem c hd)
      rw [List.foldl_cons, ih hu _ hsmall', hself, hstep]
      by_cases hvc : v = c
      · subst hvc
        by_cases hv : v ∈ children <;> simp [hv]
      · simp [hvc]

/-- The second inner loop takes the vertex from the parents of its children, and puts those that
have no parent left on the worklist. -/
theorem foldl_releaseChild (children : List ℕ) (hnodup : children.Nodup) (state : RankState) :
    (∀ v, (children.foldl (releaseChild u) state).parents v =
      if v ∈ children then (state.parents v).erase u else state.parents v) ∧
    (children.foldl (releaseChild u) state).ranks = state.ranks ∧
    (children.foldl (releaseChild u) state).updates =
      (children.filter fun v => (state.parents v).erase u = ∅).reverse ++ state.updates := by
  induction children generalizing state with
  | nil => simp
  | cons c children ih =>
      obtain ⟨hc, hnodup⟩ := List.nodup_cons.mp hnodup
      obtain ⟨hparents, hranks, hupdates⟩ := ih hnodup (releaseChild u state c)
      have hother : ∀ w ∈ children, (releaseChild u state c).parents w = state.parents w := by
        intro w hw
        have hne : w ≠ c := fun heq => hc (heq ▸ hw)
        simp [releaseChild, Function.update_of_ne hne]
      refine ⟨fun v => ?_, hranks, ?_⟩
      · rw [List.foldl_cons, hparents]
        by_cases hvc : v = c
        · subst hvc
          simp [hc, releaseChild]
        · by_cases hv : v ∈ children <;> simp [hv, hvc, releaseChild, Function.update_of_ne]
      · rw [List.foldl_cons, hupdates]
        have hfilter : (children.filter fun v => ((releaseChild u state c).parents v).erase u = ∅) =
            children.filter fun v => (state.parents v).erase u = ∅ :=
          List.filter_congr fun w hw => by rw [hother w hw]
        rw [hfilter, List.filter_cons]
        by_cases hleft : (state.parents c).erase u = ∅ <;> simp [releaseChild, hleft]

def linked (links : List (ℕ × ℕ)) : Finset ℕ :=
  (links.map Prod.fst).toFinset ∪ (links.map Prod.snd).toFinset

theorem mem_linked : v ∈ linked links ↔ ∃ u, (v, u) ∈ links ∨ (u, v) ∈ links := by
  simp [linked, exists_or]

theorem linked_of_link (h : (u, v) ∈ links) : u ∈ linked links ∧ v ∈ linked links :=
  ⟨mem_linked.mpr ⟨v, .inl h⟩, mem_linked.mpr ⟨u, .inr h⟩⟩

/-- How far the loop has come when it has treated `done`. -/
structure Sweep (vertices : Finset ℕ) (links : List (ℕ × ℕ)) (done : Finset ℕ)
    (state : RankState) : Prop where
  links_mem : ∀ u v, (u, v) ∈ links → u ∈ vertices ∧ v ∈ vertices
  nodup : state.updates.Nodup
  fresh : ∀ v ∈ state.updates, v ∉ done
  ready : ∀ v, v ∈ state.updates ∨ v ∈ done ↔ v ∈ vertices ∧ ∀ u, (u, v) ∈ links → u ∈ done
  parents : ∀ v u, u ∈ state.parents v ↔ (u, v) ∈ links ∧ u ∉ done
  ranks : ∀ v ∈ vertices, ∀ n, n < (state.ranks v).value ↔
    ∃ u, u ∈ done ∧ (u, v) ∈ links ∧ n ≤ (state.ranks u).value
  grounded : ∀ v ∈ done, Layering.Grounded (fun u v => (u, v) ∈ links) v

namespace Sweep

variable {vertices done : Finset ℕ} {state : RankState} {rest : List ℕ}

theorem start {links : List (ℕ × ℕ)} {updates : List ℕ} {ranks : ℕ → Rank}
    (hlinks : ∀ u v, (u, v) ∈ links → u ∈ vertices ∧ v ∈ vertices) (hnodup : updates.Nodup)
    (hupdates : ∀ v, v ∈ updates ↔ v ∈ vertices ∧ parentsOf links v = ∅)
    (hranks : ∀ v ∈ vertices, ranks v = Rank.zero) :
    Sweep vertices links ∅ ⟨updates, ranks, parentsOf links⟩ := by
  refine ⟨hlinks, hnodup, by simp, fun v => ?_, by simp, fun v hv => by simp [hranks v hv], by simp⟩
  simp only [hupdates, Finset.notMem_empty, or_false, imp_false, Finset.eq_empty_iff_forall_notMem,
    mem_parentsOf]

theorem done_subset (h : Sweep vertices links done state) : done ⊆ vertices :=
  fun v hv => ((h.ready v).mp (.inr hv)).1

theorem not_link_of_mem (h : Sweep vertices links done state) (hu : u ∈ state.updates)
    (hv : v ∈ state.updates ∨ v ∈ done) : (u, v) ∉ links :=
  fun hlink => h.fresh u hu (((h.ready v).mp hv).2 u hlink)

theorem card_lt (h : Sweep vertices links done state) (hu : u ∈ state.updates) :
    done.card < vertices.card := by
  refine Finset.card_lt_card (Finset.ssubset_iff_of_subset h.done_subset |>.mpr ⟨u, ?_, ?_⟩)
  · exact ((h.ready u).mp (.inl hu)).1
  · exact h.fresh u hu

/-- The rank of a vertex is the length of a longest chain of treated vertices that ends in it. -/
theorem le_rank_iff (h : Sweep vertices links done state) (n : ℕ) (hv : v ∈ vertices) :
    n ≤ (state.ranks v).value ↔
      Layering.Chain (fun u v => (u, v) ∈ links) (· ∈ done) n v := by
  induction n generalizing v with
  | zero => exact ⟨fun _ => trivial, fun _ => Nat.zero_le _⟩
  | succ n ih =>
      rw [Nat.succ_le_iff, h.ranks v hv]
      refine exists_congr fun u => and_congr_right fun _ => and_congr_right fun hlink => ?_
      exact ih (h.links_mem u v hlink).1

theorem rank_lt (h : Sweep vertices links done state) (hv : v ∈ linked links) :
    (state.ranks v).value < (linked links).card := by
  have hin : v ∈ vertices := by
    rcases mem_linked.mp hv with ⟨u, hlink | hlink⟩
    · exact (h.links_mem v u hlink).1
    · exact (h.links_mem u v hlink).2
  exact Layering.Chain.lt_card (linked links) (fun _ _ hlink => (linked_of_link hlink).1)
    h.grounded hv ((h.le_rank_iff _ hin).mp le_rfl)

theorem ranks_round (h : Sweep vertices links done state) (hupdates : state.updates = u :: rest)
    (hsize : (linked links).card < u64Size) (v : ℕ) :
    ((rankRound (childsOf links) u rest state).ranks v).value =
      if (u, v) ∈ links then max (state.ranks v).value ((state.ranks u).value + 1)
      else (state.ranks v).value := by
  have hu : u ∈ state.updates := hupdates ▸ List.mem_cons_self
  have hself : u ∉ ascending (childsOf links u) := by
    simpa using h.not_link_of_mem hu (.inl hu)
  have hsmall : ∀ c ∈ ascending (childsOf links u), (state.ranks u).value + 1 < u64Size := by
    intro c hc
    have hlink : (u, c) ∈ links := by simpa using hc
    exact lt_of_le_of_lt (h.rank_lt (linked_of_link hlink).1) hsize
  rw [rankRound, (foldl_releaseChild _ (ascending_nodup _) _).2.1]
  simp only [foldl_ensureChild _ hself _ hsmall, mem_ascending, mem_childsOf]

theorem mem_updates_round {childs : ℕ → Finset ℕ} :
    v ∈ (rankRound childs u rest state).updates ↔
      v ∈ childs u ∧ (state.parents v).erase u = ∅ ∨ v ∈ rest := by
  rw [rankRound, (foldl_releaseChild _ (ascending_nodup _) _).2.2]
  simp

theorem parents_round {childs : ℕ → Finset ℕ} :
    (rankRound childs u rest state).parents v =
      if v ∈ childs u then (state.parents v).erase u else state.parents v := by
  rw [rankRound, (foldl_releaseChild _ (ascending_nodup _) _).1]
  simp

theorem round (h : Sweep vertices links done state) (hupdates : state.updates = u :: rest)
    (hsize : (linked links).card < u64Size) :
    Sweep vertices links (insert u done) (rankRound (childsOf links) u rest state) := by
  have hu : u ∈ state.updates := hupdates ▸ List.mem_cons_self
  have hrest : ∀ v, v ∈ rest → v ∈ state.updates := fun v hv => hupdates ▸ List.mem_cons_of_mem u hv
  obtain ⟨hurest, hnodup⟩ := List.nodup_cons.mp (hupdates ▸ h.nodup)
  have hnew : ∀ v, (u, v) ∈ links → v ∉ state.updates ∧ v ∉ done := fun v hlink =>
    ⟨fun hv => h.not_link_of_mem hu (.inl hv) hlink, fun hv => h.not_link_of_mem hu (.inr hv) hlink⟩
  have hranks : ∀ v, v ∈ insert u done →
      ((rankRound (childsOf links) u rest state).ranks v).value = (state.ranks v).value := by
    intro v hv
    have hnot : (u, v) ∉ links := by
      rcases Finset.mem_insert.mp hv with rfl | hv
      · exact h.not_link_of_mem hu (.inl hu)
      · exact h.not_link_of_mem hu (.inr hv)
    rw [h.ranks_round hupdates hsize, if_neg hnot]
  refine ⟨h.links_mem, ?_, ?_, fun v => ?_, fun v w => ?_, fun v hv n => ?_, fun v hv => ?_⟩
  · rw [rankRound, (foldl_releaseChild _ (ascending_nodup _) _).2.2, List.nodup_append]
    refine ⟨List.nodup_reverse.mpr ((ascending_nodup _).filter _), hnodup, ?_⟩
    rintro v hv w hw rfl
    have hlink : (u, v) ∈ links := by
      simpa using (List.mem_filter.mp (List.mem_reverse.mp hv)).1
    exact (hnew v hlink).1 (hrest v hw)
  · intro v hv
    rw [Finset.mem_insert]
    rintro (rfl | hdone)
    · rcases mem_updates_round.mp hv with ⟨hlink, -⟩ | hv
      · exact (hnew v (mem_childsOf.mp hlink)).1 hu
      · exact hurest hv
    · rcases mem_updates_round.mp hv with ⟨hlink, -⟩ | hv
      · exact (hnew v (mem_childsOf.mp hlink)).2 hdone
      · exact h.fresh v (hrest v hv) hdone
  · have hbefore : v ∈ rest ∨ v ∈ insert u done ↔ v ∈ state.updates ∨ v ∈ done := by
      rw [hupdates, List.mem_cons, Finset.mem_insert]
      tauto
    rw [mem_updates_round, or_assoc, hbefore, h.ready, mem_childsOf]
    simp only [Finset.eq_empty_iff_forall_notMem, Finset.mem_erase, h.parents, not_and, not_not,
      Finset.mem_insert]
    constructor
    · rintro (⟨hlink, hleft⟩ | ⟨hv, hall⟩)
      · refine ⟨(h.links_mem u v hlink).2, fun w hw => ?_⟩
        by_cases hwu : w = u
        · exact .inl hwu
        · exact .inr (hleft w hwu hw)
      · exact ⟨hv, fun w hw => .inr (hall w hw)⟩
    · rintro ⟨hv, hall⟩
      by_cases hlink : (u, v) ∈ links
      · exact .inl ⟨hlink, fun w hwu hw => (hall w hw).resolve_left hwu⟩
      · refine .inr ⟨hv, fun w hw => (hall w hw).resolve_left ?_⟩
        rintro rfl
        exact hlink hw
  · rw [parents_round, Finset.mem_insert, not_or]
    by_cases hlink : (u, v) ∈ links
    · rw [if_pos (mem_childsOf.mpr hlink), Finset.mem_erase, h.parents]
      tauto
    · rw [if_neg (fun hv => hlink (mem_childsOf.mp hv)), h.parents]
      refine ⟨fun ⟨hw, hdone⟩ => ⟨hw, ?_, hdone⟩, fun ⟨hw, _, hdone⟩ => ⟨hw, hdone⟩⟩
      rintro rfl
      exact hlink hw
  · have hstep : n < ((rankRound (childsOf links) u rest state).ranks v).value ↔
        n < (state.ranks v).value ∨ (u, v) ∈ links ∧ n ≤ (state.ranks u).value := by
      rw [h.ranks_round hupdates hsize]
      split
      case isTrue hlink => simp [hlink]
      case isFalse hlink => simp [hlink]
    rw [hstep, h.ranks v hv]
    constructor
    · rintro (⟨w, hw, hlink, hle⟩ | ⟨hlink, hle⟩)
      · have hin := Finset.mem_insert_of_mem (a := w) (b := u) hw
        exact ⟨w, hin, hlink, by rwa [hranks w hin]⟩
      · have hin := Finset.mem_insert_self u done
        exact ⟨u, hin, hlink, by rwa [hranks u hin]⟩
    · rintro ⟨w, hw, hlink, hle⟩
      rw [hranks w hw] at hle
      rcases Finset.mem_insert.mp hw with rfl | hw
      · exact .inr ⟨hlink, hle⟩
      · exact .inl ⟨w, hw, hlink, hle⟩
  · rcases Finset.mem_insert.mp hv with rfl | hv
    · apply Layering.grounded_of_parents
      exact fun w hlink => h.grounded w (((h.ready v).mp (.inl hu)).2 w hlink)
    · exact h.grounded v hv

theorem run (h : Sweep vertices links done state) (hsize : (linked links).card < u64Size) {fuel : ℕ}
    (hfuel : vertices.card ≤ done.card + fuel) :
    ∃ done' state', rankLoop (childsOf links) fuel state = some state'.ranks ∧
      state'.updates = [] ∧ Sweep vertices links done' state' := by
  induction fuel generalizing done state with
  | zero =>
      cases hupdates : state.updates with
      | nil => exact ⟨done, state, rankLoop_nil hupdates, hupdates, h⟩
      | cons u rest =>
          have := h.card_lt (u := u) (by simp [hupdates])
          omega
  | succ fuel ih =>
      cases hupdates : state.updates with
      | nil => exact ⟨done, state, rankLoop_nil hupdates, hupdates, h⟩
      | cons u rest =>
          have hcard : (insert u done).card = done.card + 1 :=
            Finset.card_insert_of_notMem (h.fresh u (by simp [hupdates]))
          rw [rankLoop_cons hupdates]
          exact ih (h.round hupdates hsize) (by omega)

theorem mem_done (h : Sweep vertices links done state) (hend : state.updates = [])
    (hv : v ∈ vertices) : v ∈ done ↔ Layering.Grounded (fun u v => (u, v) ∈ links) v := by
  have hready : ∀ v, v ∈ done ↔ v ∈ vertices ∧ ∀ u, (u, v) ∈ links → u ∈ done := by
    simpa [hend] using h.ready
  refine ⟨h.grounded v, fun hgrounded => ?_⟩
  have hacc := hgrounded.acc vertices fun u v hlink => (h.links_mem u v hlink).1
  induction hacc with
  | intro v _ ih =>
      refine (hready v).mpr ⟨hv, fun u hlink => ?_⟩
      exact ih u hlink (h.links_mem u v hlink).1 (hgrounded.parent hlink)

end Sweep

/-! ## The rounds -/

/-- The vertices that the loop takes off the worklist in its first `fuel` rounds, each with the state
it is taken from. -/
def rankRounds (childs : ℕ → Finset ℕ) : ℕ → RankState → List (ℕ × RankState)
  | fuel, state =>
      match state.updates with
      | [] => []
      | u :: rest =>
          match fuel with
          | 0 => []
          | fuel + 1 => (u, state) :: rankRounds childs fuel (rankRound childs u rest state)

/-- No call of `ensure_after` in the round of `u` increments the largest number there is. -/
def NoWrap (childs : ℕ → Finset ℕ) (u : ℕ) (state : RankState) : Prop :=
  ∀ before c after, ascending (childs u) = before ++ c :: after →
    (before.foldl (ensureChild u) state.ranks u).value + 1 < u64Size

namespace Sweep

variable {vertices done : Finset ℕ} {state : RankState}

theorem noWrap (h : Sweep vertices links done state) (hu : u ∈ state.updates)
    (hsize : (linked links).card < u64Size) : NoWrap (childsOf links) u state := by
  intro before c after hchilds
  have hlink : ∀ d ∈ before ++ c :: after, (u, d) ∈ links := fun d hd => by
    rw [← hchilds] at hd
    simpa using hd
  have hsmall : (state.ranks u).value + 1 < u64Size :=
    lt_of_le_of_lt (h.rank_lt (linked_of_link (hlink c (by simp))).1) hsize
  have hself : u ∉ before := fun hin =>
    h.not_link_of_mem hu (.inl hu) (hlink u (List.mem_append_left _ hin))
  rwa [foldl_ensureChild before hself _ (fun _ _ => hsmall), if_neg hself]

theorem rounds (h : Sweep vertices links done state) (hsize : (linked links).card < u64Size)
    (fuel : ℕ) :
    ((rankRounds (childsOf links) fuel state).map Prod.fst).Nodup ∧
      ∀ e ∈ rankRounds (childsOf links) fuel state,
        e.1 ∉ done ∧ NoWrap (childsOf links) e.1 e.2 := by
  induction fuel generalizing done state with
  | zero =>
      rw [rankRounds.eq_def]
      cases hupdates : state.updates <;> simp [hupdates]
  | succ fuel ih =>
      rw [rankRounds]
      cases hupdates : state.updates with
      | nil => simp
      | cons u rest =>
          have hu : u ∈ state.updates := by simp [hupdates]
          obtain ⟨hnodup, hrest⟩ := ih (h.round hupdates hsize)
          refine ⟨List.nodup_cons.mpr ⟨fun hin => ?_, hnodup⟩, fun e he => ?_⟩
          · obtain ⟨e, he, rfl⟩ := List.mem_map.mp hin
            exact (hrest e he).1 (Finset.mem_insert_self _ _)
          · rcases List.mem_cons.mp he with rfl | he
            · exact ⟨h.fresh u hu, h.noWrap hu hsize⟩
            · exact ⟨fun hdone => (hrest e he).1 (Finset.mem_insert_of_mem hdone), (hrest e he).2⟩

end Sweep

/-! ## Cluster ranks -/

variable {manager : NodeManager}

theorem mem_clusterLinks {c d : ID} : (c, d) ∈ manager.clusterLinks ↔
    ∃ x ∈ manager.nodes, ∃ y ∈ (manager.heap x).childs,
      (manager.heap x).clusterId = c ∧ (manager.heap y).clusterId = d := by
  simp only [clusterLinks, List.mem_flatMap, List.mem_map, Prod.mk.injEq]

theorem clusterId_le_maxId {x : ℕ} (hx : x ∈ manager.nodes) :
    (manager.heap x).clusterId ≤ manager.maxId := by
  have hle : ∀ (l : List ℕ) (start : ID),
      start ≤ l.foldl (fun maxId node => max maxId (manager.heap node).clusterId) start ∧
        ∀ x ∈ l, (manager.heap x).clusterId ≤
          l.foldl (fun maxId node => max maxId (manager.heap node).clusterId) start := by
    intro l
    induction l with
    | nil => simp
    | cons y l ih =>
        intro start
        obtain ⟨hstart, hall⟩ := ih (max start (manager.heap y).clusterId)
        refine ⟨(le_max_left _ _).trans hstart, fun x hx => ?_⟩
        rcases List.mem_cons.mp hx with rfl | hx
        · exact (le_max_right _ _).trans hstart
        · exact hall x hx
  exact (hle manager.nodes 0).2 x hx

theorem SplitInto.linksRegistered {split : NodeManager} (h : manager.SplitInto split)
    (hreg : manager.LinksRegistered) : split.LinksRegistered := by
  constructor <;> intro x hx c hc <;> rw [h.nodes] at hx ⊢ <;> rw [h.heap x] at hc
  · exact hreg.childs x hx c hc
  · exact hreg.sameClusters x hx c hc

/-- The rank of a cluster, as the planners look it up. -/
def clusterRank (manager : NodeManager) (c : ID) : ℕ :=
  (manager.clusterRanks[c]?.getD Rank.zero).value

/-- A link between clusters. -/
def CrossLink (manager : NodeManager) (c d : ID) : Prop :=
  (c, d) ∈ manager.clusterLinks ∧ c ≠ d

/-- No cluster that leads to `c`, itself included, has a link inside. -/
def Unblocked (manager : NodeManager) (c : ID) : Prop :=
  ∀ d, Relation.ReflTransGen manager.CrossLink d c → (d, d) ∉ manager.clusterLinks

theorem grounded_iff_unblocked (hacyclic : ∀ c, ¬ Relation.TransGen manager.CrossLink c c) (c : ID) :
    Layering.Grounded (fun c d => (c, d) ∈ manager.clusterLinks) c ↔ manager.Unblocked c := by
  have hcross : ∀ c d, Relation.ReflTransGen (fun c d => (c, d) ∈ manager.clusterLinks) c d ↔
      Relation.ReflTransGen manager.CrossLink c d := by
    intro c d
    constructor
    · intro h
      induction h with
      | refl => exact .refl
      | @tail b d _ hlink ih =>
          by_cases heq : b = d
          · exact heq ▸ ih
          · exact ih.tail ⟨hlink, heq⟩
    · exact fun h => h.lift id fun _ _ hlink => hlink.1
  simp only [Layering.Grounded, Unblocked, hcross]
  refine forall_congr' fun d => imp_congr_right fun _ => not_congr ?_
  refine ⟨fun hcycle => ?_, fun hself => .single hself⟩
  -- a cycle that leaves the cluster would be one of the links between clusters
  obtain ⟨e, hde, hed⟩ := Relation.TransGen.tail'_iff.mp hcycle
  by_cases heq : e = d
  · exact heq ▸ hed
  · exact absurd (Relation.TransGen.tail' ((hcross d e).mp hde) ⟨hed, heq⟩) (hacyclic d)

/-- The clusters that have a node. -/
def clustersInUse (manager : NodeManager) : Finset ID :=
  (manager.nodes.map fun x => (manager.heap x).clusterId).toFinset

theorem card_clustersInUse_le : manager.clustersInUse.card ≤ manager.nodes.length :=
  (List.toFinset_card_le _).trans (List.length_map _).le

/-- The state in which `generate_cluster_ranks` enters its loop. -/
def clusterStart (manager : NodeManager) : RankState where
  updates := ((List.range (manager.maxId + 1)).filter fun i =>
    parentsOf manager.clusterLinks i = ∅).reverse
  ranks := fun _ => Rank.zero
  parents := parentsOf manager.clusterLinks

section ClusterLoop

variable (hchilds : ∀ x ∈ manager.nodes, ∀ y ∈ (manager.heap x).childs, y ∈ manager.nodes)
include hchilds

theorem clusterLinks_inUse {c d : ID} (hlink : (c, d) ∈ manager.clusterLinks) :
    c ∈ manager.clustersInUse ∧ d ∈ manager.clustersInUse := by
  obtain ⟨x, hx, y, hy, rfl, rfl⟩ := mem_clusterLinks.mp hlink
  simp only [clustersInUse, List.mem_toFinset, List.mem_map]
  exact ⟨⟨x, hx, rfl⟩, ⟨y, hchilds x hx y hy, rfl⟩⟩

theorem linked_clusterLinks_subset : linked manager.clusterLinks ⊆ manager.clustersInUse := by
  intro c hc
  rcases mem_linked.mp hc with ⟨d, hlink | hlink⟩
  · exact (clusterLinks_inUse hchilds hlink).1
  · exact (clusterLinks_inUse hchilds hlink).2

theorem card_linked_clusterLinks_lt (hsize : manager.nodes.length < u64Size) :
    (linked manager.clusterLinks).card < u64Size :=
  calc
    (linked manager.clusterLinks).card ≤ manager.clustersInUse.card :=
      Finset.card_le_card (linked_clusterLinks_subset hchilds)
    _ ≤ manager.nodes.length := card_clustersInUse_le
    _ < u64Size := hsize

theorem sweep_clusterStart :
    Sweep (Finset.range (manager.maxId + 1)) manager.clusterLinks ∅ manager.clusterStart := by
  apply Sweep.start
  · intro c d hlink
    obtain ⟨x, hx, y, hy, rfl, rfl⟩ := mem_clusterLinks.mp hlink
    simp only [Finset.mem_range, Nat.lt_succ_iff]
    exact ⟨clusterId_le_maxId hx, clusterId_le_maxId (hchilds x hx y hy)⟩
  · exact List.nodup_reverse.mpr (List.nodup_range.filter _)
  · simp
  · exact fun _ _ => rfl

theorem exists_generateClusterRanks (hsize : manager.nodes.length < u64Size) {fuel : ℕ}
    (hfuel : manager.maxId + 1 ≤ fuel) :
    ∃ ranked, manager.generateClusterRanks fuel = some ranked ∧
      ranked.heap = manager.heap ∧ ranked.nodes = manager.nodes ∧
      ∀ c n, n < ranked.clusterRank c ↔
        ∃ d, Layering.Grounded (fun c d => (c, d) ∈ manager.clusterLinks) d ∧
          (d, c) ∈ manager.clusterLinks ∧ n ≤ ranked.clusterRank d := by
  have hstart := sweep_clusterStart hchilds
  have hlinks := hstart.links_mem
  obtain ⟨done, state, hrun, hend, hsweep⟩ :=
    hstart.run (card_linked_clusterLinks_lt hchilds hsize) (by simpa using hfuel)
  refine ⟨{ manager with clusterRanks := (List.range (manager.maxId + 1)).map state.ranks },
    ?_, rfl, rfl, ?_⟩
  · simp only [clusterStart] at hrun
    simp only [generateClusterRanks, hrun, Option.map_some]
  have hrank : ∀ c ≤ manager.maxId,
      clusterRank { manager with
        clusterRanks := (List.range (manager.maxId + 1)).map state.ranks } c =
        (state.ranks c).value := by
    intro c hc
    simp [clusterRank, Nat.lt_succ_of_le hc]
  intro c n
  by_cases hc : c ≤ manager.maxId
  case neg =>
    have hnone : ∀ d, (d, c) ∉ manager.clusterLinks := fun d hlink =>
      hc (Nat.lt_succ_iff.mp (Finset.mem_range.mp (hlinks d c hlink).2))
    simp [clusterRank, hnone, not_le.mp hc]
  rw [hrank c hc, hsweep.ranks c (Finset.mem_range.mpr (Nat.lt_succ_of_le hc))]
  refine exists_congr fun d => ⟨?_, ?_⟩
  · rintro ⟨hd, hlink, hle⟩
    have hd' := (hlinks d c hlink).1
    refine ⟨(hsweep.mem_done hend hd').mp hd, hlink, ?_⟩
    rwa [hrank d (Nat.lt_succ_iff.mp (Finset.mem_range.mp hd'))]
  · rintro ⟨hd, hlink, hle⟩
    have hd' := (hlinks d c hlink).1
    refine ⟨(hsweep.mem_done hend hd').mpr hd, hlink, ?_⟩
    rwa [hrank d (Nat.lt_succ_iff.mp (Finset.mem_range.mp hd'))] at hle

end ClusterLoop

/-- The ranks go up along every link between clusters. -/
def RanksIncrease (manager : NodeManager) : Prop :=
  ∀ x ∈ manager.nodes, ∀ y ∈ (manager.heap x).childs,
    (manager.heap x).clusterId ≠ (manager.heap y).clusterId →
      manager.clusterRank (manager.heap x).clusterId <
        manager.clusterRank (manager.heap y).clusterId

/-- The clusters that a link inside a cluster holds up are never treated, and their ranks count only
the chains of the others. -/
theorem generateClusterRanks_increase_iff (manager : NodeManager) (hreg : manager.LinksRegistered)
    (hsize : manager.nodes.length < u64Size) :
    ∃ split fuel ranked, manager.splitClusterByAssociates = some split ∧
      split.generateClusterRanks fuel = some ranked ∧
      ((∀ c, ¬ Relation.TransGen split.CrossLink c c) →
        (ranked.RanksIncrease ↔
          ∀ c d, split.CrossLink c d → split.Unblocked c ∨
            ∃ n, Layering.Chain split.CrossLink split.Unblocked n d ∧
              ¬ Layering.Chain split.CrossLink split.Unblocked n c)) := by
  obtain ⟨split, hsplit, hinto⟩ := exists_splitInto hreg
  obtain ⟨ranked, hranked, hheap, hnodes, hrank⟩ := exists_generateClusterRanks
    (hinto.linksRegistered hreg).childs (hinto.nodes ▸ hsize) le_rfl
  refine ⟨split, _, ranked, hsplit, hranked, fun hacyclic => ?_⟩
  have hlayer : ∀ c n, n < ranked.clusterRank c ↔
      ∃ d, split.Unblocked d ∧ split.CrossLink d c ∧ n ≤ ranked.clusterRank d := by
    intro c n
    rw [hrank]
    refine exists_congr fun d => ?_
    rw [grounded_iff_unblocked hacyclic]
    refine and_congr_right fun hd => and_congr_left fun _ => ⟨fun hlink => ⟨hlink, ?_⟩, And.left⟩
    rintro rfl
    exact hd d .refl hlink
  have hlt : ∀ c d, ranked.clusterRank c < ranked.clusterRank d ↔
      ∃ n, Layering.Chain split.CrossLink split.Unblocked n d ∧
        ¬ Layering.Chain split.CrossLink split.Unblocked n c :=
    fun c d => Layering.rank_lt_iff_chain hlayer
  have hincrease : ranked.RanksIncrease ↔
      ∀ c d, split.CrossLink c d → ranked.clusterRank c < ranked.clusterRank d := by
    simp only [RanksIncrease, hheap, hnodes, CrossLink, mem_clusterLinks]
    constructor
    · rintro h c d ⟨⟨x, hx, y, hy, rfl, rfl⟩, hne⟩
      exact h x hx y hy hne
    · exact fun h x hx y hy hne => h _ _ ⟨⟨x, hx, y, hy, rfl, rfl⟩, hne⟩
  rw [hincrease]
  refine forall₃_congr fun c d hlink => ⟨fun h => .inr ((hlt c d).mp h), ?_⟩
  rintro (hc | hchain)
  · exact (hlayer d _).mpr ⟨c, hc, hlink, le_rfl⟩
  · exact (hlt c d).mpr hchain

/-- A sink, two values of one cluster made one from the other, and a value of a second cluster made
from the latter of them. -/
def chainedCluster : NodeManager :=
  { empty with
    heap := fun x =>
      if x = 0 then { Node.new 0 with childs := [1] }
      else if x = 1 then { Node.new 1 with childs := [2] }
      else if x = 2 then { Node.new 1 with childs := [3] }
      else Node.new 2
    nodes := [0, 1, 2, 3]
    nodes_nodup := by decide }

theorem generateClusterRanks_increase_iff_chainedCluster :
    chainedCluster.LinksRegistered ∧ chainedCluster.nodes.length < u64Size ∧
    ∃ split fuel ranked, chainedCluster.splitClusterByAssociates = some split ∧
      split.generateClusterRanks fuel = some ranked ∧
      ((∀ c, ¬ Relation.TransGen split.CrossLink c c) →
        (ranked.RanksIncrease ↔
          ∀ c d, split.CrossLink c d → split.Unblocked c ∨
            ∃ n, Layering.Chain split.CrossLink split.Unblocked n d ∧
              ¬ Layering.Chain split.CrossLink split.Unblocked n c)) :=
  have hreg : chainedCluster.LinksRegistered := ⟨by decide, by decide⟩
  ⟨hreg, by decide, generateClusterRanks_increase_iff chainedCluster hreg (by decide)⟩

/-- The second cluster is never reached, and keeps the rank 0. -/
theorem not_ranksIncrease_chainedCluster :
    ∃ split fuel ranked, chainedCluster.splitClusterByAssociates = some split ∧
      split.generateClusterRanks fuel = some ranked ∧
      (∀ c, ¬ Relation.TransGen split.CrossLink c c) ∧ ¬ ranked.RanksIncrease := by
  have hlinks : chainedCluster.splitClusterByAssociates.map clusterLinks =
      some [(0, 1), (1, 1), (1, 2)] := by decide +kernel
  have hranks : (chainedCluster.splitClusterByAssociates.bind (generateClusterRanks · 3)).map
      (fun m => (m.nodes, (m.heap 2).childs, (m.heap 2).clusterId, (m.heap 3).clusterId,
        m.clusterRank 1, m.clusterRank 2)) = some ([0, 1, 2, 3], [3], 1, 2, 1, 0) := by
    decide +kernel
  obtain ⟨split, hsplit, hlinks⟩ := Option.map_eq_some_iff.mp hlinks
  rw [hsplit, Option.bind_some] at hranks
  obtain ⟨ranked, hranked, hvalues⟩ := Option.map_eq_some_iff.mp hranks
  simp only [Prod.mk.injEq] at hvalues
  obtain ⟨hnodes, hchilds, hid, hid', hrank, hrank'⟩ := hvalues
  refine ⟨split, 3, ranked, hsplit, hranked, fun c hcycle => ?_, fun hincrease => ?_⟩
  · have hlink : ∀ c d, split.CrossLink c d → c < d := by
      rintro c d ⟨hin, hne⟩
      rw [hlinks] at hin
      simp only [List.mem_cons, Prod.mk.injEq, List.not_mem_nil, or_false] at hin
      lia
    exact Layering.acyclic_of_lt id hlink c hcycle
  · have := hincrease 2 (by simp [hnodes]) 3 (by simp [hchilds])
    rw [hid, hid', hrank, hrank'] at this
    exact absurd (this (by decide)) (by decide)

end NodeManager

end Prf
