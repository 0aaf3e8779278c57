import ScriptFlow.Digraph.Frontier
import ScriptFlow.Proofs.Digraph.DominatorTree

/-! The frontier of a node holds what it does not strictly dominate though it dominates a predecessor
of it, and iterated frontiers are closed. -/

namespace ScriptFlow

namespace Frontiers

variable {v m n : Nat}

theorem of_add (fs : Frontiers) (v m x : Nat) :
    (fs.add v m).of x =
      if v = x ∧ v < fs.size ∧ m ∉ fs.of v then fs.of v ++ [m] else fs.of x := by
  simp only [of, add, Array.getD_eq_getD_getElem?, Array.getElem?_modify]
  grind

theorem size_add (fs : Frontiers) (v m : Nat) : (fs.add v m).size = fs.size := by
  simp [add]

theorem mem_of_add (fs : Frontiers) (v m x k : Nat) :
    k ∈ (fs.add v m).of x ↔ k ∈ fs.of x ∨ k = m ∧ v = x ∧ v < fs.size := by
  rw [of_add]
  grind

theorem addAll_spec (fs : Frontiers) (m : Nat) (vs : List Nat) :
    (vs.foldl (fun fs v => fs.add v m) fs).size = fs.size ∧
      ∀ x k, k ∈ Frontiers.of (vs.foldl (fun fs v => fs.add v m) fs) x ↔
        k ∈ fs.of x ∨ k = m ∧ x ∈ vs ∧ x < fs.size := by
  induction vs generalizing fs with
  | nil => simp
  | cons v vs ih =>
    obtain ⟨size, mem⟩ := ih (fs.add v m)
    refine ⟨size.trans (fs.size_add v m), fun x k => ?_⟩
    rw [List.foldl_cons, mem, mem_of_add, size_add]
    grind

theorem addTable_spec (fs : Frontiers) (sources : Nat → List Nat) (ms : List Nat) :
    (ms.foldl (fun fs m => (sources m).foldl (fun fs v => fs.add v m) fs) fs).size = fs.size ∧
      ∀ x k, k ∈ Frontiers.of
          (ms.foldl (fun fs m => (sources m).foldl (fun fs v => fs.add v m) fs) fs) x ↔
        k ∈ fs.of x ∨ k ∈ ms ∧ x ∈ sources k ∧ x < fs.size := by
  induction ms generalizing fs with
  | nil => simp
  | cons m ms ih =>
    obtain ⟨one_size, one_mem⟩ := addAll_spec fs m (sources m)
    obtain ⟨size, mem⟩ := ih ((sources m).foldl (fun fs v => fs.add v m) fs)
    refine ⟨size.trans one_size, fun x k => ?_⟩
    rw [List.foldl_cons, mem, one_mem, one_size]
    grind

/-! Iterated frontiers. -/

theorem lt_span {fs : Frontiers} (member : m ∈ fs.of v) : m < fs.span := by
  have listed : m ∈ fs.toList.flatten := by
    rw [of, Array.getD_eq_getD_getElem?] at member
    cases there : fs[v]? with
    | none => simp [there] at member
    | some ms =>
      rw [there] at member
      exact List.mem_flatten.mpr ⟨ms, (Array.mem_of_getElem? there).val, member⟩
  unfold span
  generalize fs.toList.flatten = ms at listed
  induction ms with
  | nil => cases listed
  | cons k ms ih =>
    rw [List.foldr_cons]
    grind

end Frontiers

namespace FrontierSearch

/-- The visits to come, at most: those of the nodes that wait, and of the nodes below `n` that never
did. -/
def weight (n : Nat) (s : FrontierSearch) : Nat :=
  s.pending.length + ((Finset.range n).filter (· ∉ s.queued)).card

theorem weight_meet (s : FrontierSearch) (below : m < n) : (s.meet m).weight n ≤ s.weight n := by
  unfold meet
  split
  · exact le_rfl
  · split
    · exact le_rfl
    · rename_i fresh
      rw [List.contains_iff_mem] at fresh
      have erased : (Finset.range n).filter (· ∉ m :: s.queued) =
          ((Finset.range n).filter (· ∉ s.queued)).erase m := by
        ext k
        simp only [Finset.mem_filter, Finset.mem_erase, List.mem_cons]
        tauto
      have member : m ∈ (Finset.range n).filter (· ∉ s.queued) :=
        Finset.mem_filter.mpr ⟨Finset.mem_range.mpr below, fresh⟩
      have one := Finset.card_erase_add_one member
      simp only [weight, erased, List.length_cons]
      omega

/-- The nodes of a frontier are found, and wait unless they have waited before. -/
theorem meetAll_spec (s : FrontierSearch) (ms : List Nat) (below : ∀ m ∈ ms, m < n)
    (queued : ∀ m ∈ s.found, m ∈ s.queued) (sorted : s.found.Pairwise (· < ·)) :
    (ms.foldl meet s).found.Pairwise (· < ·) ∧
      (∀ k, k ∈ (ms.foldl meet s).found ↔ k ∈ s.found ∨ k ∈ ms) ∧
      (∀ k, k ∈ (ms.foldl meet s).queued ↔ k ∈ s.queued ∨ k ∈ ms) ∧
      (∀ k, k ∈ (ms.foldl meet s).pending ↔ k ∈ s.pending ∨ k ∈ ms ∧ k ∉ s.queued) ∧
      (ms.foldl meet s).weight n ≤ s.weight n := by
  induction ms generalizing s with
  | nil => simp [sorted]
  | cons m ms ih =>
    have found (k : Nat) : k ∈ (s.meet m).found ↔ k ∈ s.found ∨ k = m := by
      unfold meet
      grind [mem_insertNat]
    have others (k : Nat) : (k ∈ (s.meet m).queued ↔ k ∈ s.queued ∨ k = m) ∧
        (k ∈ (s.meet m).pending ↔ k ∈ s.pending ∨ k = m ∧ k ∉ s.queued) := by
      have old := queued m
      unfold meet
      grind
    have sorted' : (s.meet m).found.Pairwise (· < ·) := by
      unfold meet
      grind [insertNat_sorted]
    obtain ⟨all_sorted, all_found, all_queued, all_pending, light⟩ := ih (s.meet m)
      (fun k member => below k (List.mem_cons_of_mem _ member))
      (fun k member => (others k).1.mpr (((found k).mp member).imp_left (queued k))) sorted'
    refine ⟨all_sorted, fun k => ?_, fun k => ?_, fun k => ?_,
      light.trans (s.weight_meet (below m List.mem_cons_self))⟩
    · rw [List.foldl_cons, all_found, found, List.mem_cons]
      tauto
    · rw [List.foldl_cons, all_queued, (others k).1, List.mem_cons]
      tauto
    · rw [List.foldl_cons, all_pending, (others k).1, (others k).2, List.mem_cons]
      tauto

end FrontierSearch

namespace Frontiers

/-- What holds all along a search from the seeds: a node that has waited and waits no longer has its
whole frontier among the nodes that were found. -/
structure Searching (fs : Frontiers) (seeds : List Nat) (s : FrontierSearch) : Prop where
  sorted : s.found.Pairwise (· < ·)
  seeded : ∀ v ∈ seeds, v ∈ s.queued
  queued : ∀ m ∈ s.found, m ∈ s.queued
  waiting : ∀ v ∈ s.pending, v ∈ seeds ∨ v ∈ s.found
  closed : ∀ v ∈ s.queued, v ∈ s.pending ∨ ∀ m ∈ fs.of v, m ∈ s.found
  least : ∀ P : Nat → Prop, (∀ v, v ∈ seeds ∨ P v → ∀ m ∈ fs.of v, P m) → ∀ m ∈ s.found, P m

theorem Searching.visit {fs : Frontiers} {seeds : List Nat} {s : FrontierSearch}
    {pending : List Nat} (searching : fs.Searching seeds s) (waits : s.pending = v :: pending) :
    fs.Searching seeds ((fs.of v).foldl FrontierSearch.meet { s with pending }) ∧
      ((fs.of v).foldl FrontierSearch.meet { s with pending }).weight fs.span + 1 ≤
        s.weight fs.span := by
  obtain ⟨sorted, found, queued, still, light⟩ := FrontierSearch.meetAll_spec { s with pending }
    (fs.of v) (fun m => lt_span) searching.queued searching.sorted
  have source : v ∈ seeds ∨ v ∈ s.found := searching.waiting v (by simp [waits])
  refine ⟨⟨sorted, fun u seed => (queued u).mpr (.inl (searching.seeded u seed)), fun m member => ?_,
    fun u member => ?_, fun u member => ?_, fun P closed m member => ?_⟩, ?_⟩
  · exact (queued m).mpr (((found m).mp member).imp_left (searching.queued m))
  · rw [found]
    rcases (still u).mp member with old | ⟨new, _⟩
    · exact (searching.waiting u (by simp [waits, old])).imp_right .inl
    · exact .inr (.inr new)
  · simp only [still, found]
    by_cases old : u ∈ s.queued
    · rcases searching.closed u old with waited | done
      · rw [waits, List.mem_cons] at waited
        rcases waited with rfl | later
        · exact .inr fun m => .inr
        · exact .inl (.inl later)
      · exact .inr fun m frontier => .inl (done m frontier)
    · exact .inl (.inr ⟨((queued u).mp member).resolve_left old, old⟩)
  · rcases (found m).mp member with old | new
    · exact searching.least P closed m old
    · exact closed v (source.imp_right (searching.least P closed v)) m new
  · have here : s.weight fs.span = ({ s with pending } : FrontierSearch).weight fs.span + 1 := by
      simp only [FrontierSearch.weight, waits, List.length_cons]
      omega
    rw [here]
    exact Nat.succ_le_succ light

theorem Searching.iterate {fs : Frontiers} {seeds : List Nat} {s : FrontierSearch} {fuel : Nat}
    (searching : fs.Searching seeds s) (enough : s.weight fs.span ≤ fuel) :
    fs.Searching seeds (fs.iterate fuel s) ∧ (fs.iterate fuel s).pending = [] := by
  induction fuel generalizing s with
  | zero =>
    have none : s.pending.length = 0 := by
      unfold FrontierSearch.weight at enough
      omega
    exact ⟨searching, List.eq_nil_of_length_eq_zero none⟩
  | succ fuel ih =>
    unfold Frontiers.iterate
    split
    · rename_i none
      exact ⟨searching, none⟩
    · rename_i waits
      obtain ⟨next, light⟩ := searching.visit waits
      exact ih next (by omega)

/-- The search ends with no node left to visit. -/
theorem search_spec (fs : Frontiers) (seeds : List Nat) :
    fs.Searching seeds (fs.search seeds) ∧ (fs.search seeds).pending = [] := by
  refine Searching.iterate ⟨.nil, fun v seed => seed, fun m none => absurd none List.not_mem_nil,
    fun v waits => .inl (List.mem_reverse.mp waits), fun v seed => .inl (List.mem_reverse.mpr seed),
    fun P _ m none => absurd none List.not_mem_nil⟩ ?_
  have few := Finset.card_filter_le (Finset.range fs.span) (· ∉ seeds)
  simp only [FrontierSearch.weight, List.length_reverse]
  rw [Finset.card_range] at few
  omega

/-- Iterated frontiers hold the frontiers of the seeds and of their own members, and nothing else. -/
theorem iterated_spec (fs : Frontiers) (seeds : List Nat) :
    (∀ v, v ∈ seeds ∨ v ∈ fs.iterated seeds → ∀ m ∈ fs.of v, m ∈ fs.iterated seeds) ∧
      ∀ P : Nat → Prop, (∀ v, v ∈ seeds ∨ P v → ∀ m ∈ fs.of v, P m) →
        ∀ m ∈ fs.iterated seeds, P m := by
  obtain ⟨searching, done⟩ := fs.search_spec seeds
  refine ⟨fun v source => ?_, searching.least⟩
  have waited := source.elim (searching.seeded v) (searching.queued v)
  refine (searching.closed v waited).resolve_left fun waits => ?_
  rw [done] at waits
  cases waits

end Frontiers

namespace Digraph

variable {g : Digraph} {entry : Nat}

theorem frontiers_spec (g : Digraph) (t : DominatorTree) :
    (g.frontiers t).size = g.size ∧
      ∀ v m, m ∈ (g.frontiers t).of v ↔ m < g.size ∧ v ∈ g.frontierSources t m ∧ v < g.size := by
  obtain ⟨size, mem⟩ := Frontiers.addTable_spec (Array.replicate g.size [])
    (g.frontierSources t) (List.range g.size)
  have none (v : Nat) : Frontiers.of (Array.replicate g.size []) v = [] := by
    simp only [Frontiers.of, Array.getD_eq_getD_getElem?, Array.getElem?_replicate]
    grind
  refine ⟨by simpa [frontiers] using size, fun v m => ?_⟩
  rw [frontiers, mem, none]
  simp

/-- A reached node other than the entry is entered from one that is reached without it. -/
theorem Reach.entered {ok : Nat → Prop} {w : Nat} (reach : g.Reach entry ok w) (other : w ≠ entry) :
    ∃ u, g.Reach entry (fun x => ok x ∧ x ≠ w) u ∧ w ∈ g.successors u := by
  have before {v : Nat} (reach : g.Reach entry ok v) : g.Reach entry (fun x => ok x ∧ x ≠ w) v ∨
      ∃ u, g.Reach entry (fun x => ok x ∧ x ≠ w) u ∧ w ∈ g.successors u := by
    induction reach with
    | start h => exact .inl (.start ⟨h, Ne.symm other⟩)
    | @step v x _ edge h ih =>
      refine ih.elim (fun avoiding => ?_) .inr
      by_cases here : x = w
      · exact .inr ⟨v, avoiding, here ▸ edge⟩
      · exact .inl (.step avoiding edge ⟨h, here⟩)
  exact (before reach).resolve_left fun avoiding => avoiding.holds.2 rfl

section

variable (rooted : g.Rooted entry)

include rooted

/-- Only the parent of a node can be its only reached predecessor. -/
theorem two_preds {w q : Nat} (reached : g.Reached entry v) (edge : w ∈ g.successors v)
    (parent : (g.dominators entry).parent? w = some q) (other : v ≠ q) :
    2 ≤ ((g.predecessors w).filter (g.dominators entry).isReached).length := by
  obtain ⟨w_reached, q_dom, closest⟩ := parent_closest rooted parent
  have not_entry : w ≠ entry := by
    rintro rfl
    exact not_strictlyDominates_entry rooted.inside q q_dom
  have pred_mem {u : Nat} (u_reached : g.Reached entry u) (to_w : w ∈ g.successors u) :
      u ∈ (g.predecessors w).filter (g.dominators entry).isReached :=
    List.mem_filter.mpr ⟨(rooted.symm u w).mpr to_w, (isReached_iff rooted.inside).mpr u_reached⟩
  by_contra few
  have only {u : Nat} (u_reached : g.Reached entry u) (to_w : w ∈ g.successors u) : u = v := by
    have u_mem := pred_mem u_reached to_w
    have v_mem := pred_mem reached edge
    generalize (g.predecessors w).filter (g.dominators entry).isReached = preds
      at few u_mem v_mem
    obtain ⟨p, rfl⟩ : ∃ p, preds = [p] :=
      List.length_eq_one_iff.mp (by have := List.length_pos_of_mem u_mem; omega)
    rw [List.mem_singleton.mp u_mem, List.mem_singleton.mp v_mem]
  have v_ne_w : v ≠ w := by
    obtain ⟨u, avoiding, to_w⟩ := w_reached.entered not_entry
    rw [← only (avoiding.mono fun _ h => h.1) to_w]
    exact avoiding.holds.2
  have v_dom : g.StrictlyDominates entry v w := by
    refine ⟨v_ne_w, fun avoiding => ?_⟩
    cases avoiding with
    | start _ => exact not_entry rfl
    | step before to_w _ => exact before.holds.2 (only (before.mono fun _ h => h.1) to_w)
  have v_above_q := (closest v v_dom).resolve_left other
  have q_above_v := (q_dom.of_edge w_reached.holds edge).resolve_left (Ne.symm other)
  have q_reached := q_dom.reached w_reached
  exact absurd (v_above_q.rank_lt rooted.inside q_reached)
    (Nat.not_lt.mpr (Nat.le_of_lt (q_above_v.rank_lt rooted.inside reached)))

/-- Below one of its dominators `q`, the chain of a node holds its dominators that do not dominate
`q`. -/
theorem mem_takeWhile_chainFrom (fuel : Nat) {q x : Nat} (reached : g.Reached entry v)
    (above : q ∈ (g.dominators entry).chainFrom fuel v) :
    x ∈ ((g.dominators entry).chainFrom fuel v).takeWhile (· ≠ q) ↔
      x ∈ (g.dominators entry).chainFrom fuel v ∧ ¬g.Dominates entry x q := by
  induction fuel generalizing v with
  | zero =>
    rw [DominatorTree.chainFrom, List.mem_singleton] at above
    subst above
    have itself (same : x = q) : g.Dominates entry x q := .inl same
    simpa [DominatorTree.chainFrom] using itself
  | succ fuel ih =>
    have dominates {y : Nat} := dominates_of_mem_chainFrom rooted (fuel + 1) (a := y) reached
    by_cases same : v = q
    · subst same
      have none : ((g.dominators entry).chainFrom (fuel + 1) v).takeWhile (· ≠ v) = [] := by
        unfold DominatorTree.chainFrom
        split <;> simp
      rw [none]
      simpa using fun member => dominates member
    · have q_above := (dominates above).resolve_left (Ne.symm same)
      have not_back : ¬g.Dominates entry v q := by
        rintro (rfl | back)
        · exact same rfl
        · have down := q_above.rank_lt rooted.inside reached
          have up := back.rank_lt rooted.inside (q_above.reached reached)
          omega
      unfold DominatorTree.chainFrom at above ⊢
      split at above
      · rename_i p parent
        have rest := ih (reached_parent rooted parent)
          ((List.mem_cons.mp above).resolve_left (Ne.symm same))
        rw [List.takeWhile_cons_of_pos (by simpa using same), List.mem_cons, List.mem_cons, rest]
        grind
      · exact absurd (List.mem_singleton.mp above).symm same

theorem mem_frontierSources : n ∈ g.frontierSources (g.dominators entry) m ↔
    g.Reached entry m ∧ 2 ≤ ((g.predecessors m).filter (g.dominators entry).isReached).length ∧
      ∃ p, g.Reached entry p ∧ m ∈ g.successors p ∧ n ∈ ((g.dominators entry).chain p).takeWhile
        fun v => (g.dominators entry).parent? m != some v := by
  unfold frontierSources
  dsimp only
  split
  · rename_i joins
    rw [Bool.and_eq_true, isReached_iff rooted.inside, decide_eq_true_iff] at joins
    simp only [joins, true_and, List.mem_flatMap, List.mem_filter, isReached_iff rooted.inside,
      rooted.symm]
    grind
  · rename_i apart
    rw [Bool.and_eq_true, isReached_iff rooted.inside, decide_eq_true_iff] at apart
    simp only [List.not_mem_nil, false_iff]
    exact fun ⟨reached, joins, _⟩ => apart ⟨reached, joins⟩

/-- A node has in its frontier what it does not strictly dominate, though it dominates a predecessor
of it. Only the entry has to have two reached predecessors for that. -/
theorem mem_frontiers_iff : m ∈ (g.frontiers (g.dominators entry)).of n ↔
    g.Reached entry m ∧
      (∃ p, g.Reached entry p ∧ m ∈ g.successors p ∧ g.Dominates entry n p) ∧
      ¬g.StrictlyDominates entry n m ∧
      (m = entry → 2 ≤ ((g.predecessors m).filter (g.dominators entry).isReached).length) := by
  rw [(g.frontiers_spec (g.dominators entry)).2, mem_frontierSources rooted]
  by_cases root : m = entry
  · -- nothing is above the entry, so that the whole chains count
    subst root
    have whole (p : Nat) : ((g.dominators m).chain p).takeWhile
        (fun v => (g.dominators m).parent? m != some v) = (g.dominators m).chain p := by
      rw [parent?_entry rooted]
      exact List.takeWhile_eq_self_iff.mpr fun _ _ => rfl
    simp only [whole]
    constructor
    · rintro ⟨_, ⟨reached, joins, p, p_reached, edge, member⟩, _⟩
      exact ⟨reached, ⟨p, p_reached, edge, (mem_chain_iff rooted p_reached).mp member⟩,
        not_strictlyDominates_entry rooted.inside n, fun _ => joins⟩
    · rintro ⟨reached, ⟨p, p_reached, edge, dom⟩, _, joins⟩
      exact ⟨reached.holds, ⟨reached, joins trivial, p, p_reached, edge,
        (mem_chain_iff rooted p_reached).mpr dom⟩, (dom.reached p_reached).holds⟩
  · by_cases m_reached : g.Reached entry m
    · obtain ⟨q, parent⟩ := exists_parent rooted m_reached root
      have below {p : Nat} (p_reached : g.Reached entry p) (edge : m ∈ g.successors p) :
          n ∈ ((g.dominators entry).chain p).takeWhile
              (fun v => (g.dominators entry).parent? m != some v) ↔
            g.Dominates entry n p ∧ ¬g.Dominates entry n q := by
        have same : (fun v => (g.dominators entry).parent? m != some v) = fun v => decide (v ≠ q) := by
          funext y
          rw [parent]
          grind
        rw [same, ← mem_chain_iff rooted p_reached]
        exact mem_takeWhile_chainFrom rooted _ p_reached (parent_mem_chain rooted parent p_reached edge)
      rw [strictlyDominates_iff_parent rooted parent]
      constructor
      · rintro ⟨_, ⟨_, _, p, p_reached, edge, member⟩, _⟩
        obtain ⟨dom, short⟩ := (below p_reached edge).mp member
        exact ⟨m_reached, ⟨p, p_reached, edge, dom⟩, short, fun h => absurd h root⟩
      · rintro ⟨_, ⟨p, p_reached, edge, dom⟩, short, _⟩
        have other : p ≠ q := by
          rintro rfl
          exact short dom
        exact ⟨m_reached.holds, ⟨m_reached, two_preds rooted p_reached edge parent other, p, p_reached,
          edge, (below p_reached edge).mpr ⟨dom, short⟩⟩, (dom.reached p_reached).holds⟩
    · simp [m_reached]

-- the entry is in no frontier if the only edge to it is a loop
example : let g := ofEdges 1 [(0, 0)]; (g.frontiers (g.dominators 0)).of 0 = [] := by decide +kernel

/-- Every node from `v` up to the parent of its successor `w` has `w` in its frontier. -/
theorem mem_frontier_of_chain {w q x : Nat} (reached : g.Reached entry v)
    (edge : w ∈ g.successors v) (parent : (g.dominators entry).parent? w = some q)
    (below : x ∈ ((g.dominators entry).chain v).takeWhile (· ≠ q)) :
    w ∈ (g.frontiers (g.dominators entry)).of x := by
  obtain ⟨w_reached, other, _, closest⟩ := (parent?_eq_some_iff rooted).mp parent
  obtain ⟨member, short⟩ := (mem_takeWhile_chainFrom rooted _ reached
    (parent_mem_chain rooted parent reached edge)).mp below
  exact (mem_frontiers_iff rooted).mpr ⟨w_reached,
    ⟨v, reached, edge, (mem_chain_iff rooted reached).mp member⟩,
    fun strict => short (closest x strict), fun root => absurd root other⟩

theorem reached_of_mem_iterated {seeds : List Nat}
    (member : m ∈ (g.frontiers (g.dominators entry)).iterated seeds) : g.Reached entry m :=
  (Frontiers.iterated_spec _ seeds).2 _ (fun _ _ _ frontier => ((mem_frontiers_iff rooted).mp frontier).1)
    m member

end

end Digraph

end ScriptFlow
