import Mathlib.Order.Bounds.Basic
import ScriptFlow.Proofs.Digraph.Frontier
import ScriptFlow.Proofs.Digraph.Paths

/-! Iterated frontiers are where paths from different nodes meet for the first time. -/

namespace ScriptFlow.Digraph

variable {a u z : Nat}
variable {g : Digraph} {entry : Nat}

/-- Two paths of one edge or more, from `a` and from `b`, end in `z` and have no other node in common. -/
def MeetAt (g : Digraph) (a b z : Nat) : Prop :=
  ∃ first second, g.IsPath a z first ∧ g.IsPath b z second ∧ 2 ≤ first.length ∧ 2 ≤ second.length ∧
    ∀ v ∈ first, v ∈ second → v = z

theorem IsPath.exists_last {c : Nat} {path : List Nat} (is_path : g.IsPath a c path)
    (long : 2 ≤ path.length) :
    ∃ init b, path = init ++ [c] ∧ g.IsPath a b init ∧ c ∈ g.successors b := by
  obtain ⟨init, rfl⟩ := List.getLast?_eq_some_iff.mp is_path.last
  rcases List.eq_nil_or_concat init with rfl | ⟨front, b, rfl⟩
  · simp at long
  · obtain ⟨chain, -, edges⟩ := List.isChain_append.mp is_path.chain
    refine ⟨_, b, rfl, ⟨chain, fun x member => is_path.inside x (List.mem_append_left _ member), ?_,
      by simp⟩, edges b (by simp) c (by simp)⟩
    rw [← is_path.first, List.head?_append_of_ne_nil _ (by simp)]

/-- On a way to a node, every node is reached in the same manner. -/
theorem Reach.along {ok : Nat → Prop} {v : Nat} (reach : g.Reach entry ok v) :
    g.Reach entry (g.Reach entry ok) v := by
  induction reach with
  | start h => exact .start (.start h)
  | step reach edge h ih => exact .step ih edge (.step reach edge h)

/-- A node leads to what it dominates over nodes that it dominates. -/
theorem Dominates.reach {n v : Nat} (dom : g.Dominates entry n v) (reached : g.Reached entry v) :
    g.Reach n (fun w => w < g.size ∧ g.Dominates entry n w) v := by
  induction reached with
  | start inside =>
    obtain rfl := dom.resolve_right (not_strictlyDominates_entry inside n)
    exact .start ⟨inside, .inl rfl⟩
  | step _ edge inside ih =>
    rcases dom with rfl | strict
    · exact .start ⟨inside, .inl rfl⟩
    · exact .step (ih (strict.of_edge inside edge)) edge ⟨inside, .inr strict⟩

/-- A dominator of the end of a way that the way does not pass dominates its start. -/
theorem StrictlyDominates.of_reach {d : Nat} {ok : Nat → Prop}
    (dom : g.StrictlyDominates entry d z) (reach : g.Reach a ok u) (edge : z ∈ g.successors u)
    (inside : z < g.size) (start : ok a) (away : ∀ v, ok v → v < g.size ∧ v ≠ d) :
    g.StrictlyDominates entry d a :=
  ⟨(away a start).2.symm, fun around =>
    dom.2 (.step (around.trans (reach.mono away)) edge ⟨inside, dom.1.symm⟩)⟩

section

variable (rooted : g.Rooted entry) (source : g.predecessors entry = [])

include rooted source

theorem ne_entry_of_edge (edge : z ∈ g.successors u) : z ≠ entry := by
  rintro rfl
  simpa [source] using (rooted.symm u z).mpr edge

theorem mem_frontiers_of_edge {n : Nat} (reached : g.Reached entry u) (inside : z < g.size)
    (edge : z ∈ g.successors u) (dom : g.Dominates entry n u) :
    z ∈ (g.frontiers (g.dominators entry)).of n ↔ ¬g.StrictlyDominates entry n z := by
  rw [mem_frontiers_iff rooted]
  exact ⟨fun h => h.2.2.1, fun loose => ⟨.step reached edge inside, ⟨u, reached, edge, dom⟩, loose,
    fun root => absurd root (ne_entry_of_edge rooted source edge)⟩⟩

/-- A node and the entry lead to what is in the frontier of the node, on separate ways. -/
theorem meetAt_of_mem_frontiers {n : Nat} (frontier : z ∈ (g.frontiers (g.dominators entry)).of n) :
    n ≠ entry ∧ g.MeetAt n entry z := by
  obtain ⟨reached, ⟨p, p_reached, edge, dom⟩, loose, -⟩ := (mem_frontiers_iff rooted).mp frontier
  have other := ne_entry_of_edge rooted source edge
  have around : ∃ u, g.ReachedAvoiding entry n u ∧ z ∈ g.successors u := by
    by_cases same : n = z
    · exact same ▸ reached.entered other
    · have avoiding : g.ReachedAvoiding entry n z := by
        by_contra none
        exact loose ⟨same, none⟩
      cases avoiding with
      | start _ => exact absurd rfl other
      | step before last _ => exact ⟨_, before, last⟩
  obtain ⟨u, avoiding, last⟩ := around
  -- one path stays below the node, and no node of the other one is below it
  obtain ⟨first, first_path, below⟩ := (reach_iff_path fun _ h => h.1).mp (dom.reach p_reached)
  obtain ⟨second, second_path, beside⟩ := (reach_iff_path fun _ h => h.holds.1).mp avoiding.along
  have long {a b : Nat} {path : List Nat} (is_path : g.IsPath a b path) :
      2 ≤ (path ++ [z]).length := by
    have := List.length_pos_of_mem (List.mem_of_getLast? is_path.last)
    rw [List.length_append, List.length_singleton]
    omega
  refine ⟨?_, first ++ [z], second ++ [z], first_path.snoc edge reached.holds,
    second_path.snoc last reached.holds, long first_path, long second_path, fun v left right => ?_⟩
  · rintro rfl
    exact loose (strictlyDominates_of_entry other)
  · rcases List.mem_append.mp left with left | left
    · rcases List.mem_append.mp right with right | right
      · have free := beside v right
        exact ((below v left).2.elim free.holds.2.symm fun strict => strict.2 free).elim
      · exact List.mem_singleton.mp right
    · exact List.mem_singleton.mp left

variable {T : Nat → Prop} (closed : ∀ v, T v → ∀ m ∈ (g.frontiers (g.dominators entry)).of v, T m)

include closed

/-- On every way from a node of a set closed under frontiers there is one that dominates its end. -/
theorem exists_dominator_along {ok : Nat → Prop} (within : ∀ v, ok v → v < g.size)
    (member : T a) (reached : g.Reached entry a) (reach : g.Reach a ok u) :
    ∃ d, T d ∧ ok d ∧ g.Dominates entry d u ∧ g.Reach d ok u := by
  induction reach with
  | start h => exact ⟨a, member, h, .inl rfl, .start h⟩
  | @step v w reach edge h ih =>
    obtain ⟨d, d_member, d_ok, dom, tail⟩ := ih
    by_cases strict : g.StrictlyDominates entry d w
    · exact ⟨d, d_member, d_ok, .inr strict, .step tail edge h⟩
    · have frontier := (mem_frontiers_of_edge rooted source (reached.trans (reach.mono within))
        (within w h) edge dom).mpr strict
      exact ⟨w, closed d d_member w frontier, h, .inl rfl, .start h⟩

/-- Where paths from two nodes of the set meet is a frontier of a node of the set. -/
theorem exists_frontier_of_meetAt {b : Nat} (a_member : T a) (a_reached : g.Reached entry a)
    (b_member : T b) (b_reached : g.Reached entry b) (meet : g.MeetAt a b z) :
    ∃ d, T d ∧ z ∈ (g.frontiers (g.dominators entry)).of d := by
  obtain ⟨_, _, first_path, second_path, first_long, second_long, only⟩ := meet
  obtain ⟨first, u, rfl, to_u, u_edge⟩ := first_path.exists_last first_long
  obtain ⟨second, v, rfl, to_v, v_edge⟩ := second_path.exists_last second_long
  have inside : z < g.size := first_path.inside z (by simp)
  have along {x w : Nat} {path : List Nat} (is_path : g.IsPath x w path) :
      g.Reach x (fun y => y < g.size ∧ y ∈ path) w :=
    (reach_iff_path fun _ h => h.1).mpr ⟨path, is_path, fun y h => ⟨is_path.inside y h, h⟩⟩
  obtain ⟨c, c_member, c_on, c_dom, c_way⟩ :=
    exists_dominator_along rooted source closed (fun _ h => h.1) a_member a_reached (along to_u)
  obtain ⟨d, d_member, d_on, d_dom, d_way⟩ :=
    exists_dominator_along rooted source closed (fun _ h => h.1) b_member b_reached (along to_v)
  by_contra missing
  have above {x w : Nat} (member : T x) (dom : g.Dominates entry x w) (reached : g.Reached entry w)
      (edge : z ∈ g.successors w) : g.StrictlyDominates entry x z := by
    by_contra loose
    exact missing ⟨x, member,
      (mem_frontiers_of_edge rooted source reached inside edge dom).mpr loose⟩
  have u_reached := a_reached.trans ((along to_u).mono fun _ h => h.1)
  have v_reached := b_reached.trans ((along to_v).mono fun _ h => h.1)
  have c_above := above c_member c_dom u_reached u_edge
  have d_above := above d_member d_dom v_reached v_edge
  -- neither path passes the dominator on the other one, so that these two dominate each other
  have c_below : g.StrictlyDominates entry d c := by
    refine d_above.of_reach c_way u_edge inside c_on fun y h => ⟨h.1, ?_⟩
    rintro rfl
    exact d_above.1 (only y (by simp [h.2]) (by simp [d_on.2]))
  have d_below : g.StrictlyDominates entry c d := by
    refine c_above.of_reach d_way v_edge inside d_on fun y h => ⟨h.1, ?_⟩
    rintro rfl
    exact c_above.1 (only y (by simp [c_on.2]) (by simp [h.2]))
  have down := c_below.rank_lt rooted.inside (c_dom.reached u_reached)
  have up := d_below.rank_lt rooted.inside (d_dom.reached v_reached)
  omega

end

/-- The search along frontiers visits every node that waits, and iterated frontiers are the least set
that holds the frontiers of the seeds and of its own members. If the seeds are reached and the entry, to
which no edge leads, is one of them, they are also the least set that holds all places where paths from
different seeds or members of it meet. -/
theorem iterated_isLeast :
    (∀ (fs : Frontiers) (seeds : List Nat), (fs.search seeds).pending = [] ∧
      (fs.iterated seeds).Pairwise (· < ·) ∧
      IsLeast {R : Set Nat | ∀ v, v ∈ seeds ∨ v ∈ R → ∀ m ∈ fs.of v, m ∈ R}
        {m | m ∈ fs.iterated seeds}) ∧
    ∀ (g : Digraph) (entry : Nat) (seeds : List Nat), g.Rooted entry → g.predecessors entry = [] →
      entry ∈ seeds → (∀ v ∈ seeds, g.Reached entry v) →
      IsLeast {R : Set Nat | ∀ a b z, a ∈ seeds ∨ a ∈ R → b ∈ seeds ∨ b ∈ R → a ≠ b →
          g.MeetAt a b z → z ∈ R}
        {m | m ∈ (g.frontiers (g.dominators entry)).iterated seeds} := by
  refine ⟨fun fs seeds => ?_, fun g entry seeds rooted source seed reached => ?_⟩
  · obtain ⟨searching, done⟩ := fs.search_spec seeds
    exact ⟨done, searching.sorted, (fs.iterated_spec seeds).1, (fs.iterated_spec seeds).2⟩
  · obtain ⟨closed, least⟩ := (g.frontiers (g.dominators entry)).iterated_spec seeds
    have all_reached (v : Nat) (member : v ∈ seeds ∨
        v ∈ (g.frontiers (g.dominators entry)).iterated seeds) : g.Reached entry v :=
      member.elim (reached v) (reached_of_mem_iterated rooted)
    refine ⟨fun a b z a_member b_member other meet => ?_, fun R joins => ?_⟩
    · obtain ⟨d, member, frontier⟩ := exists_frontier_of_meetAt rooted source
        (T := fun v => v ∈ seeds ∨ v ∈ (g.frontiers (g.dominators entry)).iterated seeds)
        (fun v member m frontier => .inr (closed v member m frontier)) a_member
        (all_reached a a_member) b_member (all_reached b b_member) meet
      exact closed d member z frontier
    · refine least R fun v member m frontier => ?_
      obtain ⟨other, meet⟩ := meetAt_of_mem_frontiers rooted source frontier
      exact joins v entry m member (.inl seed) other meet

/-- A loop that is entered at one node. -/
def headedLoop : Digraph := ofEdges 4 [(0, 1), (1, 2), (2, 1), (1, 3)]

/-- The head of the loop is where the ways from the entry and from inside the loop meet. -/
theorem iterated_isLeast_headedLoop :
    (headedLoop.Rooted 0 ∧ headedLoop.predecessors 0 = [] ∧ ∀ v ∈ [0, 2], headedLoop.Reached 0 v) ∧
    IsLeast {R : Set Nat | ∀ a b z, a ∈ [0, 2] ∨ a ∈ R → b ∈ [0, 2] ∨ b ∈ R → a ≠ b →
      headedLoop.MeetAt a b z → z ∈ R} {1} := by
  have rooted : headedLoop.Rooted 0 := rooted_ofEdges (by decide) (by decide)
  have reached (v : Nat) (member : v ∈ [0, 2]) : headedLoop.Reached 0 v := by
    refine (isReached_iff rooted.inside).mp ?_
    revert v
    decide +kernel
  have is_head : (headedLoop.frontiers (headedLoop.dominators 0)).iterated [0, 2] = [1] := by
    decide +kernel
  have least := iterated_isLeast.2 headedLoop 0 [0, 2] rooted (by decide) (by decide) reached
  rw [is_head] at least
  exact ⟨⟨rooted, by decide, reached⟩, by simpa using least⟩

end ScriptFlow.Digraph
