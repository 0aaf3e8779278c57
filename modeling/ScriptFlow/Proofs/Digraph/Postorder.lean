import ScriptFlow.Proofs.Digraph.Dominance

/-! A traversal leaves the nodes in the order in which a recursive depth-first search finishes them, so
that a node stands after those of its successors that do not lead back to it. -/

namespace ScriptFlow.Digraph

/-- A recursive search. It goes down to the fresh ones among some nodes, one after the other, and lists a
node when it has gone through the successors. The last set is what is fresh at the end. -/
inductive DepthFirst (g : Digraph) : List Nat → Finset Nat → List Nat → Finset Nat → Prop where
  | done (fresh : Finset Nat) : DepthFirst g [] fresh [] fresh
  | pass {v : Nat} {nodes order : List Nat} {fresh rest : Finset Nat} : v ∉ fresh →
    DepthFirst g nodes fresh order rest → DepthFirst g (v :: nodes) fresh order rest
  | visit {v : Nat} {nodes below after : List Nat} {fresh mid rest : Finset Nat} : v ∈ fresh →
    DepthFirst g (g.successors v) (fresh.erase v) below mid → DepthFirst g nodes mid after rest →
    DepthFirst g (v :: nodes) fresh (below ++ v :: after) rest

variable {g : Digraph} {nodes order : List Nat} {fresh rest : Finset Nat}

theorem DepthFirst.unique (search : g.DepthFirst nodes fresh order rest) {order' : List Nat}
    {rest' : Finset Nat} (other : g.DepthFirst nodes fresh order' rest') :
    order = order' ∧ rest = rest' := by
  induction search generalizing order' rest' with
  | done fresh =>
    cases other
    exact ⟨rfl, rfl⟩
  | pass away _ ih =>
    cases other with
    | pass _ across => exact ih across
    | visit here _ _ => exact absurd here away
  | visit here _ _ down_ih across_ih =>
    cases other with
    | pass away _ => exact absurd here away
    | visit _ down across =>
      obtain ⟨rfl, rfl⟩ := down_ih down
      obtain ⟨rfl, rfl⟩ := across_ih across
      exact ⟨rfl, rfl⟩

structure Finished (g : Digraph) (nodes : List Nat) (fresh : Finset Nat) (order : List Nat)
    (rest : Finset Nat) : Prop where
  mem : ∀ v, v ∈ fresh ↔ v ∈ order ∨ v ∈ rest
  apart : ∀ v ∈ order, v ∉ rest
  distinct : order.Nodup
  listed : ∀ v ∈ nodes, v ∉ rest
  closed : ∀ v ∈ order, ∀ w ∈ g.successors v, w ∉ rest
  reached : ∀ v ∈ order, ∃ a ∈ nodes, g.Reach a (· ∈ fresh) v
  /-- An edge to a node that is finished later is part of a cycle. -/
  back : order.Pairwise fun u v => v ∈ g.successors u → g.Reach v (· ∈ fresh) u

theorem DepthFirst.finished (search : g.DepthFirst nodes fresh order rest) :
    g.Finished nodes fresh order rest := by
  induction search with
  | done fresh => exact ⟨by simp, by simp, by simp, by simp, by simp, by simp, by simp⟩
  | pass away _ ih =>
    exact { ih with
      listed := by grind [ih.mem, ih.listed]
      reached := fun v member => (ih.reached v member).imp fun a h => ⟨.tail _ h.1, h.2⟩ }
  | @visit v nodes below after fresh mid rest here _ _ down across =>
    have first (w : Nat) : w ≠ v ∧ w ∈ fresh ↔ w ∈ below ∨ w ∈ mid := by
      rw [← down.mem, Finset.mem_erase]
    have second := across.mem
    -- all that the search comes to below `v` is reached from it
    have from_v {u : Nat} (member : u ∈ below) : g.Reach v (· ∈ fresh) u := by
      obtain ⟨a, edge, reach⟩ := down.reached u member
      exact .cons here edge (reach.mono fun w => Finset.mem_of_mem_erase)
    refine ⟨fun w => ?_, fun w member => ?_, ?_, fun w member => ?_, fun w member => ?_, ?_, ?_⟩
    · grind
    · grind [down.apart w, across.apart w]
    · refine List.nodup_append.mpr ⟨down.distinct, List.nodup_cons.mpr ⟨?_, across.distinct⟩, ?_⟩
      · grind
      · grind [down.apart]
    · grind [across.listed w]
    · grind [down.closed w, down.listed, across.closed w]
    · intro u member
      rcases List.mem_append.mp member with lower | later
      · exact ⟨v, by simp, from_v lower⟩
      · rcases List.mem_cons.mp later with rfl | later
        · exact ⟨u, by simp, .start here⟩
        · obtain ⟨a, listed, reach⟩ := across.reached u later
          exact ⟨a, .tail _ listed, reach.mono fun w h => ((first w).mpr (.inr h)).2⟩
    · refine List.pairwise_append.mpr ⟨?_, List.pairwise_cons.mpr ⟨?_, ?_⟩, ?_⟩
      · exact down.back.imp fun h edge => (h edge).mono fun w => Finset.mem_of_mem_erase
      · exact fun u later edge => absurd ((second u).mpr (.inl later)) (down.listed u edge)
      · exact across.back.imp fun h edge => (h edge).mono fun w h => ((first w).mpr (.inr h)).2
      · intro u lower w later edge
        rcases List.mem_cons.mp later with rfl | later
        · exact from_v lower
        · exact absurd ((second w).mpr (.inl later)) (down.closed u lower w edge)

theorem exists_depthFirst (g : Digraph) (nodes : List Nat) (fresh : Finset Nat) :
    ∃ order rest, g.DepthFirst nodes fresh order rest := by
  induction size : fresh.card using Nat.strong_induction_on generalizing nodes fresh with
  | _ n ih =>
    subst size
    induction nodes with
    | nil => exact ⟨_, _, .done fresh⟩
    | cons v nodes others =>
      by_cases here : v ∈ fresh
      · have fewer := Finset.card_erase_lt_of_mem here
        obtain ⟨below, mid, down⟩ := ih _ fewer (g.successors v) _ rfl
        have within : mid ⊆ fresh.erase v := fun w left => (down.finished.mem w).mpr (.inr left)
        obtain ⟨after, rest, across⟩ := ih _ ((Finset.card_le_card within).trans_lt fewer) nodes _ rfl
        exact ⟨_, _, .visit here down across⟩
      · obtain ⟨order, rest, across⟩ := others
        exact ⟨_, _, .pass here across⟩

/-! The stack. -/

/-- A traversal with some nodes to enter on top of its stack does what the recursive search does for
them, and then goes on with what lies below. Of the nodes, only some that are not fresh may be missing. -/
theorem DepthFirst.finishFrom (search : g.DepthFirst nodes fresh order rest) (kept : Nat → Bool)
    (all : ∀ v ∈ fresh, kept v = true) {marks : Fresh} (marked : freshNodes marks = fresh)
    (stack : List Visit) (done : List Nat) :
    ∃ marks', freshNodes marks' = rest ∧
      g.finishFrom ((nodes.filter kept).map .enter ++ stack) marks done =
        g.finishFrom stack marks' (order.reverse ++ done) := by
  induction search generalizing kept marks stack done with
  | done fresh => exact ⟨marks, marked, rfl⟩
  | @pass v nodes order fresh rest away _ ih =>
    by_cases on_stack : kept v = true
    · have taken : ¬marks.holds v = true := by rwa [← mem_freshNodes, marked]
      rw [List.filter_cons_of_pos on_stack, List.map_cons, List.cons_append, Digraph.finishFrom,
        if_neg taken]
      exact ih kept all marked stack done
    · rw [List.filter_cons_of_neg on_stack]
      exact ih kept all marked stack done
  | @visit v nodes below after fresh mid rest here down _ down_ih across_ih =>
    have holds : marks.holds v = true := by rwa [← mem_freshNodes, marked]
    rw [List.filter_cons_of_pos (all v here), List.map_cons, List.cons_append, Digraph.finishFrom,
      if_pos holds]
    have erased : freshNodes (marks.take v) = fresh.erase v := by rw [freshNodes_take, marked]
    obtain ⟨marks', marked', lower⟩ := down_ih _ (fun w h => by rwa [← mem_freshNodes, erased]) erased
      (.leave v :: ((nodes.filter kept).map .enter ++ stack)) done
    obtain ⟨marks'', marked'', later⟩ := across_ih kept
      (fun w h => all w (Finset.mem_of_mem_erase ((down.finished.mem w).mpr (.inr h)))) marked' stack
      (v :: (below.reverse ++ done))
    refine ⟨marks'', marked'', ?_⟩
    dsimp only
    rw [lower, Digraph.finishFrom, later]
    simp

/-- Every graph and start has one recursive search, and it lists the nodes in postorder. -/
theorem depthFirst_postorder (g : Digraph) (start : Nat) :
    ∃ rest, g.DepthFirst [start] (Finset.range g.size) (g.postorder start) rest := by
  obtain ⟨order, rest, search⟩ := g.exists_depthFirst [start] (Finset.range g.size)
  obtain ⟨marks, -, run⟩ := search.finishFrom (fun _ => true) (fun _ _ => rfl)
    g.freshNodes_allFresh [] []
  have reversed : g.reversePostorder start = order.reverse := by
    rw [List.append_nil, List.append_nil, Digraph.finishFrom] at run
    exact run
  rw [postorder, reversed, List.reverse_reverse]
  exact ⟨rest, search⟩

theorem mem_postorder (g : Digraph) (start v : Nat) :
    v ∈ g.postorder start ↔ g.Reached start v := by
  obtain ⟨rest, search⟩ := g.depthFirst_postorder start
  have spec := search.finished
  have listed {w : Nat} (inside : w < g.size) (taken : w ∉ rest) : w ∈ g.postorder start :=
    ((spec.mem w).mp (Finset.mem_range.mpr inside)).resolve_right taken
  constructor
  · intro member
    obtain ⟨a, is_start, reach⟩ := spec.reached v member
    rw [List.mem_singleton.mp is_start] at reach
    exact reach.mono fun w => Finset.mem_range.mp
  · intro reach
    induction reach with
    | start inside => exact listed inside (spec.listed start (by simp))
    | step _ edge inside ih => exact listed inside (spec.closed _ ih _ edge)

/-- A successor that does not lead back stands before the node. -/
theorem sublist_postorder {start u v : Nat} (reached : g.Reached start u) (edge : v ∈ g.successors u)
    (inside : v < g.size) (onward : ¬g.Reach v (· < g.size) u) :
    [v, u].Sublist (g.postorder start) := by
  obtain ⟨rest, search⟩ := g.depthFirst_postorder start
  have back := search.finished.back
  have member := (g.mem_postorder start v).mpr (.step reached edge inside)
  obtain ⟨before, after, split⟩ := List.append_of_mem ((g.mem_postorder start u).mpr reached)
  rw [split] at back member ⊢
  have earlier : v ∈ before := by
    rcases List.mem_append.mp member with earlier | here
    · exact earlier
    · rcases List.mem_cons.mp here with rfl | later
      · exact absurd (.start inside) onward
      · have cycle := (List.pairwise_cons.mp (List.pairwise_append.mp back).2.1).1 v later edge
        exact absurd (cycle.mono fun w => Finset.mem_range.mp) onward
  exact (List.singleton_sublist.mpr earlier).append (.cons_cons u (List.nil_sublist after))

/-- Postorder is the order in which the recursive depth-first search finishes the nodes. It holds each
node that is reached once, after its successors that do not lead back to it; without cycles, all edges
lead forward in the reverse order. -/
theorem postorder_exact (g : Digraph) (start : Nat) :
    (∀ order, (∃ rest, g.DepthFirst [start] (Finset.range g.size) order rest) ↔
      order = g.postorder start) ∧
    ((g.postorder start).Nodup ∧ ∀ v, v ∈ g.postorder start ↔ g.Reached start v) ∧
    (∀ u v, g.Reached start u → g.Reached start v → v ∈ g.successors u →
      ¬g.Reach v (· < g.size) u → [v, u].Sublist (g.postorder start)) ∧
    g.reversePostorder start = (g.postorder start).reverse ∧
    ((∀ u v, g.Reached start u → v ∈ g.successors u → ¬g.Reach v (· < g.size) u) →
      ∀ u v, g.Reached start u → g.Reached start v → v ∈ g.successors u →
        [u, v].Sublist (g.reversePostorder start)) := by
  obtain ⟨rest, search⟩ := g.depthFirst_postorder start
  have reversed : g.reversePostorder start = (g.postorder start).reverse := by
    rw [postorder, List.reverse_reverse]
  refine ⟨fun order => ⟨?_, fun same => ⟨rest, same ▸ search⟩⟩,
    ⟨search.finished.distinct, g.mem_postorder start⟩,
    fun u v u_reached v_reached edge => sublist_postorder u_reached edge v_reached.holds, reversed, ?_⟩
  · rintro ⟨_, other⟩
    exact (other.unique search).1
  · intro acyclic u v u_reached v_reached edge
    rw [reversed]
    exact (sublist_postorder u_reached edge v_reached.holds (acyclic u v u_reached edge)).reverse

end ScriptFlow.Digraph
