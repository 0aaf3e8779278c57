import ScriptFlow.Proofs.Digraph.Reach

/-! Dominance by what can be reached without a node, and the order in which a search meets a node and
its dominators. -/

namespace ScriptFlow.Digraph

variable {d v : Nat}
variable (g : Digraph) (entry : Nat)

abbrev Reached (v : Nat) : Prop := g.Reach entry (· < g.size) v

/-- Reached from the entry without passing `d`. -/
abbrev ReachedAvoiding (d v : Nat) : Prop := g.Reach entry (fun w => w < g.size ∧ w ≠ d) v

/-- Every way from the entry to `v` passes the other node `d`. -/
def StrictlyDominates (d v : Nat) : Prop := d ≠ v ∧ ¬g.ReachedAvoiding entry d v

def Dominates (d v : Nat) : Prop := d = v ∨ g.StrictlyDominates entry d v

variable {g entry}

theorem StrictlyDominates.reached (dom : g.StrictlyDominates entry d v)
    (reached : g.Reached entry v) : g.Reached entry d := by
  by_contra unreached
  refine dom.2 ?_
  -- no node on the way is `d`
  have others : ∀ w, g.Reached entry w → g.ReachedAvoiding entry d w := by
    intro w reach
    induction reach with
    | start inside =>
      exact .start ⟨inside, fun same => unreached (same ▸ .start inside)⟩
    | step reach edge inside ih =>
      exact .step ih edge ⟨inside, fun same => unreached (same ▸ .step reach edge inside)⟩
  exact others v reached

theorem Dominates.reached (dom : g.Dominates entry d v) (reached : g.Reached entry v) :
    g.Reached entry d := by
  rcases dom with rfl | strict
  · exact reached
  · exact strict.reached reached

/-- What dominates the end of an edge dominates its start or is its start. -/
theorem StrictlyDominates.of_edge {w : Nat} (dom : g.StrictlyDominates entry d w)
    (inside : w < g.size) (edge : w ∈ g.successors v) : d = v ∨ g.StrictlyDominates entry d v := by
  by_cases same : d = v
  · exact .inl same
  · exact .inr ⟨same, fun avoiding => dom.2 (.step avoiding edge ⟨inside, dom.1.symm⟩)⟩

theorem not_strictlyDominates_entry (inside : entry < g.size) (d : Nat) :
    ¬g.StrictlyDominates entry d entry :=
  fun dom => dom.2 (.start ⟨inside, dom.1.symm⟩)

theorem strictlyDominates_of_entry (other : v ≠ entry) : g.StrictlyDominates entry entry v := by
  refine ⟨Ne.symm other, fun avoiding => ?_⟩
  have start : entry ≠ entry := by
    clear other
    induction avoiding with
    | start h => exact h.2
    | step _ _ _ ih => exact ih
  exact start rfl

/-- On the way to `v`, one node can be avoided or the other one is met first. -/
theorem ReachedAvoiding.meets {p : Nat} (avoiding : g.ReachedAvoiding entry d v) :
    g.ReachedAvoiding entry d p ∨ g.ReachedAvoiding entry p v := by
  induction avoiding with
  | start h =>
    by_cases here : entry = p
    · exact .inl (here ▸ .start h)
    · exact .inr (.start ⟨h.1, here⟩)
  | @step v w reach edge h ih =>
    refine ih.elim .inl fun avoiding => ?_
    by_cases here : w = p
    · exact .inl (here ▸ .step reach edge h)
    · exact .inr (.step avoiding edge ⟨h.1, here⟩)

section Order

variable (inside : entry < g.size)

include inside

theorem StrictlyDominates.before (dom : g.StrictlyDominates entry d v)
    {before after : List Nat} (split : g.search entry = before ++ v :: after) : d ∈ before := by
  have spec := g.search_found inside
  induction length : before.length using Nat.strongRecOn generalizing before v after with
  | ind n ih =>
    rcases spec.ordered before v after split with start | ⟨u, u_before, edge⟩
    · rw [List.mem_singleton.mp start] at dom
      exact absurd dom (not_strictlyDominates_entry inside d)
    · have v_found : v ∈ g.search entry := by
        rw [split]
        simp
      rcases dom.of_edge ((g.mem_search inside v).mp v_found).holds edge with rfl | dom_u
      · exact u_before
      · obtain ⟨first, second, before_split⟩ := List.append_of_mem u_before
        have shorter : first.length < n := by
          rw [← length, before_split, List.length_append, List.length_cons]
          omega
        have split_at_u : g.search entry = first ++ u :: (second ++ v :: after) := by
          rw [split, before_split]
          simp
        have in_first := ih first.length shorter dom_u split_at_u rfl
        rw [before_split]
        exact List.mem_append_left _ in_first

/-- The place of a node in the order in which a search meets the nodes. -/
def rank (g : Digraph) (entry v : Nat) : Nat := (g.search entry).idxOf v

theorem StrictlyDominates.rank_lt (dom : g.StrictlyDominates entry d v)
    (reached : g.Reached entry v) : g.rank entry d < g.rank entry v := by
  have spec := g.search_found inside
  obtain ⟨before, after, split⟩ := List.append_of_mem ((g.mem_search inside v).mpr reached)
  have d_before := dom.before inside split
  have v_later : v ∉ before := by
    have distinct := spec.distinct
    rw [split] at distinct
    grind
  unfold rank
  rw [split, List.idxOf_append_of_mem d_before, List.idxOf_append_of_notMem v_later]
  have := List.idxOf_lt_length_of_mem d_before
  omega

theorem StrictlyDominates.trans {p : Nat} (first : g.StrictlyDominates entry d p)
    (second : g.StrictlyDominates entry p v) (reached : g.Reached entry v) :
    g.StrictlyDominates entry d v := by
  constructor
  · rintro rfl
    have back := first.rank_lt inside (second.reached reached)
    have := second.rank_lt inside reached
    omega
  · exact fun avoiding => avoiding.meets.elim first.2 second.2

theorem rank_lt_size (reached : g.Reached entry v) : g.rank entry v < g.size := by
  have spec := g.search_found inside
  have found := (g.mem_search inside v).mpr reached
  refine Nat.lt_of_lt_of_le (List.idxOf_lt_length_of_mem found) ?_
  rw [← List.toFinset_card_of_nodup spec.distinct, ← Finset.card_range g.size]
  refine Finset.card_le_card fun w member => ?_
  rw [List.mem_toFinset, g.mem_search inside] at member
  exact Finset.mem_range.mpr member.holds

end Order

end ScriptFlow.Digraph
