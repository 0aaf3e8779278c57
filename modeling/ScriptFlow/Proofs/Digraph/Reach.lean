import Mathlib.Data.Finset.Card
import ScriptFlow.Digraph.Dominance

/-! A search finds exactly the nodes that can be reached, and meets none of them before one that leads
to it. -/

namespace ScriptFlow.Digraph

variable {v : Nat}

/-- Reached from the entry over nodes that satisfy a condition. -/
inductive Reach (g : Digraph) (entry : Nat) (ok : Nat → Prop) : Nat → Prop where
  | start : ok entry → Reach g entry ok entry
  | step {v w : Nat} : Reach g entry ok v → w ∈ g.successors v → ok w → Reach g entry ok w

namespace Reach

variable {g : Digraph} {entry : Nat} {ok ok' : Nat → Prop}

theorem holds (reach : g.Reach entry ok v) : ok v := by
  cases reach with
  | start h => exact h
  | step _ _ h => exact h

theorem mono (weaker : ∀ v, ok v → ok' v) (reach : g.Reach entry ok v) : g.Reach entry ok' v := by
  induction reach with
  | start h => exact .start (weaker _ h)
  | step _ edge h ih => exact .step ih edge (weaker _ h)

theorem trans {w : Nat} (first : g.Reach entry ok v) (second : g.Reach v ok w) :
    g.Reach entry ok w := by
  induction second with
  | start _ => exact first
  | step _ edge h ih => exact .step ih edge h

theorem cons {w : Nat} (here : ok entry) (edge : v ∈ g.successors entry) (reach : g.Reach v ok w) :
    g.Reach entry ok w := by
  induction reach with
  | start h => exact .step (.start here) edge h
  | step _ next h ih => exact .step ih next h

end Reach

/-! Marks. -/

theorem holds_take (fresh : Fresh) (v w : Nat) :
    (fresh.take v).holds w = (fresh.holds w && v != w) := by
  simp only [Fresh.take, Fresh.holds, Array.getD_eq_getD_getElem?, Array.getElem?_setIfInBounds]
  grind

theorem holds_replicate (size v : Nat) :
    Fresh.holds (Array.replicate size true) v = decide (v < size) := by
  simp only [Fresh.holds, Array.getD_eq_getD_getElem?, Array.getElem?_replicate]
  grind

theorem holds_allFresh (g : Digraph) (v : Nat) : g.allFresh.holds v = decide (v < g.size) :=
  holds_replicate g.size v

/-- The nodes that may still be taken up. -/
def freshNodes (fresh : Fresh) : Finset Nat := (Finset.range fresh.size).filter (fresh.holds · = true)

theorem mem_freshNodes (fresh : Fresh) (v : Nat) : v ∈ freshNodes fresh ↔ fresh.holds v = true := by
  simp only [freshNodes, Finset.mem_filter, Finset.mem_range, and_iff_right_iff_imp]
  intro h
  by_contra outside
  simp [Fresh.holds, Array.getD_eq_getD_getElem?, Array.getElem?_eq_none (Nat.le_of_not_lt outside)]
    at h

theorem freshNodes_take (fresh : Fresh) (v : Nat) :
    freshNodes (fresh.take v) = (freshNodes fresh).erase v := by
  ext w
  rw [mem_freshNodes, holds_take, Finset.mem_erase, mem_freshNodes]
  grind

theorem freshNodes_replicate (size : Nat) :
    freshNodes (Array.replicate size true) = Finset.range size := by
  ext v
  simp [mem_freshNodes, holds_replicate]

theorem freshNodes_allFresh (g : Digraph) : freshNodes g.allFresh = Finset.range g.size :=
  freshNodes_replicate g.size

theorem getD_markAll (size : Nat) (nodes : List Nat) (v : Nat) :
    (markAll size nodes).getD v false = true ↔ v ∈ nodes ∧ v < size := by
  have general (marks : Array Bool) :
      (nodes.foldl (fun marks v => marks.setIfInBounds v true) marks).getD v false = true ↔
        marks.getD v false = true ∨ v ∈ nodes ∧ v < marks.size := by
    induction nodes generalizing marks with
    | nil => simp
    | cons w nodes ih =>
      rw [List.foldl_cons, ih, List.mem_cons]
      simp only [Array.getD_eq_getD_getElem?, Array.getElem?_setIfInBounds, Array.size_setIfInBounds]
      grind
  rw [markAll, general]
  simp only [Array.getD_eq_getD_getElem?, Array.getElem?_replicate, Array.size_replicate]
  grind

/-! One step of a search. -/

/-- What is put on the stack: the fresh ones among the nodes, each once. -/
structure Stacked (nodes stack : List Nat) (fresh : Fresh) (new : List Nat) (fresh' : Fresh) : Prop where
  distinct : new.Nodup
  mem : ∀ v, v ∈ new ↔ v ∈ nodes ∧ fresh.holds v = true
  left : ∀ v, fresh'.holds v = true ↔ fresh.holds v = true ∧ v ∉ new
  count : (freshNodes fresh').card + new.length = (freshNodes fresh).card

theorem stackUp_spec (nodes stack : List Nat) (fresh : Fresh) :
    ∃ new, (stackUp nodes stack fresh).1 = new ++ stack ∧
      Stacked nodes stack fresh new (stackUp nodes stack fresh).2 := by
  induction nodes with
  | nil => exact ⟨[], rfl, by simp, by simp, by simp [stackUp], by simp [stackUp]⟩
  | cons v nodes ih =>
    obtain ⟨new, stack_eq, distinct, mem, left, count⟩ := ih
    have step : stackUp (v :: nodes) stack fresh =
        if (stackUp nodes stack fresh).2.holds v = true then
          (v :: (stackUp nodes stack fresh).1, (stackUp nodes stack fresh).2.take v)
        else stackUp nodes stack fresh := rfl
    rw [step]
    split
    · rename_i is_fresh
      have v_fresh := (left v).mp is_fresh
      refine ⟨v :: new, by rw [stack_eq]; rfl, List.nodup_cons.mpr ⟨v_fresh.2, distinct⟩, ?_, ?_, ?_⟩
      · grind
      · intro w
        rw [holds_take]
        grind
      · rw [freshNodes_take, Finset.card_erase_of_mem ((mem_freshNodes _ v).mpr is_fresh),
          List.length_cons]
        have positive : 0 < (freshNodes (stackUp nodes stack fresh).2).card :=
          Finset.card_pos.mpr ⟨v, (mem_freshNodes _ v).mpr is_fresh⟩
        omega
    · rename_i not_fresh
      refine ⟨new, stack_eq, distinct, ?_, left, count⟩
      grind

/-! A whole search. -/

/-- What a search returns that starts from a stack with some nodes fresh. -/
structure Found (g : Digraph) (stack : List Nat) (fresh : Fresh) (found : List Nat) : Prop where
  distinct : found.Nodup
  inside : ∀ v ∈ found, v ∈ stack ∨ fresh.holds v = true
  stacked : ∀ v ∈ stack, v ∈ found
  closed : ∀ v ∈ found, ∀ w ∈ g.successors v, fresh.holds w = true → w ∈ found
  /-- Every node is there from the start or comes after one that leads to it. -/
  ordered : ∀ before v after, found = before ++ v :: after →
    v ∈ stack ∨ ∃ u ∈ before, v ∈ g.successors u

theorem searchFrom_spec (g : Digraph) (fuel : Nat) (stack : List Nat) (fresh : Fresh)
    (distinct : stack.Nodup) (taken : ∀ v ∈ stack, fresh.holds v = false)
    (enough : stack.length + (freshNodes fresh).card ≤ fuel) :
    g.Found stack fresh (g.searchFrom fuel stack fresh) := by
  induction fuel generalizing stack fresh with
  | zero =>
    have empty : stack = [] := List.length_eq_zero_iff.mp (by omega)
    subst empty
    exact ⟨by simp [searchFrom], by simp [searchFrom], by simp, by simp [searchFrom],
      by simp [searchFrom]⟩
  | succ fuel ih =>
    cases stack with
    | nil =>
      exact ⟨by simp [searchFrom], by simp [searchFrom], by simp, by simp [searchFrom],
        by simp [searchFrom]⟩
    | cons v stack =>
      obtain ⟨new, stack_eq, new_distinct, mem, left, count⟩ :=
        stackUp_spec (g.successors v) stack fresh
      rw [List.nodup_cons] at distinct
      have step : g.searchFrom (fuel + 1) (v :: stack) fresh =
          v :: g.searchFrom fuel (stackUp (g.successors v) stack fresh).1
            (stackUp (g.successors v) stack fresh).2 := rfl
      rw [step, stack_eq]
      have rest := ih (new ++ stack) (stackUp (g.successors v) stack fresh).2
        (List.nodup_append.mpr ⟨new_distinct, distinct.2, by grind⟩) (by grind) (by grind)
      clear step stack_eq ih
      generalize (stackUp (g.successors v) stack fresh).2 = fresh' at left count rest ⊢
      generalize g.searchFrom fuel (new ++ stack) fresh' = found at rest ⊢
      obtain ⟨found_distinct, inside, stacked, closed, ordered⟩ := rest
      refine ⟨List.nodup_cons.mpr ⟨fun again => ?_, found_distinct⟩, ?_, ?_, ?_, ?_⟩
      · grind
      · grind
      · grind
      · grind
      · intro before w after split
        cases before with
        | nil => grind
        | cons u before =>
          obtain ⟨rfl, split⟩ := List.cons.inj split
          grind

namespace Found

variable {g : Digraph} {entry : Nat} {ok : Nat → Prop} {fresh : Fresh} {found : List Nat}

theorem mem_of_reach (spec : g.Found [entry] fresh found)
    (complete : ∀ v, ok v → v = entry ∨ fresh.holds v = true)
    (reach : g.Reach entry ok v) : v ∈ found := by
  induction reach with
  | start _ => exact spec.stacked entry (by simp)
  | step _ edge h ih =>
    rcases complete _ h with rfl | is_fresh
    · exact spec.stacked _ (by simp)
    · exact spec.closed _ ih _ edge is_fresh

/-- What holds of the stack and goes on along edges to fresh nodes holds of all that is found. -/
theorem induct {stack : List Nat} (spec : g.Found stack fresh found) {P : Nat → Prop}
    (start : ∀ v ∈ stack, P v)
    (step : ∀ v w, P v → w ∈ g.successors v → fresh.holds w = true → P w)
    (member : v ∈ found) : P v := by
  obtain ⟨before, after, split⟩ := List.append_of_mem member
  -- a node that leads to `v` stands before it
  induction length : before.length using Nat.strongRecOn generalizing before v after with
  | ind n ih =>
    rcases spec.inside v member with here | is_fresh
    · exact start v here
    · rcases spec.ordered before v after split with here | ⟨u, u_before, edge⟩
      · exact start v here
      · obtain ⟨first, second, before_split⟩ := List.append_of_mem u_before
        refine step u v (ih first.length ?_ ?_ first (second ++ v :: after) ?_ rfl) edge is_fresh
        · rw [← length, before_split, List.length_append, List.length_cons]
          omega
        · rw [split]
          exact List.mem_append_left _ u_before
        · rw [split, before_split]
          simp

theorem reach_of_mem (spec : g.Found [entry] fresh found) (entry_ok : ok entry)
    (sound : ∀ v, fresh.holds v = true → ok v) (member : v ∈ found) : g.Reach entry ok v := by
  refine spec.induct (fun v here => ?_) (fun v w reach edge is_fresh => ?_) member
  · rw [List.mem_singleton.mp here]
    exact .start entry_ok
  · exact .step reach edge (sound w is_fresh)

end Found

theorem card_freshNodes_allFresh (g : Digraph) : (freshNodes g.allFresh).card = g.size := by
  rw [freshNodes_allFresh, Finset.card_range]

/-- A search from one node that is still fresh. -/
theorem searchFrom_single (g : Digraph) {entry : Nat} {fresh : Fresh}
    (is_fresh : fresh.holds entry = true) (small : (freshNodes fresh).card ≤ g.size) :
    g.Found [entry] (fresh.take entry) (g.searchFrom g.size [entry] (fresh.take entry)) := by
  refine g.searchFrom_spec g.size [entry] (fresh.take entry) (by simp) ?_ ?_
  · simp [holds_take]
  · have member := (mem_freshNodes fresh entry).mpr is_fresh
    have positive : 0 < (freshNodes fresh).card := Finset.card_pos.mpr ⟨entry, member⟩
    rw [freshNodes_take, Finset.card_erase_of_mem member, List.length_singleton]
    omega

theorem search_found (g : Digraph) {entry : Nat} (inside : entry < g.size) :
    g.Found [entry] (g.allFresh.take entry) (g.search entry) := by
  have is_fresh : g.allFresh.holds entry = true := by simpa [holds_allFresh] using inside
  have unfolded : g.search entry = g.searchFrom g.size [entry] (g.allFresh.take entry) := by
    simp [search, stackUp, is_fresh]
  rw [unfolded]
  exact g.searchFrom_single is_fresh (Nat.le_of_eq g.card_freshNodes_allFresh)

theorem mem_search (g : Digraph) {entry : Nat} (inside : entry < g.size) (v : Nat) :
    v ∈ g.search entry ↔ g.Reach entry (· < g.size) v := by
  have spec := g.search_found inside
  refine ⟨spec.reach_of_mem inside fun w h => ?_, spec.mem_of_reach fun w h => ?_⟩
  · grind [holds_take, holds_allFresh]
  · grind [holds_take, holds_allFresh]

end ScriptFlow.Digraph
