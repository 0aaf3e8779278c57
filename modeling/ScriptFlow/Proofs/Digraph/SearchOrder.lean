import Mathlib.Data.Finset.Dedup
import ScriptFlow.Proofs.Digraph.Reach

/-! The order in which a search takes up the nodes. It is the order of a recursive search that sets all
fresh successors of a node aside before it goes down to the first of them. A depth-first search leaves
them to whatever comes to them first, so the two orders differ. -/

namespace ScriptFlow.Digraph

variable {g : Digraph}

/-- The fresh ones among some nodes, each at the last place where it stands. -/
def freshAmong (nodes : List Nat) (fresh : Finset Nat) : List Nat := (nodes.filter (· ∈ fresh)).dedup

/-- A recursive search that enters the nodes it is given, and sets the fresh successors of a node aside
for it before it goes down to the first of them. -/
inductive SetsAside (g : Digraph) : List Nat → Finset Nat → List Nat → Finset Nat → Prop where
  | done (fresh : Finset Nat) : SetsAside g [] fresh [] fresh
  | visit {v : Nat} {nodes below entered : List Nat} {fresh mid rest : Finset Nat} :
    SetsAside g (freshAmong (g.successors v) fresh)
      (fresh \ (freshAmong (g.successors v) fresh).toFinset) below mid →
    SetsAside g nodes mid entered rest →
    SetsAside g (v :: nodes) fresh (v :: below ++ entered) rest

theorem SetsAside.append {first second order : List Nat} {fresh rest : Finset Nat}
    (search : g.SetsAside (first ++ second) fresh order rest) :
    ∃ before after mid, order = before ++ after ∧ g.SetsAside first fresh before mid ∧
      g.SetsAside second mid after rest := by
  induction first generalizing fresh order with
  | nil => exact ⟨[], order, fresh, rfl, .done fresh, search⟩
  | cons v first ih =>
    cases search with
    | visit inner outer =>
      obtain ⟨before, after, mid, rfl, first_search, second_search⟩ := ih outer
      exact ⟨_, after, mid, by simp, .visit inner first_search, second_search⟩

theorem stackUp_eq (nodes stack : List Nat) (fresh : Fresh) :
    (stackUp nodes stack fresh).1 = freshAmong nodes (freshNodes fresh) ++ stack ∧
      freshNodes (stackUp nodes stack fresh).2 =
        freshNodes fresh \ (freshAmong nodes (freshNodes fresh)).toFinset := by
  induction nodes with
  | nil => simp [stackUp, freshAmong]
  | cons v nodes ih =>
    obtain ⟨stack_eq, left⟩ := ih
    have step : stackUp (v :: nodes) stack fresh =
        if (stackUp nodes stack fresh).2.holds v = true then
          (v :: (stackUp nodes stack fresh).1, (stackUp nodes stack fresh).2.take v)
        else stackUp nodes stack fresh := rfl
    have here : (stackUp nodes stack fresh).2.holds v = true ↔
        v ∈ freshNodes fresh ∧ v ∉ freshAmong nodes (freshNodes fresh) := by
      rw [← mem_freshNodes, left, Finset.mem_sdiff, List.mem_toFinset]
    rw [step]
    by_cases taken : v ∈ freshNodes fresh ∧ v ∉ freshAmong nodes (freshNodes fresh)
    · have added : freshAmong (v :: nodes) (freshNodes fresh) =
          v :: freshAmong nodes (freshNodes fresh) := by
        have absent := taken.2
        rw [freshAmong, List.mem_dedup] at absent
        simp only [freshAmong, List.filter_cons, taken.1, decide_true, if_true]
        exact List.dedup_cons_of_notMem absent
      rw [if_pos (here.mpr taken), freshNodes_take, left, stack_eq, added]
      refine ⟨rfl, ?_⟩
      ext w
      simp
      grind
    · have same : freshAmong (v :: nodes) (freshNodes fresh) = freshAmong nodes (freshNodes fresh) := by
        by_cases v_fresh : v ∈ freshNodes fresh
        · have again : v ∈ freshAmong nodes (freshNodes fresh) := by
            by_contra absent
            exact taken ⟨v_fresh, absent⟩
          rw [freshAmong, List.mem_dedup] at again
          simp only [freshAmong, List.filter_cons, v_fresh, decide_true, if_true]
          exact List.dedup_cons_of_mem again
        · simp [freshAmong, v_fresh]
      rw [if_neg (mt here.mp taken), same]
      exact ⟨stack_eq, left⟩

theorem searchFrom_setsAside (g : Digraph) (fuel : Nat) (stack : List Nat) (fresh : Fresh)
    (enough : stack.length + (freshNodes fresh).card ≤ fuel) :
    ∃ rest, g.SetsAside stack (freshNodes fresh) (g.searchFrom fuel stack fresh) rest := by
  induction fuel generalizing stack fresh with
  | zero =>
    obtain rfl : stack = [] := List.length_eq_zero_iff.mp (by omega)
    exact ⟨_, .done _⟩
  | succ fuel ih =>
    cases stack with
    | nil => exact ⟨_, .done _⟩
    | cons v stack =>
      obtain ⟨new, new_eq, _, _, _, count⟩ := stackUp_spec (g.successors v) stack fresh
      obtain ⟨stack_eq, left⟩ := stackUp_eq (g.successors v) stack fresh
      obtain ⟨rest, search⟩ := ih (stackUp (g.successors v) stack fresh).1
        (stackUp (g.successors v) stack fresh).2 (by grind)
      -- what lies on the stack below the successors comes after them and all that they lead to
      rw [left] at search
      nth_rewrite 1 [stack_eq] at search
      obtain ⟨below, after, mid, order, inner, outer⟩ := search.append
      have step : g.searchFrom (fuel + 1) (v :: stack) fresh = v :: (below ++ after) := by
        rw [← order]
        rfl
      exact ⟨rest, step ▸ .visit inner outer⟩

theorem search_setsAside (g : Digraph) {start : Nat} (inside : start < g.size) :
    ∃ rest, g.SetsAside [start] ((Finset.range g.size).erase start) (g.search start) rest := by
  have is_fresh : g.allFresh.holds start = true := by simpa [holds_allFresh] using inside
  have unfolded : g.search start = g.searchFrom g.size [start] (g.allFresh.take start) := by
    simp [search, stackUp, is_fresh]
  have nodes : freshNodes (g.allFresh.take start) = (Finset.range g.size).erase start := by
    ext v
    rw [freshNodes_take, Finset.mem_erase, mem_freshNodes, holds_allFresh, Finset.mem_erase,
      Finset.mem_range, decide_eq_true_eq]
  have small : ((Finset.range g.size).erase start).card + 1 ≤ g.size := by
    rw [Finset.card_erase_of_mem (Finset.mem_range.mpr inside), Finset.card_range]
    omega
  rw [unfolded, ← nodes]
  refine g.searchFrom_setsAside _ _ _ ?_
  rw [nodes, List.length_singleton]
  omega

/-! The order of a depth-first search. -/

/-- Enters `v` and then goes down to its successors one after the other. -/
def enterFrom (g : Digraph) : (fuel : Nat) → Fresh × List Nat → Nat → Fresh × List Nat
  | 0, state, _ => state
  | fuel + 1, (fresh, entered), v =>
    if fresh.holds v then (g.successors v).foldl (g.enterFrom fuel) (fresh.take v, entered ++ [v])
    else (fresh, entered)

def preorder (g : Digraph) (start : Nat) : List Nat := (g.enterFrom (g.size + 1) (g.allFresh, []) start).2

/-- Node 2 is a successor of the start, and is also reached through the first successor. -/
def detour : Digraph := ofEdges 5 [(0, 1), (0, 2), (1, 3), (1, 4), (3, 2)]

/-- A depth-first search enters node 2 from node 3, before it comes to node 4. -/
theorem search_ne_preorder :
    detour.preorder 0 = [0, 1, 3, 2, 4] ∧ detour.search 0 = [0, 1, 3, 4, 2] := by
  decide

end ScriptFlow.Digraph
