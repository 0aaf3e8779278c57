import ScriptFlow.Proofs.Dict
import ScriptFlow.Proofs.Digraph.Settling

/-! The parents of a dominator tree are closest strict dominators, and the chain of a node holds all
its dominators. -/

namespace ScriptFlow.Digraph

variable {p w v b d a c : Nat}

/-- The entry is a node, and predecessors are the inverse of successors. -/
structure Rooted (g : Digraph) (entry : Nat) : Prop where
  inside : entry < g.size
  symm : ∀ v w, v ∈ g.predecessors w ↔ w ∈ g.successors v

variable {g : Digraph} {entry : Nat}

/-- The table of children holds what the table of parents says. -/
theorem addBelow_foldr (parent : Array (Option Nat)) (ws : List Nat) (size : Nat) (v w : Nat) :
    (w ∈ (ws.foldr (addBelow parent) (Array.replicate size [])).getD v [] ↔
      w ∈ ws ∧ parent.getD w none = some v ∧ v < size) ∧
    ((ws.foldr (addBelow parent) (Array.replicate size [])).getD v []).Pairwise (· < ·) ∧
    (ws.foldr (addBelow parent) (Array.replicate size [])).size = size := by
  induction ws with
  | nil =>
    simp only [List.foldr_nil, Array.getD_eq_getD_getElem?, Array.getElem?_replicate]
    grind
  | cons x ws ih =>
    rw [List.foldr_cons]
    generalize ws.foldr (addBelow parent) (Array.replicate size []) = below at ih
    obtain ⟨mem, sorted, size_eq⟩ := ih
    unfold addBelow
    cases up : parent.getD x none with
    | none => grind
    | some p =>
      dsimp only
      have entry_eq : (below.modify p (insertNat x)).getD v [] =
          if v = p ∧ p < size then insertNat x (below.getD v []) else below.getD v [] := by
        simp only [Array.getD_eq_getD_getElem?, Array.getElem?_modify]
        grind
      rw [entry_eq]
      refine ⟨?_, ?_, by simpa using size_eq⟩
      · split <;> grind [mem_insertNat]
      · split
        · exact insertNat_sorted sorted
        · exact sorted

section Tree

variable (rooted : g.Rooted entry)

include rooted

theorem parent?_spec : (g.dominators entry).size = g.size ∧
    (∀ v, g.Reached entry v → v ≠ entry →
      ∃ d, (g.dominators entry).parent? v = some d ∧ g.Closest entry d v) ∧
    ∀ v d, (g.dominators entry).parent? v = some d → g.Reached entry v ∧ v ≠ entry := by
  obtain ⟨spans, complete⟩ := spanningTree_spec rooted.inside
  obtain ⟨size, closest, only⟩ := semidominators_spec spans complete rooted.symm
  refine ⟨size, fun v reached => closest v ((complete v).mpr reached), fun v d parent => ?_⟩
  obtain ⟨met, other⟩ := only v d parent
  exact ⟨(complete v).mp met, other⟩

theorem size_dominators : (g.dominators entry).size = g.size := (parent?_spec rooted).1

/-- A parent is a strict dominator, and the other ones dominate it. -/
theorem parent_closest (parent : (g.dominators entry).parent? w = some p) :
    g.Reached entry w ∧ g.StrictlyDominates entry p w ∧
      ∀ a, g.StrictlyDominates entry a w → a = p ∨ g.StrictlyDominates entry a p := by
  obtain ⟨_, exists_closest, only⟩ := parent?_spec rooted
  obtain ⟨reached, other⟩ := only w p parent
  obtain ⟨d, found, closest⟩ := exists_closest w reached other
  obtain rfl := Option.some.inj (parent.symm.trans found)
  exact ⟨reached, closest.dominates, closest.closest⟩

theorem exists_parent (reached : g.Reached entry w) (other : w ≠ entry) :
    ∃ p, (g.dominators entry).parent? w = some p := by
  obtain ⟨p, parent, _⟩ := (parent?_spec rooted).2.1 w reached other
  exact ⟨p, parent⟩

theorem parent?_entry : (g.dominators entry).parent? entry = none := by
  by_contra some_parent
  obtain ⟨p, parent⟩ := Option.ne_none_iff_exists'.mp some_parent
  exact ((parent?_spec rooted).2.2 entry p parent).2 rfl

omit rooted in
theorem isReached_iff (inside : entry < g.size) :
    (g.dominators entry).isReached v = true ↔ g.Reached entry v := by
  obtain ⟨spans, complete⟩ := spanningTree_spec inside
  rw [DominatorTree.isReached, dominators, getD_markAll, complete]
  exact ⟨fun h => h.1, fun h => ⟨h, h.holds⟩⟩

theorem rank_parent_lt (parent : (g.dominators entry).parent? w = some p) :
    g.rank entry p < g.rank entry w := by
  obtain ⟨reached, dom, _⟩ := parent_closest rooted parent
  exact dom.rank_lt rooted.inside reached

theorem reached_parent (parent : (g.dominators entry).parent? w = some p) : g.Reached entry p := by
  obtain ⟨reached, dom, _⟩ := parent_closest rooted parent
  exact dom.reached reached

/-- The strict dominators of a node are the dominators of its parent. -/
theorem strictlyDominates_iff_parent {n m q : Nat} (parent : (g.dominators entry).parent? m = some q) :
    g.StrictlyDominates entry n m ↔ g.Dominates entry n q := by
  obtain ⟨m_reached, q_dom, closest⟩ := parent_closest rooted parent
  refine ⟨closest n, ?_⟩
  rintro (rfl | above)
  · exact q_dom
  · exact above.trans rooted.inside q_dom m_reached

/-- The parent is the one strict dominator that all strict dominators dominate. -/
theorem parent?_eq_some_iff : (g.dominators entry).parent? b = some d ↔
    g.Reached entry b ∧ b ≠ entry ∧ g.StrictlyDominates entry d b ∧
      ∀ a, g.StrictlyDominates entry a b → g.Dominates entry a d := by
  constructor
  · intro parent
    obtain ⟨reached, dom, closest⟩ := parent_closest rooted parent
    exact ⟨reached, ((parent?_spec rooted).2.2 b d parent).2, dom, closest⟩
  · rintro ⟨reached, other, dom, closest⟩
    obtain ⟨p, parent⟩ := exists_parent rooted reached other
    obtain ⟨_, p_dom, p_closest⟩ := parent_closest rooted parent
    rcases closest p p_dom with rfl | p_above
    · exact parent
    · rcases p_closest d dom with rfl | d_above
      · exact parent
      · have down := p_above.rank_lt rooted.inside (dom.reached reached)
        have up := d_above.rank_lt rooted.inside (p_dom.reached reached)
        omega

/-! Chains. -/

omit rooted in
theorem mem_chainFrom_self (t : DominatorTree) (fuel v : Nat) : v ∈ t.chainFrom fuel v := by
  cases fuel with
  | zero => simp [DominatorTree.chainFrom]
  | succ fuel =>
    unfold DominatorTree.chainFrom
    split <;> simp

theorem mem_chainFrom (fuel : Nat) (reached : g.Reached entry v) (enough : g.rank entry v ≤ fuel)
    (dom : a = v ∨ g.StrictlyDominates entry a v) : a ∈ (g.dominators entry).chainFrom fuel v := by
  induction fuel generalizing v with
  | zero =>
    rcases dom with rfl | dom
    · exact mem_chainFrom_self _ _ _
    · have := dom.rank_lt rooted.inside reached
      omega
  | succ fuel ih =>
    rcases dom with rfl | dom
    · exact mem_chainFrom_self _ _ _
    · have other : v ≠ entry := fun same =>
        not_strictlyDominates_entry rooted.inside a (same ▸ dom)
      obtain ⟨p, parent⟩ := exists_parent rooted reached other
      have closest := (parent_closest rooted parent).2.2 a dom
      have smaller := rank_parent_lt rooted parent
      simp only [DominatorTree.chainFrom, parent]
      exact List.mem_cons_of_mem _ (ih (reached_parent rooted parent) (by omega) closest)

theorem dominates_of_mem_chainFrom (fuel : Nat) (reached : g.Reached entry v)
    (member : a ∈ (g.dominators entry).chainFrom fuel v) : g.Dominates entry a v := by
  induction fuel generalizing v with
  | zero =>
    rw [DominatorTree.chainFrom, List.mem_singleton] at member
    exact .inl member
  | succ fuel ih =>
    unfold DominatorTree.chainFrom at member
    split at member
    · rename_i p parent
      rcases List.mem_cons.mp member with same | above
      · exact .inl same
      · have p_dom := (parent_closest rooted parent).2.1
        rcases ih (reached_parent rooted parent) above with rfl | dom
        · exact .inr p_dom
        · exact .inr (dom.trans rooted.inside p_dom reached)
    · exact .inl (List.mem_singleton.mp member)

theorem mem_chain_iff (reached : g.Reached entry v) :
    a ∈ (g.dominators entry).chain v ↔ g.Dominates entry a v := by
  refine ⟨dominates_of_mem_chainFrom rooted _ reached, fun dom => ?_⟩
  refine mem_chainFrom rooted _ reached ?_ dom
  rw [size_dominators rooted]
  exact Nat.le_of_lt (rank_lt_size rooted.inside reached)

theorem dominates_iff (reached : g.Reached entry b) :
    (g.dominators entry).dominates a b = true ↔ g.Dominates entry a b := by
  simp only [DominatorTree.dominates, Bool.or_eq_true, beq_iff_eq, Bool.and_eq_true,
    isReached_iff rooted.inside, List.contains_iff_mem, mem_chain_iff rooted reached]
  constructor
  · rintro (same | ⟨_, dom⟩)
    · exact .inl same
    · exact dom
  · rintro (same | dom)
    · exact .inl same
    · exact .inr ⟨⟨dom.reached reached, reached⟩, .inr dom⟩

/-- The parent of a node is on the chain of each node before it. -/
theorem parent_mem_chain (parent : (g.dominators entry).parent? w = some p)
    (reached : g.Reached entry v) (edge : w ∈ g.successors v) :
    p ∈ (g.dominators entry).chain v := by
  obtain ⟨w_reached, dom, _⟩ := parent_closest rooted parent
  exact (mem_chain_iff rooted reached).mpr (dom.of_edge w_reached.holds edge)

omit rooted in
/-- What does not change from a node to its parent, up to an ancestor, is the same there. -/
theorem eq_along_chain {α : Type} (t : DominatorTree) (f : Nat → α) (q fuel : Nat)
    (ancestor : q ∈ t.chainFrom fuel v)
    (same : ∀ x ∈ (t.chainFrom fuel v).takeWhile (· ≠ q), ∀ p, t.parent? x = some p → f x = f p) :
    f v = f q := by
  induction fuel generalizing v with
  | zero =>
    rw [DominatorTree.chainFrom, List.mem_singleton] at ancestor
    rw [ancestor]
  | succ fuel ih =>
    by_cases here : v = q
    · rw [here]
    · cases parent : t.parent? v with
      | none =>
        simp only [DominatorTree.chainFrom, parent, List.mem_singleton] at ancestor
        rw [ancestor]
      | some p =>
        simp only [DominatorTree.chainFrom, parent] at ancestor same
        rw [List.takeWhile_cons_of_pos (by simpa using here)] at same
        have above : q ∈ t.chainFrom fuel p :=
          (List.mem_cons.mp ancestor).resolve_left (Ne.symm here)
        exact (same v (by simp) p parent).trans
          (ih above fun x member => same x (List.mem_cons_of_mem _ member))

/-! Subtrees. -/

/-- The node `c` is `b` or comes below it in the tree. -/
inductive Below (t : DominatorTree) (b : Nat) : Nat → Prop where
  | self : Below t b b
  | child {p c : Nat} : Below t b p → t.parent? c = some p → Below t b c

omit rooted in
theorem Below.of_child {t : DominatorTree} (parent : t.parent? c = some b)
    (below : Below t c d) : Below t b d := by
  induction below with
  | self => exact .child .self parent
  | child _ link ih => exact .child ih link

omit rooted in
theorem below_iff {t : DominatorTree} :
    Below t b d ↔ d = b ∨ ∃ c, t.parent? c = some b ∧ Below t c d := by
  refine ⟨fun below => ?_, ?_⟩
  · induction below with
    | self => exact .inl rfl
    | @child p c _ link ih =>
      rcases ih with rfl | ⟨a, parent, lower⟩
      · exact .inr ⟨c, link, .self⟩
      · exact .inr ⟨a, parent, .child lower link⟩
  · rintro (rfl | ⟨c, parent, below⟩)
    · exact .self
    · exact below.of_child parent

theorem Below.rank_le (below : Below (g.dominators entry) b c) :
    g.rank entry b ≤ g.rank entry c := by
  induction below with
  | self => exact Nat.le_refl _
  | child _ link ih => exact Nat.le_trans ih (Nat.le_of_lt (rank_parent_lt rooted link))

/-- Subtrees of different children of a node have nothing in common. -/
theorem Below.unique {c' : Nat} (parent : (g.dominators entry).parent? c = some b)
    (parent' : (g.dominators entry).parent? c' = some b) (below : Below (g.dominators entry) c d)
    (below' : Below (g.dominators entry) c' d) : c = c' := by
  -- a child is not below another one: the parent of both would be
  have apart {x y : Nat} (x_parent : (g.dominators entry).parent? x = some b)
      (y_parent : (g.dominators entry).parent? y = some b)
      (x_below : Below (g.dominators entry) y x) : x = y := by
    cases x_below with
    | self => rfl
    | child upper link =>
      rw [x_parent] at link
      obtain rfl := Option.some.inj link
      exact absurd (upper.rank_le rooted) (Nat.not_le.mpr (rank_parent_lt rooted y_parent))
  induction below with
  | self => exact apart parent parent' below'
  | child upper link ih =>
    cases below' with
    | self => exact (apart parent' parent (.child upper link)).symm
    | child upper' link' =>
      rw [link] at link'
      obtain rfl := Option.some.inj link'
      exact ih upper'

theorem Below.reached (below : Below (g.dominators entry) b c)
    (reached : g.Reached entry b) : g.Reached entry c := by
  cases below with
  | self => exact reached
  | child _ link => exact (parent_closest rooted link).1

theorem below_entry (reached : g.Reached entry c) : Below (g.dominators entry) entry c := by
  induction rank : g.rank entry c using Nat.strong_induction_on generalizing c with
  | _ n ih =>
    by_cases root : c = entry
    · rw [root]
      exact .self
    · obtain ⟨p, parent⟩ := exists_parent rooted reached root
      have smaller := rank_parent_lt rooted parent
      exact .child (ih _ (rank ▸ smaller) (reached_parent rooted parent) rfl) parent

theorem mem_children :
    c ∈ (g.dominators entry).children b ↔ (g.dominators entry).parent? c = some b := by
  obtain ⟨spans, complete⟩ := spanningTree_spec rooted.inside
  refine (addBelow_foldr _ _ _ b c).1.trans ⟨fun h => h.2.1, fun parent => ?_⟩
  obtain ⟨reached, dom, _⟩ := parent_closest rooted parent
  exact ⟨(complete c).mpr reached, parent, (dom.reached reached).holds⟩

omit rooted in
theorem children_sorted (g : Digraph) (entry b : Nat) :
    ((g.dominators entry).children b).Pairwise (· < ·) :=
  (addBelow_foldr _ _ _ b 0).2.1

end Tree

end ScriptFlow.Digraph
