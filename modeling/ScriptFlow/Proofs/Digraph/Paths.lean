import Mathlib.Data.List.Chain
import ScriptFlow.Proofs.Digraph.DominatorTree

/-! Dominance in terms of paths: the dominators of a node are what all paths to it have in common,
and the dominator tree records exactly them. -/

namespace ScriptFlow.Digraph

variable {g : Digraph} {entry : Nat}

/-- A path over nodes of the graph, given by the nodes it passes. -/
structure IsPath (g : Digraph) (a b : Nat) (path : List Nat) : Prop where
  chain : path.IsChain fun v w => w ∈ g.successors v
  inside : ∀ v ∈ path, v < g.size
  first : path.head? = some a
  last : path.getLast? = some b

/-- Every path from the entry to `b` passes `a`. -/
def OnEveryPath (g : Digraph) (entry a b : Nat) : Prop := ∀ path, g.IsPath entry b path → a ∈ path

theorem IsPath.snoc {a b c : Nat} {path : List Nat} (is_path : g.IsPath a b path)
    (edge : c ∈ g.successors b) (inside : c < g.size) : g.IsPath a c (path ++ [c]) where
  chain := by
    refine List.isChain_append.mpr ⟨is_path.chain, by simp, fun x x_last y y_first => ?_⟩
    rw [is_path.last] at x_last
    cases x_last
    cases y_first
    exact edge
  inside x member := by
    rcases List.mem_append.mp member with old | new
    · exact is_path.inside x old
    · rwa [List.mem_singleton.mp new]
  first := by
    rw [List.head?_append, is_path.first]
    rfl
  last := by simp

/-- A node is reached over nodes of some kind exactly if a path over such nodes leads to it. -/
theorem reach_iff_path {ok : Nat → Prop} (within : ∀ v, ok v → v < g.size) {v : Nat} :
    g.Reach entry ok v ↔ ∃ path, g.IsPath entry v path ∧ ∀ x ∈ path, ok x := by
  constructor
  · intro reach
    induction reach with
    | start h => exact ⟨[entry], ⟨by simp, by simpa using within _ h, rfl, rfl⟩, by simpa using h⟩
    | @step v w _ edge h ih =>
      obtain ⟨path, is_path, all⟩ := ih
      refine ⟨path ++ [w], is_path.snoc edge (within w h), fun x member => ?_⟩
      rcases List.mem_append.mp member with old | new
      · exact all x old
      · rw [List.mem_singleton.mp new]
        exact h
  · rintro ⟨path, ⟨chain, inside, first, last⟩, all⟩
    induction path generalizing entry with
    | nil => cases first
    | cons x path ih =>
      obtain rfl : x = entry := by simpa using first
      cases path with
      | nil =>
        obtain rfl : x = v := by simpa using last
        exact .start (all x (by simp))
      | cons y path =>
        rw [List.isChain_cons_cons] at chain
        refine .cons (all x (by simp)) chain.1 (ih ?_ chain.2 ?_ rfl ?_)
        · exact fun z member => all z (List.mem_cons_of_mem _ member)
        · exact fun z member => inside z (List.mem_cons_of_mem _ member)
        · simpa using last

theorem reached_iff_path {v : Nat} : g.Reached entry v ↔ ∃ path, g.IsPath entry v path := by
  refine (reach_iff_path fun _ h => h).trans ?_
  exact ⟨fun ⟨path, is_path, _⟩ => ⟨path, is_path⟩,
    fun ⟨path, is_path⟩ => ⟨path, is_path, is_path.inside⟩⟩

theorem dominates_iff_onEveryPath {a b : Nat} :
    g.Dominates entry a b ↔ g.OnEveryPath entry a b := by
  have avoiding : g.ReachedAvoiding entry a b ↔ ∃ path, g.IsPath entry b path ∧ a ∉ path := by
    refine (reach_iff_path fun _ h => h.1).trans ?_
    refine exists_congr fun path => and_congr_right fun is_path => ?_
    exact ⟨fun all here => (all a here).2 rfl,
      fun unseen x member => ⟨is_path.inside x member, fun same => unseen (same ▸ member)⟩⟩
  have itself (path : List Nat) (is_path : g.IsPath entry b path) : b ∈ path :=
    List.mem_of_getLast? is_path.last
  constructor
  · rintro (rfl | ⟨_, dom⟩) path is_path
    · exact itself path is_path
    · by_contra unseen
      exact dom (avoiding.mpr ⟨path, is_path, unseen⟩)
  · intro every
    by_cases same : a = b
    · exact .inl same
    · refine .inr ⟨same, fun around => ?_⟩
      obtain ⟨path, is_path, unseen⟩ := avoiding.mp around
      exact unseen (every path is_path)

/-- The dominator tree records reachability, dominance and closest strict dominators. -/
theorem dominators_exact (rooted : g.Rooted entry) :
    (∀ v, (g.dominators entry).isReached v = true ↔ ∃ path, g.IsPath entry v path) ∧
    (∀ a b, (g.dominators entry).isReached b = true →
      ((g.dominators entry).dominates a b = true ↔ g.OnEveryPath entry a b)) ∧
    (∀ b, (g.dominators entry).isReached b = true → b ≠ entry →
      ∃ d, (g.dominators entry).parent? b = some d) ∧
    (∀ b d, (g.dominators entry).parent? b = some d ↔
      (g.dominators entry).isReached b = true ∧ b ≠ entry ∧
        (d ≠ b ∧ g.OnEveryPath entry d b) ∧
        ∀ a, a ≠ b → g.OnEveryPath entry a b → g.OnEveryPath entry a d) ∧
    ∀ a b, b ∈ (g.dominators entry).children a ↔ (g.dominators entry).parent? b = some a := by
  have strict {a b : Nat} : g.StrictlyDominates entry a b ↔ a ≠ b ∧ g.OnEveryPath entry a b := by
    rw [← dominates_iff_onEveryPath]
    exact ⟨fun dom => ⟨dom.1, .inr dom⟩, fun ⟨other, dom⟩ => dom.resolve_left other⟩
  refine ⟨fun v => ?_, fun a b reached => ?_, fun b reached other => ?_, fun b d => ?_,
    fun a b => mem_children rooted⟩
  · rw [isReached_iff rooted.inside, reached_iff_path]
  · rw [dominates_iff rooted ((isReached_iff rooted.inside).mp reached), dominates_iff_onEveryPath]
  · exact exists_parent rooted ((isReached_iff rooted.inside).mp reached) other
  · rw [parent?_eq_some_iff rooted, isReached_iff rooted.inside]
    simp only [strict, dominates_iff_onEveryPath, and_imp]

/-! Graphs given by their edges. -/

theorem size_addEdges (start finish : Nat × Nat → Nat) (edges : List (Nat × Nat))
    (lists : Array (List Nat)) :
    (edges.foldl (fun a e => a.modify (start e) (· ++ [finish e])) lists).size = lists.size := by
  induction edges generalizing lists with
  | nil => rfl
  | cons e edges ih => rw [List.foldl_cons, ih, Array.size_modify]

theorem mem_addEdges (start finish : Nat × Nat → Nat) (edges : List (Nat × Nat))
    (lists : Array (List Nat)) (v w : Nat) :
    w ∈ (edges.foldl (fun a e => a.modify (start e) (· ++ [finish e])) lists).getD v [] ↔
      w ∈ lists.getD v [] ∨ v < lists.size ∧ ∃ e ∈ edges, start e = v ∧ finish e = w := by
  induction edges generalizing lists with
  | nil => simp
  | cons e edges ih =>
    have first : w ∈ (lists.modify (start e) (· ++ [finish e])).getD v [] ↔
        w ∈ lists.getD v [] ∨ v < lists.size ∧ start e = v ∧ finish e = w := by
      simp only [Array.getD_eq_getD_getElem?, Array.getElem?_modify]
      grind
    rw [List.foldl_cons, ih, first, Array.size_modify]
    simp only [List.mem_cons, exists_eq_or_imp]
    grind

theorem rooted_ofEdges {size entry : Nat} {edges : List (Nat × Nat)} (inside : entry < size)
    (within : ∀ e ∈ edges, e.1 < size ∧ e.2 < size) : (ofEdges size edges).Rooted entry where
  inside := by
    have kept : (ofEdges size edges).size = size :=
      (size_addEdges Prod.fst Prod.snd edges _).trans Array.size_replicate
    rwa [kept]
  symm v w := by
    have none (v w : Nat) : w ∉ (Array.replicate size ([] : List Nat)).getD v [] := by
      simp only [Array.getD_eq_getD_getElem?, Array.getElem?_replicate]
      grind
    have preds := mem_addEdges Prod.snd Prod.fst edges (Array.replicate size []) w v
    have succs := mem_addEdges Prod.fst Prod.snd edges (Array.replicate size []) v w
    simp only [none, false_or, Array.size_replicate] at preds succs
    refine preds.trans (Iff.trans ?_ succs.symm)
    constructor
    · rintro ⟨_, e, member, to_w, from_v⟩
      exact ⟨from_v ▸ (within e member).1, e, member, from_v, to_w⟩
    · rintro ⟨_, e, member, from_v, to_w⟩
      exact ⟨to_w ▸ (within e member).2, e, member, to_w, from_v⟩

/-- A loop that is entered at both of its nodes, with ways back to the entry and a node that nothing
leads to. -/
def crossing : Digraph :=
  ofEdges 6 [(0, 1), (0, 2), (1, 2), (2, 1), (1, 3), (2, 3), (3, 0), (3, 3), (4, 3), (3, 5)]

theorem dominators_exact_crossing : crossing.Rooted 0 ∧
    (¬∃ path, crossing.IsPath 0 4 path) ∧ crossing.OnEveryPath 0 3 5 ∧
    ¬crossing.OnEveryPath 0 1 3 ∧ ((crossing.dominators 0).parent? 3 = some 0) ∧
    (∀ a, a ≠ 5 → crossing.OnEveryPath 0 a 5 → crossing.OnEveryPath 0 a 3) := by
  have rooted : crossing.Rooted 0 := rooted_ofEdges (by decide) (by decide)
  obtain ⟨reached, dominates, _, closest, _⟩ := dominators_exact rooted
  refine ⟨rooted, fun path => ?_, (dominates 3 5 ?_).mp ?_, fun every => ?_, ?_, ?_⟩
  · exact absurd ((reached 4).mpr path) (by decide +kernel)
  · decide +kernel
  · decide +kernel
  · exact absurd ((dominates 1 3 (by decide +kernel)).mpr every) (by decide +kernel)
  · decide +kernel
  · exact ((closest 5 3).mp (by decide +kernel)).2.2.2

end ScriptFlow.Digraph
