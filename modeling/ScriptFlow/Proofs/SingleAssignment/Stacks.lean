import Mathlib.Data.List.Nodup
import Mathlib.Data.List.Perm.Subperm
import ScriptFlow.Proofs.Dict
import ScriptFlow.Proofs.Digraph.DominatorTree
import ScriptFlow.SingleAssignment

/-! The walk with a stack for each binding does the same as one that hands the names in force down the
tree: what is pushed on the way into a block is popped on the way out. -/

namespace ScriptFlow.SingleAssignment

open FlowGraph

/-- Definitions in force, the latest first: a binding and its generation. -/
abbrev Names := List (BindingId × BindingId)

instance : Coe Names InForce := ⟨fun names v => names.lookup v⟩

def nameInstr (state : Renaming × Names) (i : InstrId) : Renaming × Names :=
  match renameInstr state.2 state.1 i with
  | (r, some e) => (r, e :: state.2)
  | (r, none) => (r, state.2)

def nameBlock (names : Names) (r : Renaming) (b : BlockId) : Renaming × Names :=
  let (r, names) := (r.graph.block b).instrs.foldl nameInstr (r, names)
  (fillSuccessors b names r, names)

/-- Renames a block and the blocks it dominates. The names in force at its end are in force at the
start of each of its children. -/
def nameTree (t : DominatorTree) : (fuel : Nat) → Names → Renaming → BlockId → Renaming
  | 0, _, r, _ => r
  | fuel + 1, names, r, b =>
    let (r, names) := nameBlock names r b
    (t.children b).foldl (nameTree t fuel names) r

/-- Blocks that are not reached are renamed each for itself. -/
def nameAll (t : DominatorTree) (r : Renaming) : Renaming :=
  let r := nameTree t r.graph.blocks.size [] r t.entry
  (r.graph.liveBlocks.filter fun b => !t.isReached b).foldl (fun r b => (nameBlock [] r b).1) r

/-! One block. -/

/-- The generations of a binding among the names. -/
def Names.of (names : Names) (v : BindingId) : List BindingId := (names.filter (·.1 == v)).map (·.2)

theorem Names.head?_of (names : Names) (v : BindingId) : (Names.of names v).head? = names.lookup v := by
  induction names with
  | nil => rfl
  | cons e names ih =>
    rw [List.lookup_cons, of, List.filter_cons, ← ih]
    grind [of]

namespace Stacks

variable {s : Stacks} {names new : Names} {r : Renaming} {b : Nat}

def Hold (s : Stacks) (names : Names) : Prop := ∀ v, s.of v = Names.of names v

theorem Hold.top? (hold : s.Hold names) : s.top? = (names : InForce) :=
  funext fun v => (congrArg List.head? (hold v)).trans (Names.head?_of names v)

theorem Hold.push (hold : s.Hold names) (e : BindingId × BindingId) :
    (s.push e.1 e.2).Hold (e :: names) := by
  intro v
  rw [Stacks.of, Stacks.push, Dict.get?_put, hold e.1, Names.of, Names.of, List.filter_cons]
  split
  · simp_all
  · rename_i other
    rw [if_neg (by simpa using Ne.symm other)]
    exact hold v

theorem of_pop (s : Stacks) (u v : BindingId) :
    (s.pop u).of v = if v = u then (s.of v).tail else s.of v := by
  unfold pop
  split
  · rename_i names found
    rw [Stacks.of, Dict.get?_put]
    split
    · rename_i here
      rw [here, Stacks.of, found]
      rfl
    · rfl
  · rename_i missing
    split
    · rename_i here
      rw [here, Stacks.of, missing]
      rfl
    · rfl

theorem of_pops (us : List BindingId) (s : Stacks) (v : BindingId) :
    (us.foldl pop s).of v = (s.of v).drop (us.count v) := by
  induction us generalizing s with
  | nil => rfl
  | cons u us ih =>
    rw [List.foldl_cons, ih, of_pop]
    split
    · rename_i here
      rw [here, List.count_cons_self, List.drop_tail]
    · rename_i other
      rw [List.count_cons_of_ne (Ne.symm other)]

/-- One pop for each name that was made leaves the names before. -/
theorem Hold.leave (hold : s.Hold (new ++ names)) :
    ((new.map (·.1)).reverse.foldl pop s).Hold names := by
  intro v
  have count : (new.map (·.1)).reverse.count v = (Names.of new v).length := by
    rw [List.count_reverse, Names.of, List.length_map, ← List.countP_eq_length_filter, List.count,
      List.countP_map]
    rfl
  have whole : s.of v = Names.of new v ++ Names.of names v := by
    rw [hold v, Names.of, List.filter_append, List.map_append]
    rfl
  rw [of_pops, whole, count, List.drop_left]

theorem pushNames_eq (r : Renaming) (new : Names) (is : List InstrId) (hold : s.Hold (new ++ names)) :
    ∃ s' made, is.foldl pushName (r, s, (new.map (·.1)).reverse) =
        ((is.foldl nameInstr (r, new ++ names)).1, s', (made.map (·.1)).reverse) ∧
      (is.foldl nameInstr (r, new ++ names)).2 = made ++ names ∧ s'.Hold (made ++ names) := by
  induction is generalizing r s new with
  | nil => exact ⟨s, new, rfl, rfl, hold⟩
  | cons i is ih =>
    rw [List.foldl_cons, List.foldl_cons, pushName, nameInstr]
    dsimp only
    rw [hold.top?]
    generalize renameInstr _ r i = out
    obtain ⟨r', defined⟩ := out
    cases defined with
    | none => exact ih r' new hold
    | some e =>
      have rest := ih r' (e :: new) (hold.push e)
      rw [List.map_cons, List.reverse_cons] at rest
      exact rest

theorem renameBlock_eq (r : Renaming) (b : Nat) (hold : s.Hold names) :
    ∃ s' made, renameBlock r s b = ((nameBlock names r b).1, s', (made.map (·.1)).reverse) ∧
      (nameBlock names r b).2 = made ++ names ∧ s'.Hold (made ++ names) := by
  obtain ⟨s', made, walked, after, held⟩ :=
    pushNames_eq r [] (r.graph.block b).instrs hold
  rw [List.map_nil, List.reverse_nil, List.nil_append] at walked
  rw [List.nil_append] at after
  rw [renameBlock, walked, nameBlock]
  generalize (r.graph.block b).instrs.foldl nameInstr (r, names) = out at after
  obtain ⟨r', _⟩ := out
  subst after
  exact ⟨s', made, by dsimp only; rw [held.top?], rfl, held⟩

theorem renameOrphans_eq (bs : List BlockId) (hold : s.Hold []) :
    (bs.foldl renameOrphan (r, s)).1 = bs.foldl (fun r b => (nameBlock [] r b).1) r := by
  induction bs generalizing r s with
  | nil => rfl
  | cons b bs ih =>
    obtain ⟨s', made, renamed, -, held⟩ := renameBlock_eq r b hold
    rw [List.foldl_cons, List.foldl_cons, renameOrphan, renamed]
    exact ih held.leave

end Stacks

/-! Down the tree. -/

/-- The nodes of a subtree. -/
def subtree (t : DominatorTree) : (fuel : Nat) → Nat → List Nat
  | 0, _ => []
  | fuel + 1, b => b :: (t.children b).flatMap (subtree t fuel)

section

variable {d : Digraph} (rooted : d.Rooted enter) {r : Renaming} {s : Stacks} {names : Names} {b : Nat}
include rooted

theorem subtree_distinct (fuel : Nat) (b : Nat) :
    (∀ x ∈ subtree (d.dominators enter) fuel b, Digraph.Below (d.dominators enter) b x) ∧
      (subtree (d.dominators enter) fuel b).Nodup := by
  induction fuel generalizing b with
  | zero => exact ⟨fun _ member => absurd member List.not_mem_nil, List.nodup_nil⟩
  | succ fuel ih =>
    have link {c : Nat} (child : c ∈ (d.dominators enter).children b) :=
      (Digraph.mem_children rooted).mp child
    rw [subtree]
    refine ⟨fun x member => ?_, List.nodup_cons.mpr ⟨fun member => ?_, List.nodup_flatMap.mpr
      ⟨fun c _ => (ih c).2, (Digraph.children_sorted d enter b).imp_of_mem ?_⟩⟩⟩
    · rcases List.mem_cons.mp member with rfl | lower
      · exact .self
      · obtain ⟨c, child, inside⟩ := List.mem_flatMap.mp lower
        exact ((ih c).1 x inside).of_child (link child)
    · obtain ⟨c, child, inside⟩ := List.mem_flatMap.mp member
      exact Nat.not_le.mpr (Digraph.rank_parent_lt rooted (link child))
        (((ih c).1 b inside).rank_le rooted)
    · intro c c' child child' less x in_c in_c'
      exact Nat.ne_of_lt less
        (Digraph.Below.unique rooted (link child) (link child') ((ih c).1 x in_c) ((ih c').1 x in_c'))

theorem length_subtree_le (fuel : Nat) (reached : d.Reached enter b) :
    (subtree (d.dominators enter) fuel b).length ≤ d.size := by
  obtain ⟨below, distinct⟩ := subtree_distinct rooted fuel b
  have inside : subtree (d.dominators enter) fuel b ⊆ List.range d.size := fun x member =>
    List.mem_range.mpr ((below x member).reached rooted reached).holds
  exact (List.subperm_of_subset distinct inside).length_le.trans_eq List.length_range

omit rooted in
theorem visits_children {t : DominatorTree} (fuel : Nat)
    (tree : ∀ {r : Renaming} {s : Stacks} {c : Nat}, c ∈ t.children b → s.Hold names →
      ∃ s' : Stacks, s'.Hold names ∧ ∀ more visits,
        renameVisits t (2 * (subtree t fuel c).length + more) r s (.enter c :: visits) =
          renameVisits t more (nameTree t fuel names r c) s' visits)
    (cs : List Nat) (children : cs ⊆ t.children b) (hold : s.Hold names) :
    ∃ s' : Stacks, s'.Hold names ∧ ∀ more visits,
      renameVisits t (2 * (cs.flatMap (subtree t fuel)).length + more) r s
          (cs.map .enter ++ visits) =
        renameVisits t more (cs.foldl (nameTree t fuel names) r) s' visits := by
  induction cs generalizing r s with
  | nil => exact ⟨s, hold, fun more visits => by simp⟩
  | cons c cs ih =>
    rw [List.cons_subset] at children
    obtain ⟨s₁, held₁, first⟩ := tree (r := r) children.1 hold
    obtain ⟨s₂, held₂, rest⟩ := ih (r := nameTree t fuel names r c) children.2 held₁
    refine ⟨s₂, held₂, fun more visits => ?_⟩
    rw [List.flatMap_cons, List.length_append, Nat.mul_add, Nat.add_assoc, List.map_cons,
      List.cons_append, first, rest]
    rfl

/-- Entering a block leads to leaving it, with the blocks below it renamed in between. -/
theorem visits_tree (fuel : Nat) (reached : d.Reached enter b)
    (enough : d.size ≤ fuel + d.rank enter b) (hold : s.Hold names) :
    ∃ s' : Stacks, s'.Hold names ∧ ∀ more visits,
      renameVisits (d.dominators enter)
          (2 * (subtree (d.dominators enter) fuel b).length + more) r s (.enter b :: visits) =
        renameVisits (d.dominators enter) more (nameTree (d.dominators enter) fuel names r b) s'
          visits := by
  induction fuel generalizing r s names b with
  | zero =>
    have := Digraph.rank_lt_size rooted.inside reached
    omega
  | succ fuel ih =>
    obtain ⟨s₁, made, renamed, after, held₁⟩ := Stacks.renameBlock_eq r b hold
    obtain ⟨s₂, held₂, below⟩ := visits_children (b := b) (r := (nameBlock names r b).1) fuel
      (fun child hold => by
        have link := (Digraph.mem_children rooted).mp child
        have deeper := Digraph.rank_parent_lt rooted link
        exact ih (Digraph.parent_closest rooted link).1 (by omega) hold)
      ((d.dominators enter).children b) (List.Subset.refl _) held₁
    refine ⟨_, held₂.leave, fun more visits => ?_⟩
    have visited : 2 * (subtree (d.dominators enter) (fuel + 1) b).length + more =
        2 * (((d.dominators enter).children b).flatMap (subtree (d.dominators enter) fuel)).length +
          (more + 1) + 1 := by
      rw [subtree, List.length_cons]
      omega
    rw [visited, renameVisits, renamed]
    dsimp only
    rw [below, renameVisits, nameTree, ← after]

/-- The walk with stacks renames as the walk that hands names down. -/
theorem renameAll_eq (size : r.graph.blocks.size = d.size) :
    renameAll (d.dominators enter) r = nameAll (d.dominators enter) r := by
  have start : d.Reached enter enter := .start rooted.inside
  have empty : Stacks.Hold .empty [] := fun _ => rfl
  obtain ⟨s, held, walked⟩ :=
    visits_tree rooted (r := r) r.graph.blocks.size start (by omega) empty
  have few := length_subtree_le rooted r.graph.blocks.size start
  obtain ⟨more, enough⟩ : ∃ more, 2 * r.graph.blocks.size =
      2 * (subtree (d.dominators enter) r.graph.blocks.size enter).length + more :=
    ⟨_, (Nat.add_sub_of_le (by omega)).symm⟩
  have ended (r : Renaming) : renameVisits (d.dominators enter) more r s [] = (r, s) := by
    cases more <;> rfl
  have entry : (d.dominators enter).entry = enter := rfl
  rw [renameAll, nameAll, entry, enough, walked, ended]
  exact Stacks.renameOrphans_eq _ held

end

end ScriptFlow.SingleAssignment
