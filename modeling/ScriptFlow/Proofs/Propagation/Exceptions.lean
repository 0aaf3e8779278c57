import Mathlib.Algebra.Order.BigOperators.Group.Finset
import ScriptFlow.Proofs.FlowGraph.Outline
import ScriptFlow.Proofs.FlowGraph.Compact
import ScriptFlow.Propagation.Parameters

/-! How exceptions travel. A landing block reads what was thrown into it, directly or through one
empty block, and a block that throws has all its landing blocks look again. -/

namespace ScriptFlow.Propagation

variable {b a : Nat}
variable {σ : Type}

/-! Counting edges. -/

def degree (g : FlowGraph) (b : Nat) : Nat := (g.block b).succs.length

theorem foldl_range_add (f : Nat → Nat) (k : Nat) :
    (List.range k).foldl (fun n b => n + f b) 0 = ∑ b ∈ Finset.range k, f b := by
  induction k with
  | zero => rfl
  | succ k ih =>
    rw [List.range_succ, List.foldl_append, ih, Finset.sum_range_succ]
    rfl

theorem edgeCount_eq (g : FlowGraph) :
    Run.edgeCount g = ∑ b ∈ Finset.range g.blocks.size, degree g b := by
  have listed : g.blocks.toList.map (fun blk => blk.succs.length) =
      (List.range g.blocks.size).map (degree g) := by
    apply List.ext_getElem
    · simp
    · intro i inside _
      simp only [List.length_map, Array.length_toList] at inside
      simp [degree, FlowGraph.block, inside]
  rw [Run.edgeCount, ← Array.foldl_toList,
    ← List.foldl_map (f := fun blk : Block => blk.succs.length) (g := fun n k => n + k), listed,
    List.foldl_map, foldl_range_add]

theorem degree_outside {g : FlowGraph} (outside : ¬b < g.blocks.size) : degree g b = 0 := by
  rw [degree, g.block_outside (Nat.le_of_not_lt outside)]
  rfl

/-- The edges out of the blocks that have not been seen. -/
def remaining (g : FlowGraph) (seen : List Nat) : Nat :=
  ∑ b ∈ (Finset.range g.blocks.size).filter (· ∉ seen), degree g b

theorem remaining_cons {g : FlowGraph} {seen : List Nat} (fresh : b ∉ seen) :
    remaining g (b :: seen) + degree g b = remaining g seen := by
  have split : (Finset.range g.blocks.size).filter (· ∉ b :: seen) =
      ((Finset.range g.blocks.size).filter (· ∉ seen)).erase b := by
    ext c
    simp only [Finset.mem_filter, Finset.mem_erase, List.mem_cons]
    tauto
  rw [remaining, split, remaining]
  by_cases inside : b < g.blocks.size
  · apply Finset.sum_erase_add
    simp [inside, fresh]
  · rw [Finset.erase_eq_of_notMem (by simp [inside]), degree_outside inside, Nat.add_zero]

theorem degree_le_edgeCount (g : FlowGraph) (b : Nat) : degree g b ≤ Run.edgeCount g := by
  rw [edgeCount_eq]
  by_cases inside : b < g.blocks.size
  · exact Finset.single_le_sum (fun _ _ => Nat.zero_le _) (Finset.mem_range.mpr inside)
  · rw [degree_outside inside]
    exact Nat.zero_le _

/-- Each predecessor has an edge of its own. -/
theorem length_preds_le {g : FlowGraph} (linked : g.Linked) (b : Nat) :
    (g.block b).preds.length ≤ Run.edgeCount g := by
  have edge : ∀ a ∈ (g.block b).preds.toFinset, b ∈ g.succIds a :=
    fun a member => (linked.symm a b).mpr (List.mem_toFinset.mp member)
  have some_edge : ∀ a ∈ (g.block b).preds.toFinset, 1 ≤ degree g a := by
    intro a member
    have positive := List.length_pos_of_mem (edge a member)
    rwa [FlowGraph.succIds, List.length_map] at positive
  have inside : (g.block b).preds.toFinset ⊆ Finset.range g.blocks.size := by
    intro a member
    exact Finset.mem_range.mpr (FlowGraph.Linked.source_inside a b (edge a member))
  calc (g.block b).preds.length
      = ∑ _a ∈ (g.block b).preds.toFinset, 1 := by
        rw [← List.toFinset_card_of_nodup (linked.preds_distinct b), Finset.card_eq_sum_ones]
    _ ≤ ∑ a ∈ (g.block b).preds.toFinset, degree g a := Finset.sum_le_sum some_edge
    _ ≤ Run.edgeCount g := by
        rw [edgeCount_eq]
        exact Finset.sum_le_sum_of_subset inside

/-! What a block throws, and where to. -/

/-- An exception was found to go from one block to the other. -/
def Raised (g : FlowGraph) (a b : Nat) : Prop :=
  (g.edge? a b).any (fun f => f.executable && f.isException) = true

/-- The block has no instructions, so that exceptions pass through it. -/
def Passes (g : FlowGraph) (b : Nat) : Prop := (g.block b).instrs = []

/-- What is thrown in `a` gets to `b`. -/
def Throws (g : FlowGraph) (a b : Nat) : Prop :=
  ∃ x, Raised g a x ∧ (x = b ∨ Passes g x ∧ Raised g x b)

/-- An exception does not pass through two blocks in a row. -/
def Guarded (g : FlowGraph) : Prop :=
  ∀ a, ∀ e ∈ (g.block a).succs, e.2.isException = true → ¬Passes g a ∨ ¬Passes g e.1

theorem Raised.edge {g : FlowGraph} (raised : Raised g a b) :
    ∃ f, (b, f) ∈ (g.block a).succs ∧ f.executable = true ∧ f.isException = true := by
  unfold Raised at raised
  cases found : g.edge? a b with
  | none => simp [found] at raised
  | some f =>
    rw [found] at raised
    have flags := Bool.and_eq_true_iff.mp (Option.any_some.symm.trans raised)
    exact ⟨f, FlowGraph.mem_of_lookup found, flags.1, flags.2⟩

variable (p : Propagation σ)

/-- The types that the last instruction of a block throws. -/
def thrown (g : FlowGraph) (a : BlockId) : Ty :=
  match (g.block a).instrs.getLast?.map g.instr with
  | some (.call s) => s.raises
  | some (.raise v) => (p.operand g v).ty
  | _ => .empty

def throwers (g : FlowGraph) (b : BlockId) : List BlockId :=
  (g.block b).preds.filter fun a => (g.edge? a b).any fun f => f.executable && f.isException

theorem raisedInto_cons (g : FlowGraph) (fuel : Nat) (b : BlockId) (stack seen : List BlockId)
    (raised : Ty) :
    p.raisedInto g (fuel + 1) (b :: stack) seen raised =
      if seen.contains b then p.raisedInto g fuel stack seen raised
      else p.raisedInto g fuel
        (((throwers g b).filter fun a => (g.block a).instrs.isEmpty).reverse ++ stack) (b :: seen)
        ((throwers g b).foldl (fun t a => t.join (p.thrown g a)) raised) := rfl

theorem mem_throwers {g : FlowGraph} (linked : g.Linked) : a ∈ throwers g b ↔ Raised g a b := by
  rw [throwers, List.mem_filter]
  constructor
  · exact fun both => both.2
  · intro raised
    obtain ⟨f, edge, -⟩ := raised.edge
    exact ⟨(linked.symm a b).mp (List.mem_map_of_mem edge), raised⟩

theorem mem_foldl_join {α : Type} (f : α → Ty) (xs : List α) (t : Ty) (m : Member) :
    m ∈ (xs.foldl (fun t x => t.join (f x)) t).members ↔
      m ∈ t.members ∨ ∃ x ∈ xs, m ∈ (f x).members := by
  induction xs generalizing t with
  | nil => simp
  | cons x xs ih =>
    rw [List.foldl_cons, ih, Ty.mem_join, List.exists_mem_cons_iff, or_assoc]

/-! Landing blocks read exactly what is thrown into them. -/

theorem Raised.not_passes {g : FlowGraph} (guarded : Guarded g) {x : Nat}
    (raised : Raised g a x) (passes : Passes g x) : ¬Passes g a := by
  obtain ⟨f, edge, -, exceptional⟩ := raised.edge
  exact (guarded a (x, f) edge exceptional).resolve_right fun other => other passes

/-- The blocks that exceptions come to `b` through. -/
def passing (g : FlowGraph) (b : BlockId) : List BlockId :=
  (throwers g b).filter fun a => (g.block a).instrs.isEmpty

theorem mem_passing {g : FlowGraph} (linked : g.Linked) {x : Nat} :
    x ∈ passing g b ↔ Raised g x b ∧ Passes g x := by
  rw [passing, List.mem_filter, mem_throwers linked, List.isEmpty_iff, Passes]

section JustRaised

variable {g : FlowGraph} (linked : g.Linked) (guarded : Guarded g)
include linked guarded

/-- Everything that is found was thrown. -/
theorem throws_of_mem_raisedInto {m : Member} (fuel : Nat) (stack seen : List Nat)
    (raised : Ty) (on_way : ∀ x ∈ stack, x = b ∨ Passes g x ∧ Raised g x b)
    (found : m ∈ (p.raisedInto g fuel stack seen raised).members) :
    m ∈ raised.members ∨ ∃ a, Throws g a b ∧ m ∈ (p.thrown g a).members := by
  induction fuel generalizing stack seen raised with
  | zero => exact .inl found
  | succ fuel ih =>
    cases stack with
    | nil => exact .inl found
    | cons x stack =>
      have rest : ∀ y ∈ stack, y = b ∨ Passes g y ∧ Raised g y b :=
        fun y y_in => on_way y (List.mem_cons_of_mem x y_in)
      rw [raisedInto_cons] at found
      split at found
      · exact ih stack seen raised rest found
      · have on_way' : ∀ y ∈ (passing g x).reverse ++ stack, y = b ∨ Passes g y ∧ Raised g y b := by
          intro y y_in
          rcases List.mem_append.mp y_in with new | old
          · obtain ⟨raised, empty⟩ := (mem_passing linked).mp (List.mem_reverse.mp new)
            rcases on_way x List.mem_cons_self with rfl | ⟨passes, -⟩
            · exact .inr ⟨empty, raised⟩
            · exact absurd empty (raised.not_passes guarded passes)
          · exact rest y old
        rcases ih _ _ _ on_way' found with old | new
        · rcases (mem_foldl_join _ _ _ _).mp old with old | ⟨a, thrower, member⟩
          · exact .inl old
          · have raised := (mem_throwers linked).mp thrower
            exact .inr ⟨a, ⟨x, raised, on_way x List.mem_cons_self⟩, member⟩
        · exact .inr new

omit linked guarded in
/-- The blocks on the stack are all looked at, if exceptions come to them through no others. -/
theorem raisedInto_flat (fuel : Nat) (stack seen : List Nat) (raised : Ty)
    (enough : stack.length ≤ fuel) (last : ∀ x ∈ stack, passing g x = []) :
    raised.members ⊆ (p.raisedInto g fuel stack seen raised).members ∧
    ∀ x ∈ stack, x ∉ seen → ∀ a ∈ throwers g x,
      (p.thrown g a).members ⊆ (p.raisedInto g fuel stack seen raised).members := by
  induction fuel generalizing stack seen raised with
  | zero =>
    rw [List.length_eq_zero_iff.mp (Nat.le_zero.mp enough)]
    exact ⟨List.Subset.refl _, fun x none => absurd none List.not_mem_nil⟩
  | succ fuel ih =>
    cases stack with
    | nil => exact ⟨List.Subset.refl _, fun x none => absurd none List.not_mem_nil⟩
    | cons x stack =>
      have enough' : stack.length ≤ fuel := Nat.le_of_succ_le_succ enough
      have last' : ∀ y ∈ stack, passing g y = [] :=
        fun y y_in => last y (List.mem_cons_of_mem x y_in)
      rw [raisedInto_cons]
      split
      · rename_i known
        obtain ⟨kept, rest⟩ := ih stack seen raised enough' last'
        refine ⟨kept, fun y y_in fresh => ?_⟩
        rcases List.mem_cons.mp y_in with rfl | later
        · exact absurd (List.contains_iff_mem.mp known) fresh
        · exact rest y later fresh
      · have none : ((throwers g x).filter fun a => (g.block a).instrs.isEmpty) = [] :=
          last x List.mem_cons_self
        rw [none, List.reverse_nil, List.nil_append]
        obtain ⟨kept, rest⟩ := ih stack (x :: seen)
          ((throwers g x).foldl (fun t a => t.join (p.thrown g a)) raised) enough' last'
        have here : ∀ a ∈ throwers g x, (p.thrown g a).members ⊆ (p.raisedInto g fuel stack
            (x :: seen) ((throwers g x).foldl (fun t a => t.join (p.thrown g a)) raised)).members :=
          fun a thrower m member => kept ((mem_foldl_join _ _ _ _).mpr (.inr ⟨a, thrower, member⟩))
        constructor
        · exact fun m member => kept ((mem_foldl_join _ _ _ _).mpr (.inl member))
        · intro y y_in fresh
          by_cases same : y = x
          · rw [same]
            exact here
          · have later := (List.mem_cons.mp y_in).resolve_left same
            exact rest y later fun seen => (List.mem_cons.mp seen).elim same fresh

theorem mem_justRaised (proper : ¬Passes g b) {m : Member} :
    m ∈ (p.justRaised g b).members ↔ ∃ a, Throws g a b ∧ m ∈ (p.thrown g a).members := by
  constructor
  · intro found
    have on_way : ∀ x ∈ [b], x = b ∨ Passes g x ∧ Raised g x b :=
      fun x x_in => .inl (List.mem_singleton.mp x_in)
    rcases p.throws_of_mem_raisedInto linked guarded _ [b] [] .empty on_way found with none | thrown
    · cases none
    · exact thrown
  · rintro ⟨a, ⟨x, raised, way⟩, member⟩
    have enough : (passing g b).reverse.length ≤ Run.edgeCount g := by
      rw [List.length_reverse]
      calc (passing g b).length ≤ (throwers g b).length := List.length_filter_le _ _
        _ ≤ (g.block b).preds.length := List.length_filter_le _ _
        _ ≤ Run.edgeCount g := length_preds_le linked b
    have last : ∀ y ∈ (passing g b).reverse, passing g y = [] := by
      intro y y_in
      have passes := ((mem_passing linked).mp (List.mem_reverse.mp y_in)).2
      apply List.eq_nil_iff_forall_not_mem.mpr
      intro z z_in
      obtain ⟨raised, empty⟩ := (mem_passing linked).mp z_in
      exact raised.not_passes guarded passes empty
    obtain ⟨kept, rest⟩ := p.raisedInto_flat (Run.edgeCount g) (passing g b).reverse [b]
      ((throwers g b).foldl (fun t a => t.join (p.thrown g a)) .empty) enough last
    unfold justRaised
    rw [raisedInto_cons, List.append_nil]
    change m ∈ (p.raisedInto g (Run.edgeCount g) (passing g b).reverse [b] _).members
    have thrower := (mem_throwers linked).mpr raised
    rcases way with rfl | ⟨passes, onward⟩
    · exact kept ((mem_foldl_join _ _ _ _).mpr (.inr ⟨a, thrower, member⟩))
    · have x_in := List.mem_reverse.mpr ((mem_passing linked).mpr ⟨onward, passes⟩)
      have other : x ∉ [b] := by
        intro same
        rw [List.mem_singleton.mp same] at passes
        exact proper passes
      exact rest x x_in other a thrower member

end JustRaised

/-! A block that throws has its landing blocks look again. -/

/-- An exception may go from one block to the other. -/
def Excepts (g : FlowGraph) (a b : Nat) : Prop := b ∈ g.successors a .exception

theorem length_successors_le (g : FlowGraph) (b : Nat) (filter : EdgeFilter) :
    (g.successors b filter).length ≤ degree g b := by
  rw [FlowGraph.successors, List.length_map]
  exact List.length_filter_le _ _

theorem exceptionReach_spec (g : FlowGraph) (fuel : Nat) (stack seen : List Nat)
    (enough : stack.length + remaining g seen ≤ fuel) :
    (∀ c ∈ stack, c ∉ seen → g.isExecuted c = true → c ∈ Run.exceptionReach g fuel stack seen) ∧
    ∀ x ∈ Run.exceptionReach g fuel stack seen, Passes g x → ∀ c, Excepts g x c → c ∉ seen →
      g.isExecuted c = true → c ∈ Run.exceptionReach g fuel stack seen := by
  induction fuel generalizing stack seen with
  | zero =>
    have empty : stack = [] := List.length_eq_zero_iff.mp (by omega)
    subst empty
    exact ⟨fun c none => absurd none List.not_mem_nil, fun x none => absurd none List.not_mem_nil⟩
  | succ fuel ih =>
    cases stack with
    | nil =>
      exact ⟨fun c none => absurd none List.not_mem_nil, fun x none => absurd none List.not_mem_nil⟩
    | cons b stack =>
      rw [List.length_cons] at enough
      rw [Run.exceptionReach]
      split
      · rename_i known
        obtain ⟨listed, onward⟩ := ih stack seen (by omega)
        refine ⟨fun c c_in fresh => ?_, onward⟩
        rcases List.mem_cons.mp c_in with rfl | later
        · exact absurd (List.contains_iff_mem.mp known) fresh
        · exact listed c later fresh
      · rename_i new
        have fresh : b ∉ seen := fun known => new (List.contains_iff_mem.mpr known)
        have left := remaining_cons (g := g) fresh
        split
        · extract_lets next
          have few : next.length ≤ degree g b := by
            dsimp only [next]
            split
            · exact length_successors_le g b .exception
            · exact Nat.zero_le _
          obtain ⟨listed, onward⟩ := ih (next.reverse ++ stack) (b :: seen) (by
            rw [List.length_append, List.length_reverse]
            omega)
          -- what is new to `b :: seen` is listed by the rest, and `b` itself comes first
          have later : ∀ c, c ∉ seen → (c ∉ b :: seen → c ∈ Run.exceptionReach g fuel
              (next.reverse ++ stack) (b :: seen)) →
              c ∈ b :: Run.exceptionReach g fuel (next.reverse ++ stack) (b :: seen) := by
            intro c c_fresh rest
            by_cases same : c = b
            · exact List.mem_cons.mpr (.inl same)
            · have unseen : c ∉ b :: seen := fun known => (List.mem_cons.mp known).elim same c_fresh
              exact List.mem_cons_of_mem b (rest unseen)
          constructor
          · intro c c_in c_fresh executed
            apply later c c_fresh
            intro unseen
            rcases List.mem_cons.mp c_in with rfl | c_in
            · exact absurd List.mem_cons_self unseen
            · exact listed c (List.mem_append_right _ c_in) unseen executed
          · intro x x_in passes c excepts c_fresh executed
            apply later c c_fresh
            intro unseen
            rcases List.mem_cons.mp x_in with rfl | x_in
            · have c_next : c ∈ next := by
                dsimp only [next]
                rw [if_pos (List.isEmpty_iff.mpr passes)]
                exact excepts
              exact listed c (List.mem_append_left _ (List.mem_reverse.mpr c_next)) unseen executed
            · exact onward x x_in passes c excepts unseen executed
        · rename_i idle
          obtain ⟨listed, onward⟩ := ih stack (b :: seen) (by omega)
          have unseen : ∀ c, g.isExecuted c = true → c ∉ seen → c ∉ b :: seen := by
            intro c executed c_fresh known
            rcases List.mem_cons.mp known with rfl | known
            · exact idle executed
            · exact c_fresh known
          constructor
          · intro c c_in c_fresh executed
            rcases List.mem_cons.mp c_in with rfl | c_in
            · exact absurd executed idle
            · exact listed c c_in (unseen c executed c_fresh) executed
          · intro x x_in passes c excepts c_fresh executed
            exact onward x x_in passes c excepts (unseen c executed c_fresh) executed

theorem remaining_nil (g : FlowGraph) : remaining g [] = Run.edgeCount g := by
  rw [remaining, edgeCount_eq]
  simp

/-- Exceptions of `a` come to `b` directly or through one empty block. -/
theorem mem_raiseReaders {g : FlowGraph} {x : Nat} (excepts : Excepts g a x)
    (executed : g.isExecuted x = true) (executed' : g.isExecuted b = true)
    (way : x = b ∨ Passes g x ∧ Excepts g x b) : b ∈ Run.raiseReaders g a := by
  have few := Nat.le_trans (length_successors_le g a .exception) (degree_le_edgeCount g a)
  obtain ⟨listed, onward⟩ := exceptionReach_spec g (2 * Run.edgeCount g)
    (g.successors a .exception).reverse [] (by
      rw [remaining_nil, List.length_reverse]
      omega)
  have first := listed x (List.mem_reverse.mpr excepts) List.not_mem_nil executed
  rcases way with rfl | ⟨passes, excepts'⟩
  · exact first
  · exact onward x first passes b excepts' List.not_mem_nil executed'

end ScriptFlow.Propagation
