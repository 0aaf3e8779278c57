import ScriptFlow.Proofs.Cell
import ScriptFlow.Proofs.FlowGraph.Edges
import ScriptFlow.Proofs.Ty

/-! What is found out about a graph stands beside its outline. Two graphs with the same outline have
the same blocks, instructions and bindings; one of them may know more. -/

namespace ScriptFlow

variable {α : Type}

theorem Array.map_modify_of_same {β : Type} {f : α → β} {g : α → α} {xs : Array α} {i : Nat}
    (same : ∀ x, xs[i]? = some x → f (g x) = f x) : (xs.modify i g).map f = xs.map f := by
  apply Array.ext_getElem?
  intro j
  rw [Array.getElem?_map, Array.getElem?_map, Array.getElem?_modify]
  split
  · rename_i here
    cases found : xs[i]? with
    | none => simp [← here, found]
    | some x => simp [← here, found, same x found]
  · rfl

theorem Array.getD_of_map_eq {β : Type} {f : α → β} {xs ys : Array α}
    (same : ys.map f = xs.map f) (i : Nat) (d : α) : f (ys.getD i d) = f (xs.getD i d) := by
  have at_i := congrArg (fun zs => zs[i]?) same
  simp only [Array.getElem?_map] at at_i
  rw [Array.getD_eq_getD_getElem?, Array.getD_eq_getD_getElem?]
  cases left : ys[i]? with
  | none =>
    cases right : xs[i]? with
    | none => rfl
    | some x => simp [left, right] at at_i
  | some y =>
    cases right : xs[i]? with
    | none => simp [left, right] at at_i
    | some x => simpa [left, right] using at_i

def EdgeFlags.bare (f : EdgeFlags) : EdgeFlags := { f with executable := false }

def Block.outline (blk : Block) : Block :=
  { blk with succs := blk.succs.map fun e => (e.1, e.2.bare) }

def Binding.outline (x : Binding) : Binding := { x with cell := .undefined, ty := .empty }

def Instr.outline : Instr → Instr
  | .call s => .call s.reset
  | i => i

def Placed.outline (x : Placed) : Placed := ⟨x.instr.outline, x.block⟩

namespace Instr

theorem target_outline (x : Instr) : x.outline.target? = x.target? := by
  cases x <;> rfl

theorem operands_outline (x : Instr) : x.outline.operands = x.operands := by
  cases x <;> rfl

/-- Only of calls something is found out. -/
theorem eq_of_outline {x y : Instr} (same : x.outline = y.outline) :
    x = y ∨ ∃ s s', x = .call s ∧ y = .call s' ∧ s.reset = s'.reset := by
  cases x with
  | call s =>
    cases y with
    | call s' => exact .inr ⟨s, s', rfl, rfl, Instr.call.inj same⟩
    | _ => cases same
  | _ =>
    cases y with
    | call s' => cases same
    | _ => exact .inl same

end Instr

namespace FlowGraph

/-- The same graph but for what was found out about it. -/
structure SameOutline (g h : FlowGraph) : Prop where
  blocks : h.blocks.map Block.outline = g.blocks.map Block.outline
  instrs : h.instrs.map Placed.outline = g.instrs.map Placed.outline
  bindings : h.bindings.map Binding.outline = g.bindings.map Binding.outline
  scope : h.scope = g.scope

variable {g h k : FlowGraph}

namespace SameOutline

theorem refl (g : FlowGraph) : g.SameOutline g := ⟨rfl, rfl, rfl, rfl⟩

theorem trans (first : g.SameOutline h) (second : h.SameOutline k) : g.SameOutline k :=
  ⟨second.blocks.trans first.blocks, second.instrs.trans first.instrs,
    second.bindings.trans first.bindings, second.scope.trans first.scope⟩

/-! What can be read off the outline. -/

section

variable (same : g.SameOutline h)
include same

theorem block (b : Nat) : (h.block b).outline = (g.block b).outline :=
  Array.getD_of_map_eq same.blocks b default

theorem size : h.blocks.size = g.blocks.size := by
  simpa using congrArg Array.size same.blocks

theorem bindings_size : h.bindings.size = g.bindings.size := by
  simpa using congrArg Array.size same.bindings

theorem instrs_size : h.instrs.size = g.instrs.size := by
  simpa using congrArg Array.size same.instrs

theorem block_field (field : Block → α) (outlined : ∀ blk, field blk.outline = field blk)
    (b : Nat) : field (h.block b) = field (g.block b) := by
  rw [← outlined, same.block, outlined]

theorem block_instrs (b : Nat) : (h.block b).instrs = (g.block b).instrs :=
  same.block_field (·.instrs) (fun _ => rfl) b

theorem preds (b : Nat) : (h.block b).preds = (g.block b).preds :=
  same.block_field (·.preds) (fun _ => rfl) b

theorem removed (b : Nat) : (h.block b).removed = (g.block b).removed :=
  same.block_field (·.removed) (fun _ => rfl) b

theorem succs (b : Nat) : (h.block b).succs.map (fun e => (e.1, e.2.bare)) =
    (g.block b).succs.map fun e => (e.1, e.2.bare) :=
  congrArg Block.succs (same.block b)

theorem succIds (b : Nat) : h.succIds b = g.succIds b := by
  have ids := congrArg (List.map Prod.fst) (same.succs b)
  rwa [List.map_map, List.map_map] at ids

theorem placed (i : Nat) : (h.instrs.getD i default).outline = (g.instrs.getD i default).outline :=
  Array.getD_of_map_eq same.instrs i default

theorem instr (i : Nat) : (h.instr i).outline = (g.instr i).outline :=
  (Placed.mk.inj (same.placed i)).1

theorem blockOf (i : Nat) : h.blockOf i = g.blockOf i := (Placed.mk.inj (same.placed i)).2

theorem target (i : Nat) : (h.instr i).target? = (g.instr i).target? := by
  rw [← Instr.target_outline, same.instr, Instr.target_outline]

theorem operands (i : Nat) : (h.instr i).operands = (g.instr i).operands := by
  rw [← Instr.operands_outline, same.instr, Instr.operands_outline]

theorem binding (v : Nat) : (h.binding v).outline = (g.binding v).outline :=
  Array.getD_of_map_eq same.bindings v default

theorem uses (v : Nat) : (h.binding v).uses = (g.binding v).uses := by
  have recorded : ∀ x : Binding, x.outline.uses = x.uses := fun _ => rfl
  rw [← recorded, same.binding, recorded]

theorem linked (linked : g.Linked) : h.Linked := linked.of_same same.succIds same.preds

end

end SameOutline

/-! Edges. -/

theorem lookup_map_snd {β : Type} (f : α → β) (es : List (Nat × α)) (b : Nat) :
    (es.map fun e => (e.1, f e.2)).lookup b = (es.lookup b).map f := by
  induction es with
  | nil => rfl
  | cons e es ih =>
    rw [List.map_cons, List.lookup_cons, List.lookup_cons]
    split
    · rfl
    · exact ih

theorem SameOutline.edge (same : g.SameOutline h) (a b : Nat) :
    (h.edge? a b).map EdgeFlags.bare = (g.edge? a b).map EdgeFlags.bare := by
  rw [edge?, edge?, ← lookup_map_snd, ← lookup_map_snd, same.succs]

theorem EdgeFlags.accepts_bare {filter : EdgeFilter} (other : filter ≠ .executable)
    (f : EdgeFlags) : filter.accepts f.bare = filter.accepts f := by
  cases filter with
  | executable => exact absurd rfl other
  | _ => rfl

theorem SameOutline.successors (same : g.SameOutline h) (b : Nat) {filter : EdgeFilter}
    (other : filter ≠ .executable) : h.successors b filter = g.successors b filter := by
  have view : ∀ k : FlowGraph, k.successors b filter =
      (((k.block b).succs.map fun e => (e.1, e.2.bare)).filter
        fun e => filter.accepts e.2).map Prod.fst := by
    intro k
    rw [FlowGraph.successors, List.filter_map, List.map_map]
    apply congrArg
    apply List.filter_congr
    intro e _
    exact (EdgeFlags.accepts_bare other e.2).symm
  rw [view, view, same.succs]

theorem lookup_map_at (f : α → α) (es : List (Nat × α)) (b d : Nat) :
    (es.map fun e => if e.1 = b then (e.1, f e.2) else e).lookup d =
      if d = b then (es.lookup b).map f else es.lookup d := by
  induction es with
  | nil => simp
  | cons e es ih =>
    rw [List.map_cons, List.lookup_cons, List.lookup_cons, List.lookup_cons, ih]
    by_cases hit : e.1 = b
    · by_cases here : d = b
      · simp [hit, here]
      · have other : (d == b) = false := beq_eq_false_iff_ne.mpr here
        simp [hit, here, other]
    · by_cases here : d = b
      · have other : (b == e.1) = false := by simpa using Ne.symm hit
        simp [hit, here, other]
      · simp [hit, here]

theorem edge_modifyEdge (g : FlowGraph) (a b c d : Nat) (f : EdgeFlags → EdgeFlags) :
    (g.modifyEdge a b f).edge? c d =
      if c = a ∧ d = b then (g.edge? a b).map f else g.edge? c d := by
  rw [edge?, modifyEdge, block_modifyBlock]
  by_cases here : a = c
  · subst here
    by_cases inside : a < g.blocks.size
    · rw [if_pos ⟨rfl, inside⟩, lookup_map_at]
      simp [edge?]
    · have outside := g.block_outside (Nat.le_of_not_lt inside)
      have none : ∀ x, g.edge? a x = none := fun x => by rw [edge?, outside]; rfl
      rw [if_neg fun both => inside both.2]
      change g.edge? a d = _
      simp [none]
  · rw [if_neg fun both => here both.1, if_neg fun both => here both.1.symm, edge?]

/-- Control was found to take the edge. -/
def Taken (g : FlowGraph) (a b : Nat) : Prop := (g.edge? a b).any (·.executable) = true

theorem taken_modifyEdge (g : FlowGraph) (a b c d : Nat) :
    (g.modifyEdge a b ({ · with executable := true })).Taken c d ↔
      g.Taken c d ∨ c = a ∧ d = b ∧ (g.edge? a b).isSome = true := by
  rw [Taken, Taken, edge_modifyEdge]
  split
  · rename_i here
    rw [here.1, here.2]
    cases g.edge? a b <;> simp
  · rename_i elsewhere
    constructor
    · exact .inl
    · rintro (old | ⟨rfl, rfl, -⟩)
      · exact old
      · exact absurd ⟨rfl, rfl⟩ elsewhere

theorem sameOutline_modifyEdge (g : FlowGraph) (a b : Nat) :
    g.SameOutline (g.modifyEdge a b ({ · with executable := true })) where
  blocks := by
    unfold modifyEdge modifyBlock
    dsimp only
    apply Array.map_modify_of_same
    intro blk _
    rw [Block.outline, Block.outline, List.map_map]
    congr 1
    apply List.map_congr_left
    intro e _
    simp only [Function.comp]
    split <;> rfl
  instrs := rfl
  bindings := rfl
  scope := rfl

theorem sameOutline_modifyBinding (g : FlowGraph) (v : Nat) {f : Binding → Binding}
    (same : ∀ x, (f x).outline = x.outline) : g.SameOutline (g.modifyBinding v f) where
  blocks := rfl
  instrs := rfl
  bindings := Array.map_modify_of_same fun x _ => same x
  scope := rfl

theorem sameOutline_setInstr {g : FlowGraph} {i : Nat} {x : Instr}
    (same : x.outline = (g.instr i).outline) : g.SameOutline (g.setInstr i x) where
  blocks := rfl
  instrs := by
    unfold setInstr
    dsimp only
    apply Array.map_modify_of_same
    intro old found
    have there : g.instr i = old.instr := by
      rw [instr, Array.getD_eq_getD_getElem?, found]
      rfl
    rw [there] at same
    rw [Placed.outline, same, Placed.outline]
  bindings := rfl
  scope := rfl

/-! A graph of which nothing is known. -/

theorem blocks_reset (g : FlowGraph) : g.resetPropagation.blocks = g.blocks.map Block.outline := rfl

theorem bindings_reset (g : FlowGraph) :
    g.resetPropagation.bindings = g.bindings.map Binding.outline := rfl

theorem instrs_reset (g : FlowGraph) : g.resetPropagation.instrs = g.instrs.map Placed.outline := by
  apply Array.map_congr_left
  intro x _
  obtain ⟨x, b⟩ := x
  cases x <;> rfl

theorem outline_idem (blk : Block) : blk.outline.outline = blk.outline := by
  simp only [Block.outline, List.map_map]
  rfl

theorem sameOutline_reset (g : FlowGraph) : g.SameOutline g.resetPropagation where
  blocks := by
    rw [blocks_reset, Array.map_map]
    apply Array.map_congr_left
    intro blk _
    exact outline_idem blk
  instrs := by
    rw [instrs_reset, Array.map_map]
    apply Array.map_congr_left
    intro x _
    obtain ⟨x, b⟩ := x
    cases x <;> rfl
  bindings := by
    rw [bindings_reset, Array.map_map]
    rfl
  scope := rfl

theorem block_reset (g : FlowGraph) (b : Nat) :
    g.resetPropagation.block b = (g.block b).outline := by
  rw [block, blocks_reset, block, Array.getD_eq_getD_getElem?, Array.getD_eq_getD_getElem?,
    Array.getElem?_map]
  cases g.blocks[b]? <;> rfl

theorem binding_reset (g : FlowGraph) (v : Nat) :
    g.resetPropagation.binding v = (g.binding v).outline := by
  rw [binding, bindings_reset, binding, Array.getD_eq_getD_getElem?, Array.getD_eq_getD_getElem?,
    Array.getElem?_map]
  cases g.bindings[v]? <;> rfl

theorem instr_reset (g : FlowGraph) (i : Nat) :
    g.resetPropagation.instr i = (g.instr i).outline := by
  rw [instr, instrs_reset, instr, Array.getD_eq_getD_getElem?, Array.getD_eq_getD_getElem?,
    Array.getElem?_map]
  cases g.instrs[i]? <;> rfl

theorem not_taken_reset (g : FlowGraph) (a b : Nat) : ¬g.resetPropagation.Taken a b := by
  have edge : g.resetPropagation.edge? a b = (g.edge? a b).map EdgeFlags.bare := by
    rw [edge?, block_reset, edge?]
    exact lookup_map_snd EdgeFlags.bare (g.block a).succs b
  rw [Taken, edge]
  cases g.edge? a b with
  | none => exact Bool.false_ne_true
  | some f => exact Bool.false_ne_true

/-! Growth. -/

/-- Nothing that was found out is lost. -/
structure Grows (g h : FlowGraph) : Prop extends g.SameOutline h where
  cell : ∀ v : Nat, (g.binding v).cell.le (h.binding v).cell = true
  ty : ∀ v : Nat, (g.binding v).ty.members ⊆ (h.binding v).ty.members
  site : ∀ i : Nat, ∀ s, g.instr i = .call s → ∃ s', h.instr i = .call s' ∧
    s.raises.members ⊆ s'.raises.members ∧ s.methods ⊆ s'.methods ∧
    (s.frequency.isSome = true → s'.frequency.isSome = true)
  taken : ∀ a b, g.Taken a b → h.Taken a b

namespace Grows

theorem of_same (blocks : h.blocks = g.blocks) (instrs : h.instrs = g.instrs)
    (bindings : h.bindings = g.bindings) (scope : h.scope = g.scope) : g.Grows h where
  blocks := by rw [blocks]
  instrs := by rw [instrs]
  bindings := by rw [bindings]
  scope := scope
  cell v := by
    rw [binding_congr bindings]
    exact Cell.le_refl _
  ty v := by
    rw [binding_congr bindings]
    exact List.Subset.refl _
  site i s is_call := by
    rw [instr_congr instrs]
    exact ⟨s, is_call, List.Subset.refl _, List.Subset.refl _, id⟩
  taken a b taken := by
    rw [Taken, edge?, block_congr blocks]
    exact taken

theorem refl (g : FlowGraph) : g.Grows g := of_same rfl rfl rfl rfl

theorem trans (first : g.Grows h) (second : h.Grows k) : g.Grows k where
  toSameOutline := first.toSameOutline.trans second.toSameOutline
  cell v := Cell.le_trans (first.cell v) (second.cell v)
  ty v := List.Subset.trans (first.ty v) (second.ty v)
  site i s is_call := by
    obtain ⟨s', is_call', raises, methods, frequency⟩ := first.site i s is_call
    obtain ⟨s'', is_call'', raises', methods', frequency'⟩ := second.site i s' is_call'
    exact ⟨s'', is_call'', List.Subset.trans raises raises', List.Subset.trans methods methods',
      frequency' ∘ frequency⟩
  taken a b taken := second.taken a b (first.taken a b taken)

end Grows

theorem grows_modifyEdge (g : FlowGraph) (a b : Nat) :
    g.Grows (g.modifyEdge a b ({ · with executable := true })) where
  toSameOutline := sameOutline_modifyEdge g a b
  cell _ := Cell.le_refl _
  ty _ := List.Subset.refl _
  site _ s is_call := ⟨s, is_call, List.Subset.refl _, List.Subset.refl _, id⟩
  taken c d taken := (taken_modifyEdge g a b c d).mpr (.inl taken)

/-- Joining something to what is known of a binding. -/
theorem grows_learn (g : FlowGraph) (v : Nat) (cell : Cell) (ty : Ty) :
    g.Grows (g.modifyBinding v fun x =>
      { x with cell := (g.binding v).cell.join cell, ty := (g.binding v).ty.join ty }) where
  toSameOutline := sameOutline_modifyBinding g v fun _ => rfl
  cell w := by
    rw [binding_modifyBinding]
    split
    · rename_i here
      rw [← here.1]
      exact Cell.le_join_left _ _
    · exact Cell.le_refl _
  ty w := by
    rw [binding_modifyBinding]
    split
    · rename_i here
      rw [← here.1]
      exact fun a a_in => Ty.mem_join.mpr (.inl a_in)
    · exact List.Subset.refl _
  site _ s is_call := ⟨s, is_call, List.Subset.refl _, List.Subset.refl _, id⟩
  taken _ _ taken := taken

theorem grows_setInstr {g : FlowGraph} {i : Nat} {s s' : CallSite} (is_call : g.instr i = .call s)
    (same : s'.reset = s.reset) (raises : s.raises.members ⊆ s'.raises.members)
    (methods : s.methods ⊆ s'.methods) (frequency : s'.frequency.isSome = true) :
    g.Grows (g.setInstr i (.call s')) where
  toSameOutline := sameOutline_setInstr (by rw [is_call, Instr.outline, Instr.outline, same])
  cell _ := Cell.le_refl _
  ty _ := List.Subset.refl _
  site j t is_call' := by
    rw [instr_setInstr]
    split
    · rename_i here
      rw [← here.1, is_call] at is_call'
      cases is_call'
      exact ⟨s', rfl, raises, methods, fun _ => frequency⟩
    · exact ⟨t, is_call', List.Subset.refl _, List.Subset.refl _, id⟩
  taken _ _ taken := taken

end FlowGraph

end ScriptFlow
