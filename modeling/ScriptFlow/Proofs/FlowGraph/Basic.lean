import Mathlib.Data.List.Nodup
import ScriptFlow.FlowGraph.Basic

/-! What each elementary change of a flow graph does to its blocks, instructions and bindings. -/

namespace ScriptFlow.FlowGraph

variable {b i : Nat} {α : Type} {h : FlowGraph}
variable (g : FlowGraph)

/-! Blocks. -/

theorem block_modifyBlock (b c : Nat) (f : Block → Block) :
    (g.modifyBlock b f).block c =
      if b = c ∧ b < g.blocks.size then f (g.block b) else g.block c := by
  simp only [block, modifyBlock, Array.getD_eq_getD_getElem?, Array.getElem?_modify]
  grind

theorem block_modifyBlock_self (b : Nat) (f : Block → Block) (inside : b < g.blocks.size) :
    (g.modifyBlock b f).block b = f (g.block b) := by
  rw [block_modifyBlock, if_pos ⟨rfl, inside⟩]

theorem block_modifyBlock_ne {c : Nat} (other : b ≠ c) (f : Block → Block) :
    (g.modifyBlock b f).block c = g.block c := by
  rw [block_modifyBlock, if_neg fun h => other h.1]

@[simp] theorem size_modifyBlock (b : Nat) (f : Block → Block) :
    (g.modifyBlock b f).blocks.size = g.blocks.size := by
  simp [modifyBlock]

/-- What no change of a block touches stays as it is. -/
theorem block_field_modifyBlock (field : Block → α) (b c : Nat) (f : Block → Block)
    (same : ∀ blk, field (f blk) = field blk) :
    field ((g.modifyBlock b f).block c) = field (g.block c) := by
  rw [block_modifyBlock]
  split
  · rename_i h
    rw [same, h.1]
  · rfl

theorem block_outside (outside : g.blocks.size ≤ b) : g.block b = default := by
  simp [block, Array.getD_eq_getD_getElem?, Array.getElem?_eq_none outside]

theorem inside_of_instrs (some_instr : (g.block b).instrs ≠ []) : b < g.blocks.size := by
  by_contra outside
  rw [g.block_outside (Nat.le_of_not_lt outside)] at some_instr
  exact some_instr rfl

theorem inside_of_succs (some_edge : (g.block b).succs ≠ []) : b < g.blocks.size := by
  by_contra outside
  rw [g.block_outside (Nat.le_of_not_lt outside)] at some_edge
  exact some_edge rfl

theorem inside_of_preds (some_edge : (g.block b).preds ≠ []) : b < g.blocks.size := by
  by_contra outside
  rw [g.block_outside (Nat.le_of_not_lt outside)] at some_edge
  exact some_edge rfl

theorem block_pushBlock (name : String) (c : Nat) :
    (g.pushBlock name).2.block c =
      if c = g.blocks.size then Block.ofName name else g.block c := by
  simp only [block, pushBlock, Array.getD_eq_getD_getElem?, Array.getElem?_push]
  split <;> rfl

theorem block_field_pushBlock (field : Block → α) (name : String)
    (same : field (.ofName name) = field default) (c : Nat) :
    field ((g.pushBlock name).2.block c) = field (g.block c) := by
  rw [block_pushBlock]
  split
  · rename_i here
    rw [here, same, g.block_outside (Nat.le_refl _)]
  · rfl

@[simp] theorem size_pushBlock (name : String) :
    (g.pushBlock name).2.blocks.size = g.blocks.size + 1 := by
  simp [pushBlock]

@[simp] theorem bindings_pushBlock (name : String) :
    (g.pushBlock name).2.bindings = g.bindings := rfl

/-- Two graphs with the same blocks have the same edges. -/
theorem block_congr {g : FlowGraph} (same : g.blocks = h.blocks) (b : Nat) :
    g.block b = h.block b := by
  simp [block, same]

theorem mem_liveBlocks : b ∈ g.liveBlocks ↔ b < g.blocks.size ∧ (g.block b).removed = false := by
  simp [liveBlocks]

theorem block_ofScope (scope : Scope) (b : Nat) :
    ((ofScope scope).block b).instrs = [] ∧ ((ofScope scope).block b).succs = [] ∧
      ((ofScope scope).block b).preds = [] ∧ ((ofScope scope).block b).removed = false := by
  simp only [block, ofScope, Array.getD_eq_getD_getElem?, Array.getElem?_map]
  generalize (#["Enter", "Exit", "Return", "Rescue", "YieldFail", "Failure"])[b]? = name
  cases name with
  | none => exact ⟨rfl, rfl, rfl, rfl⟩
  | some name => exact ⟨rfl, rfl, rfl, rfl⟩

/-! Instructions. -/

theorem mem_allInstrs : i ∈ g.allInstrs ↔ ∃ b ∈ g.liveBlocks, i ∈ (g.block b).instrs := by
  simp [allInstrs]

theorem instr_congr {g : FlowGraph} (same : g.instrs = h.instrs) (i : Nat) :
    g.instr i = h.instr i := by
  simp [instr, same]

theorem blockOf_congr {g : FlowGraph} (same : g.instrs = h.instrs) (i : Nat) :
    g.blockOf i = h.blockOf i := by
  simp [blockOf, same]

theorem instr_setInstr (i j : Nat) (x : Instr) :
    (g.setInstr i x).instr j = if i = j ∧ i < g.instrs.size then x else g.instr j := by
  simp only [instr, setInstr, Array.getD_eq_getD_getElem?, Array.getElem?_modify]
  grind

theorem instr_setInstr_self (x : Instr) (inside : i < g.instrs.size) :
    (g.setInstr i x).instr i = x := by
  rw [instr_setInstr, if_pos ⟨rfl, inside⟩]

theorem instr_setInstr_ne {j : Nat} (other : i ≠ j) (x : Instr) :
    (g.setInstr i x).instr j = g.instr j := by
  rw [instr_setInstr, if_neg fun h => other h.1]

theorem setInstr_of_instr {g : FlowGraph} {x : Instr} (is_x : g.instr i = x) :
    g.setInstr i x = g := by
  have same : g.instrs.modify i (fun p => { p with instr := x }) = g.instrs := by
    apply Array.ext_getElem?
    intro j
    rw [Array.getElem?_modify]
    split
    · rename_i here
      subst here
      cases found : g.instrs[i]? with
      | none => rfl
      | some y =>
        rw [instr, Array.getD_eq_getD_getElem?, found, Option.getD_some] at is_x
        rw [Option.map_some, ← is_x]
    · rfl
  rw [setInstr, same]

@[simp] theorem blockOf_setInstr (i j : Nat) (x : Instr) :
    (g.setInstr i x).blockOf j = g.blockOf j := by
  simp only [blockOf, setInstr, Array.getD_eq_getD_getElem?, Array.getElem?_modify]
  grind

@[simp] theorem size_setInstr (i : Nat) (x : Instr) :
    (g.setInstr i x).instrs.size = g.instrs.size := by
  simp [setInstr]

theorem instr_pushInstr (b : Nat) (x : Instr) (j : Nat) :
    (g.pushInstr b x).instr j = if j = g.instrs.size then x else g.instr j := by
  simp only [instr, pushInstr, modifyBlock, Array.getD_eq_getD_getElem?, Array.getElem?_push]
  split <;> rfl

theorem blockOf_pushInstr (b : Nat) (x : Instr) (j : Nat) :
    (g.pushInstr b x).blockOf j = if j = g.instrs.size then b else g.blockOf j := by
  simp only [blockOf, pushInstr, modifyBlock, Array.getD_eq_getD_getElem?, Array.getElem?_push]
  split <;> rfl

@[simp] theorem instrs_size_pushInstr (b : Nat) (x : Instr) :
    (g.pushInstr b x).instrs.size = g.instrs.size + 1 := by
  simp [pushInstr, modifyBlock]

@[simp] theorem blocks_size_pushInstr (b : Nat) (x : Instr) :
    (g.pushInstr b x).blocks.size = g.blocks.size := by
  simp [pushInstr]

@[simp] theorem bindings_pushInstr (b : Nat) (x : Instr) :
    (g.pushInstr b x).bindings = g.bindings := rfl

theorem block_pushInstr (b c : Nat) (x : Instr) :
    (g.pushInstr b x).block c =
      if b = c ∧ b < g.blocks.size then
        { g.block b with instrs := (g.block b).instrs ++ [g.instrs.size] }
      else g.block c :=
  block_modifyBlock _ b c _

theorem block_field_pushInstr {α : Type} (field : Block → α)
    (same : ∀ blk is, field { blk with instrs := is } = field blk) (b c : Nat) (x : Instr) :
    field ((g.pushInstr b x).block c) = field (g.block c) :=
  block_field_modifyBlock _ field b c _ fun blk => same blk _

@[simp] theorem succs_pushInstr (b c : Nat) (x : Instr) :
    ((g.pushInstr b x).block c).succs = (g.block c).succs :=
  g.block_field_pushInstr (·.succs) (fun _ _ => rfl) b c x

@[simp] theorem preds_pushInstr (b c : Nat) (x : Instr) :
    ((g.pushInstr b x).block c).preds = (g.block c).preds :=
  g.block_field_pushInstr (·.preds) (fun _ _ => rfl) b c x

@[simp] theorem removed_pushInstr (b c : Nat) (x : Instr) :
    ((g.pushInstr b x).block c).removed = (g.block c).removed :=
  g.block_field_pushInstr (·.removed) (fun _ _ => rfl) b c x

def code (b : BlockId) : List Instr := (g.block b).instrs.map g.instr

theorem code_congr {g : FlowGraph} (blocks : g.blocks = h.blocks) (instrs : g.instrs = h.instrs)
    (b : Nat) : g.code b = h.code b := by
  simp [code, block, instr, blocks, instrs]

/-! Bindings. -/

theorem binding_congr {g : FlowGraph} (same : g.bindings = h.bindings) (v : Nat) :
    g.binding v = h.binding v := by
  simp [binding, same]

theorem binding_modifyBinding (b c : Nat) (f : Binding → Binding) :
    (g.modifyBinding b f).binding c =
      if b = c ∧ b < g.bindings.size then f (g.binding b) else g.binding c := by
  simp only [binding, modifyBinding, Array.getD_eq_getD_getElem?, Array.getElem?_modify]
  grind

theorem binding_field_modifyBinding (field : Binding → α) (b c : Nat)
    (f : Binding → Binding) (same : ∀ x, field (f x) = field x) :
    field ((g.modifyBinding b f).binding c) = field (g.binding c) := by
  rw [binding_modifyBinding]
  split
  · rename_i h
    rw [same, h.1]
  · rfl

@[simp] theorem size_modifyBinding (b : Nat) (f : Binding → Binding) :
    (g.modifyBinding b f).bindings.size = g.bindings.size := by
  simp [modifyBinding]

theorem binding_pushBinding (x : Binding) (c : Nat) :
    (g.pushBinding x).2.binding c = if c = g.bindings.size then x else g.binding c := by
  simp only [binding, pushBinding, Array.getD_eq_getD_getElem?, Array.getElem?_push]
  split <;> rfl

@[simp] theorem size_pushBinding (x : Binding) :
    (g.pushBinding x).2.bindings.size = g.bindings.size + 1 := by
  simp [pushBinding]

@[simp] theorem instrs_pushBinding (x : Binding) : (g.pushBinding x).2.instrs = g.instrs := rfl

@[simp] theorem blocks_pushBinding (x : Binding) : (g.pushBinding x).2.blocks = g.blocks := rfl

@[simp] theorem block_pushBinding (x : Binding) (b : Nat) :
    (g.pushBinding x).2.block b = g.block b := rfl

/-! Edges. -/

def succIds (b : Nat) : List Nat := (g.block b).succs.map (·.1)

theorem mem_succIds {a : Nat} : b ∈ g.succIds a ↔ ∃ f, (b, f) ∈ (g.block a).succs := by
  simp [succIds]

theorem successors_all (b : Nat) : g.successors b .all = g.succIds b := by
  simp [successors, succIds, EdgeFilter.accepts]

theorem lookup_isSome_iff (es : List (Nat × α)) (b : Nat) :
    (es.lookup b).isSome = true ↔ b ∈ es.map (·.1) := by
  induction es with
  | nil => simp
  | cons e es ih =>
    rw [List.lookup_cons]
    by_cases h : b = e.1
    · simp [h]
    · simp [h, beq_eq_false_iff_ne.mpr h, ih]

theorem edge_isSome_iff {a : Nat} : (g.edge? a b).isSome = true ↔ b ∈ g.succIds a :=
  lookup_isSome_iff _ b

theorem mem_of_lookup {κ : Type} [BEq κ] [LawfulBEq κ] {es : List (κ × α)} {b : κ} {x : α}
    (found : es.lookup b = some x) : (b, x) ∈ es := by
  obtain ⟨before, after, split, _⟩ := List.lookup_eq_some_iff.mp found
  rw [split]
  simp

theorem lookup_of_mem {es : List (Nat × α)} (distinct : (es.map (·.1)).Nodup)
    {x : α} (member : (b, x) ∈ es) : es.lookup b = some x := by
  induction es with
  | nil => cases member
  | cons e es ih =>
    rw [List.map_cons, List.nodup_cons] at distinct
    rw [List.lookup_cons]
    rcases List.mem_cons.mp member with here | later
    · rw [← here]
      simp
    · have other : b ≠ e.1 := by
        intro eq
        exact distinct.1 (eq ▸ List.mem_map_of_mem later)
      simp [beq_eq_false_iff_ne.mpr other, ih distinct.2 later]

end ScriptFlow.FlowGraph
