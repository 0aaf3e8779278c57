import ScriptFlow.Proofs.FlowGraph.Edges

/-! While a graph is built, blocks, edges, instructions and bindings are only added. -/

namespace ScriptFlow.FlowGraph

/-- What a graph has besides blocks, instructions and bindings. -/
structure Header where
  self : Option BindingId
  block : Option BindingId
  finalReturn : Option BindingId
  finalException : Option BindingId
  formals : List (BindingId × ParamKind)
  constants : Dict BindingId Value
  isSingle : Bool
  scope : Scope

/-- The bindings that stand for the graph as a whole. -/
def Header.ids (x : Header) : List BindingId :=
  x.self.toList ++ x.block.toList ++ x.finalReturn.toList ++ x.finalException.toList ++
    x.formals.map (·.1)

def header (g : FlowGraph) : Header :=
  ⟨g.selfRegister, g.blockRegister, g.finalReturn, g.finalException, g.formals, g.constants,
    g.isSingle, g.scope⟩

/-- All that the earlier graph has is found in the later one, and nothing more in the first block. -/
structure Before (g h : FlowGraph) : Prop where
  blocks : g.blocks.size ≤ h.blocks.size
  bindings : g.bindings.size ≤ h.bindings.size
  instrs : g.instrs.size ≤ h.instrs.size
  instr : ∀ i : Nat, i < g.instrs.size → h.instr i = g.instr i
  code : ∀ b, ∀ i ∈ (g.block b).instrs, i ∈ (h.block b).instrs
  edges : ∀ b, ∀ t ∈ g.succIds b, t ∈ h.succIds b
  entry : (h.block enter).instrs = (g.block enter).instrs
  header : h.header = g.header

namespace Before

variable {g h k : FlowGraph}

theorem refl (g : FlowGraph) : Before g g :=
  ⟨Nat.le_refl _, Nat.le_refl _, Nat.le_refl _, fun _ _ => rfl, fun _ _ member => member,
    fun _ _ edge => edge, rfl, rfl⟩

theorem trans (first : Before g h) (second : Before h k) : Before g k where
  blocks := Nat.le_trans first.blocks second.blocks
  bindings := Nat.le_trans first.bindings second.bindings
  instrs := Nat.le_trans first.instrs second.instrs
  instr i inside := by
    rw [second.instr i (Nat.lt_of_lt_of_le inside first.instrs), first.instr i inside]
  code b i member := second.code b i (first.code b i member)
  edges b t edge := second.edges b t (first.edges b t edge)
  entry := second.entry.trans first.entry
  header := second.header.trans first.header

theorem of_same (blocks : h.blocks = g.blocks) (instrs : h.instrs = g.instrs)
    (bindings : g.bindings.size ≤ h.bindings.size) (header : h.header = g.header) :
    Before g h where
  blocks := Nat.le_of_eq (by rw [blocks])
  bindings := bindings
  instrs := Nat.le_of_eq (by rw [instrs])
  instr i _ := instr_congr instrs i
  code b i member := by rwa [block_congr blocks]
  edges b t edge := by rwa [succIds, block_congr blocks]
  entry := by rw [block_congr blocks]
  header := header

theorem pushBlock (g : FlowGraph) (name : String) : Before g (g.pushBlock name).2 where
  blocks := by simp
  bindings := Nat.le_refl _
  instrs := Nat.le_refl _
  instr _ _ := rfl
  code b i member := by
    rw [g.block_field_pushBlock (·.instrs) name rfl]
    exact member
  edges b t edge := by
    rw [succIds, g.block_field_pushBlock (·.succs) name rfl]
    exact edge
  entry := g.block_field_pushBlock (·.instrs) name rfl enter
  header := rfl

theorem pushBinding (g : FlowGraph) (x : Binding) : Before g (g.pushBinding x).2 :=
  .of_same rfl rfl (by simp) rfl

theorem pushInstr (g : FlowGraph) {b : Nat} (later : b ≠ enter) (x : Instr) :
    Before g (g.pushInstr b x) where
  blocks := by simp
  bindings := Nat.le_refl _
  instrs := by simp
  instr i inside := by rw [instr_pushInstr, if_neg (Nat.ne_of_lt inside)]
  code c i member := by
    rw [block_pushInstr]
    split
    · rename_i here
      exact List.mem_append_left _ (here.1 ▸ member)
    · exact member
  edges c t edge := by
    rw [succIds, succs_pushInstr]
    exact edge
  entry := by rw [block_pushInstr, if_neg fun here => later here.1]
  header := rfl

theorem addEdge (g : FlowGraph) {a : Nat} (inside : a < g.blocks.size) (b : Nat)
    (flags : EdgeFlags) : Before g (g.addEdge a b flags) where
  blocks := by simp
  bindings := by simp
  instrs := Nat.le_of_eq (by rw [g.instrs_array_addEdge])
  instr i _ := instr_congr (g.instrs_array_addEdge a b flags) i
  code c i member := by rwa [instrs_addEdge]
  edges c t edge := by
    rw [succIds_addEdge g inside]
    split
    · rename_i here
      exact List.mem_append_left _ (here.1 ▸ edge)
    · exact edge
  entry := instrs_addEdge g a b enter flags
  header := by
    unfold FlowGraph.addEdge
    split <;> rfl

end Before

end ScriptFlow.FlowGraph
