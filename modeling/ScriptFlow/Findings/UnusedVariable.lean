import ScriptFlow.Digraph.Dominance
import ScriptFlow.FlowGraph.Basic

/-! Variables that are assigned but never used. A definition is dead when it has no effect and only
dead definitions read it. -/

namespace ScriptFlow.FlowGraph

variable (c : ClassTable) (g : FlowGraph)

/-- An instruction that does nothing but define its target. -/
def hasNoEffect : Instr → Bool
  | .assign _ _ | .phi _ _ | .param _ _ _ => true
  | .call s =>
    s.frequency == some .never && !s.methods.isEmpty && s.methods.all fun m => (c.method m).pure
  | _ => false

abbrev Dead := Array Bool

def Dead.holds (dead : Dead) (i : InstrId) : Bool := dead.getD i false

/-- Marks the definition of a binding if nothing else keeps it alive. -/
def killDefinition (state : Dead × Bool) (v : BindingId) : Dead × Bool :=
  let (dead, _) := state
  match (g.binding v).definition with
  | some d =>
    if !dead.holds d && hasNoEffect c (g.instr d) && (g.binding v).uses.all dead.holds then
      (dead.setIfInBounds d true, true)
    else state
  | none => state

/-- Every round but the last kills a definition. -/
def killRounds : (fuel : Nat) → Dead → Dead
  | 0, dead => dead
  | fuel + 1, dead =>
    match g.bindingIds.foldl (g.killDefinition c) (dead, false) with
    | (dead, true) => killRounds fuel dead
    | (dead, false) => dead

def deadDefinitions : Dead :=
  g.killRounds c (g.bindings.size + 1) (Array.replicate g.instrs.size false)

def isAssignment : Instr → Bool
  | .assign _ _ | .call _ => true
  | _ => false

/-- The dead assignment to a variable of the program. Names that start with an underscore are
exempt. -/
def deadAssignment? (dead : Dead) (v : BindingId) : Option InstrId :=
  let b := g.binding v
  if b.isTemporary || b.uninitialized || b.baseName.startsWith "_" then none
  else
    b.definition.filter fun d =>
      dead.holds d && g.isExecuted (g.blockOf d) && isAssignment (g.instr d)

def unusedVariables : List (BindingId × InstrId) :=
  let dead := g.deadDefinitions c
  g.bindingIds.filterMap fun v => (g.deadAssignment? dead v).map (v, ·)

/-- Every variable is reported once, at its first dead assignment. -/
def firstPerName : List String → List (BindingId × InstrId) → List (BindingId × InstrId)
  | _, [] => []
  | names, e :: es =>
    let name := (g.binding e.1).baseName
    if names.contains name then firstPerName names es else e :: firstPerName (name :: names) es

def unusedFinding (e : BindingId × InstrId) : Finding :=
  ⟨.unusedVariable, some (g.blockOf e.2), some e.2,
    "variable `" ++ (g.binding e.1).baseName ++ "` is assigned but never used"⟩

def reportUnused : FlowGraph :=
  { g with
    findings := g.findings ++ (g.firstPerName [] (g.unusedVariables c)).map g.unusedFinding }

end ScriptFlow.FlowGraph
