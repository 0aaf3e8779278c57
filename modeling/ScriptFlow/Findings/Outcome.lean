import ScriptFlow.FlowGraph.Basic

/-! How a propagated body ends: by returning, by raising, or both. -/

namespace ScriptFlow.FlowGraph

variable (g : FlowGraph)

def raiseFrequency : Frequency :=
  if g.isExecuted failure then if g.isExecuted returnBlock then .maybe else .always else .never

/-- The type of a register, if its block is executed. -/
def outcomeType (register : Option BindingId) (b : BlockId) : Ty :=
  match register with
  | some v => if g.isExecuted b then (g.binding v).ty else .empty
  | none => .empty

def recordOutcome : FlowGraph :=
  { g with
    summary := { g.summary with
      frequency := some g.raiseFrequency
      raises := g.outcomeType g.finalException failure
      returns := g.outcomeType g.finalReturn returnBlock } }

end ScriptFlow.FlowGraph
