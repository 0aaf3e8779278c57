import ScriptFlow.Digraph.Dominance
import ScriptFlow.FlowGraph.Basic

/-! Questions about the calls of a propagated graph. -/

namespace ScriptFlow.FlowGraph

variable (g : FlowGraph)

/-- A call of `super` that propagation has come to. -/
def isSuperCall (i : InstrId) : Bool :=
  (g.instr i).site?.any fun s => s.kind.isSuper && s.frequency.isSome

/-- Whether one and the same `super` call lies on every way to a return. -/
def guaranteesSuper : Bool :=
  let t := (g.view .real).dominators enter
  t.isReached returnBlock &&
    (t.chain returnBlock).any fun b => (g.block b).instrs.any g.isSuperCall

def recordSuper : FlowGraph :=
  { g with summary := { g.summary with guaranteedSuper := g.guaranteesSuper } }

/-- The executed calls that may reach a method. -/
def callsTo (m : MethodId) : List InstrId :=
  g.allInstrs.filter fun i =>
    g.isExecuted (g.blockOf i) && (g.instr i).site?.any fun s => s.methods.contains m

end ScriptFlow.FlowGraph
