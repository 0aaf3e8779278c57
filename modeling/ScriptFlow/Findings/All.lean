import ScriptFlow.Findings.BlockUse
import ScriptFlow.Findings.DeadCode
import ScriptFlow.Findings.Outcome
import ScriptFlow.Findings.UnusedVariable
import ScriptFlow.FlowGraph.Calls

/-! All that is found out about a propagated graph. -/

namespace ScriptFlow.Propagation

variable {σ : Type} (p : Propagation σ)

/-- Records outcome, `super` calls, dead code and unused variables. -/
def inspectGraph (g : FlowGraph) : FlowGraph :=
  let g := g.killUnexecuted.recordOutcome.recordSuper.reportUnreachable
  let g := g.reportUnused p.table
  if p.config.pruneUnexecuted then g.removeUnreachable else g

def inspect : EStateM Error (FlowGraph × σ) Unit := do
  if p.config.blockAnalysis then let _ ← p.analyzeBlockUse
  modify fun (g, source) => (p.inspectGraph g, source)

end ScriptFlow.Propagation
