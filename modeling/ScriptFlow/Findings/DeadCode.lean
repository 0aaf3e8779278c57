import ScriptFlow.FlowGraph.Text

/-! Code that never runs. -/

namespace ScriptFlow.FlowGraph

variable (g : FlowGraph)

/-- The blocks that propagation did not get to. The blocks that every graph has do not count. -/
def unreachableBlocks : List BlockId :=
  let reached := (g.view .executable).search enter
  g.liveBlocks.filter fun b => !reached.contains b && !isDistinguished b

/-- A call or an assignment to a variable of the program. -/
def isUserCode : Instr → Bool
  | .call _ => true
  | .assign t _ => !(g.binding t).isTemporary
  | _ => false

/-- Entered by exceptions and block calls only. -/
def isLanding (b : BlockId) : Bool :=
  let preds := (g.block b).preds
  !preds.isEmpty && preds.all fun p => (g.edge? p b).any fun f => f.isException || f.blockTaken

/-- A dead block is reported if no dead block leads to it. -/
def isReportable (dead : List BlockId) (b : BlockId) : Bool :=
  (g.block b).preds.all (!dead.contains ·) && !g.isLanding b &&
    (g.block b).instrs.any fun i => g.isUserCode (g.instr i)

def reportDead (b : BlockId) : FlowGraph :=
  if g.findings.any fun f => f.kind == .deadCode && f.block == some b then g
  else g.addFinding ⟨.deadCode, some b, none, "code in " ++ g.blockName b ++ " can never run"⟩

def reportUnreachable : FlowGraph :=
  let dead := g.unreachableBlocks
  (dead.filter (g.isReportable dead)).foldl reportDead g

/-! Removing dead blocks. -/

def forgetUse (g : FlowGraph) (i : InstrId) (v : BindingId) : FlowGraph :=
  g.modifyBinding v fun x => { x with uses := x.uses.filter (· != i) }

def trimPhi (dead : List BlockId) (g : FlowGraph) (i : InstrId) : FlowGraph :=
  match g.instr i with
  | .phi t operands =>
    let isDead (o : BlockId × BindingId) := dead.contains o.1
    let g := g.setInstr i (.phi t (operands.filter (!isDead ·)))
    (operands.filter isDead).foldl (fun g o => g.forgetUse i o.2) g
  | _ => g

/-- Takes the dead blocks out of the phis of a block, and its fake edges away. -/
def trimBlock (dead : List BlockId) (g : FlowGraph) (b : BlockId) : FlowGraph :=
  let g := (g.block b).instrs.foldl (trimPhi dead) g
  let fake := (g.block b).succs.filter fun e => e.2.fake && !e.2.executable
  fake.foldl (fun g e => g.removeEdge b e.1) g

def removeUnreachable : FlowGraph :=
  let dead := g.unreachableBlocks
  let g := (g.liveBlocks.filter (!dead.contains ·)).foldl (trimBlock dead) g
  dead.foldl dropBlock g

end ScriptFlow.FlowGraph
