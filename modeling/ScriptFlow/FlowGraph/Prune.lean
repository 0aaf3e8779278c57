import ScriptFlow.FlowGraph.Basic

/-! Removing blocks that do nothing. -/

namespace ScriptFlow.FlowGraph

/-- Sends the edges into `b` on to its only successor. -/
def spliceOut (g : FlowGraph) (b succ : BlockId) : FlowGraph :=
  let redirect (x : BlockId) := if x = b then succ else x
  let g := (g.block b).preds.foldl
    (fun g p =>
      let flags := (g.edge? p b).getD .none
      let g := (g.removeEdge p b).addEdge p succ flags
      (g.block p).instrs.foldl (fun g i => g.setInstr i ((g.instr i).mapBlocks redirect)) g)
    g
  g.dropBlock b

/-- The only way on from an empty block, if it is a plain one that leads elsewhere. -/
def throughEdge? (g : FlowGraph) (b : BlockId) : Option BlockId :=
  match (g.block b).instrs, (g.block b).succs with
  | [], [(s, f)] => if s ≠ b ∧ f.isNormal ∧ f.isReal then some s else none
  | _, _ => none

/-- Removes the block if nothing leads to it or it only passes control on. -/
def pruneBlock (g : FlowGraph) (b : BlockId) : FlowGraph × Bool :=
  if (g.block b).preds.isEmpty then (g.dropBlock b, true)
  else
    match g.throughEdge? b with
    | some s => (g.spliceOut b s, true)
    | none => (g, false)

def pruneRound (g : FlowGraph) : FlowGraph × Bool :=
  (g.liveBlocks.filter (!isDistinguished ·)).foldl
    (fun (g, changed) b =>
      let (g, again) := g.pruneBlock b
      (g, changed || again))
    (g, false)

def pruneRounds : (fuel : Nat) → FlowGraph → FlowGraph
  | 0, g => g
  | fuel + 1, g =>
    match g.pruneRound with
    | (g, true) => pruneRounds fuel g
    | (g, false) => g

/-- Removes useless blocks until none is left. Every round but the last removes one. -/
def prune (g : FlowGraph) : FlowGraph := pruneRounds (g.blocks.size + 1) g

end ScriptFlow.FlowGraph
