import ScriptFlow.Config
import ScriptFlow.Dispatch.Special
import ScriptFlow.Dispatch.Summary
import ScriptFlow.FlowGraph.Basic
import ScriptFlow.Propagation.Specialization

/-! The state of a propagation and its two worklists: blocks to visit and instructions to evaluate
again. Cells, types and executable edges only grow. -/

namespace ScriptFlow

/-- A propagation over graphs, with the summaries it asks for. -/
structure Propagation (σ : Type) where
  table : ClassTable
  config : Config
  source : Summaries σ
  specialization : Specialization

namespace Propagation

abbrev VariableKey := ModuleId × String

structure Run (σ : Type) where
  graph : FlowGraph
  /-- Blocks to visit, in the order they were met. -/
  blocks : List BlockId
  /-- Instructions to evaluate again, none of them twice. -/
  instrs : List InstrId
  visited : List BlockId
  /-- The instructions that read an instance variable. -/
  readers : List (VariableKey × List InstrId)
  /-- The calls that may run the block passed to them. -/
  blockCallers : List InstrId
  steps : Nat
  visits : Nat
  evaluations : Nat
  source : σ

namespace Run

variable {σ : Type}
variable (r : Run σ) (g : FlowGraph) (b : BlockId)

def start (source : σ) : Run σ :=
  { graph := g, blocks := [FlowGraph.enter], instrs := [], visited := [], readers := [],
    blockCallers := [], steps := 0, visits := 0, evaluations := 0, source }

def enqueue (i : InstrId) : Run σ :=
  if r.instrs.contains i then r else { r with instrs := r.instrs ++ [i] }

def enqueueAll (is : List InstrId) : Run σ := is.foldl enqueue r

def enqueueBlocks (bs : List BlockId) : Run σ := { r with blocks := r.blocks ++ bs }

/-- Joins what was found out to a binding. When that tells something new, its uses are evaluated
again. -/
def learn (target : BindingId) (cell : Cell) (ty : Ty) : Run σ :=
  let b := r.graph.binding target
  let joined := b.cell.join cell
  let (grew, ty) := b.ty.extend ty
  if joined ≠ b.cell ∨ grew then
    { r with graph := r.graph.modifyBinding target fun b => { b with cell := joined, ty } }.enqueueAll
      b.uses
  else r

/-! Edges. -/

/-- Fake edges are never taken. A block is visited each time a new way into it is found. -/
def markEdge (a : BlockId) (r : Run σ) (b : BlockId) : Run σ :=
  match r.graph.edge? a b with
  | some f =>
    if f.isReal ∧ !f.executable then
      { r with
        graph := r.graph.modifyEdge a b ({ · with executable := true })
        blocks := r.blocks ++ [b] }
    else r
  | none => r

/-- The ways on from a block without instructions: normal ones if it was entered normally, and
exceptional ones if it was entered by an exception. -/
def emptyBlockTargets : List BlockId :=
  if g.isExecuted b then
    let entered := (g.block b).preds.filterMap fun p => (g.edge? p b).filter (·.executable)
    let normal := b = FlowGraph.enter ∨ entered.any (!·.isException)
    let exceptional := entered.any (·.isException)
    g.successors b .blockTaken ++ (if normal then g.successors b .normal else []) ++
      (if exceptional then g.successors b .exception else [])
  else []

/-- The ways on from a call that ends its block. -/
def callTargets (callsBlock : Bool) (f : Option Frequency) :
    List BlockId :=
  let taken := if callsBlock then g.successors b .blockTaken else []
  match f with
  | none => []
  | some .never => g.successors b .normal ++ taken
  | some .always => g.successors b .exception ++ taken
  | some .maybe => g.successors b .normal ++ g.successors b .exception ++ taken

def branchTargets (yes no : BlockId) : Cell → List BlockId
  | .undefined => []
  | .varying => [yes, no]
  | .known v => if v.truthy then [yes] else [no]

/-- The blocks that may come after a block, by its last instruction. -/
def targets : List BlockId :=
  let g := r.graph
  match (g.block b).instrs.getLast? with
  | none => emptyBlockTargets g b
  | some last =>
    match g.instr last with
    | .jump t => [t]
    | .branch c yes no => branchTargets yes no (g.operandCell c)
    | .returnWith _ => g.successors b .normal
    | .raise _ => g.successors b .exception
    | .call s =>
      if s.mayRaise then callTargets g b (r.blockCallers.contains last) s.frequency
      else g.successors b .normal
    | _ => g.successors b .normal

def updateEdges : Run σ := (r.targets b).foldl (markEdge b) r

/-- The executed blocks that an exception gets to; it passes through blocks without instructions.
Every step takes one block off the stack. -/
def exceptionReach (g : FlowGraph) : (fuel : Nat) → List BlockId → List BlockId → List BlockId
  | 0, _, _ => []
  | _, [], _ => []
  | fuel + 1, b :: stack, seen =>
    if seen.contains b then exceptionReach g fuel stack seen
    else if g.isExecuted b then
      let next := if (g.block b).instrs.isEmpty then g.successors b .exception else []
      b :: exceptionReach g fuel (next.reverse ++ stack) (b :: seen)
    else exceptionReach g fuel stack (b :: seen)

def edgeCount : Nat := g.blocks.foldl (fun n b => n + b.succs.length) 0

/-- The blocks that have to look again at what was raised in `b`. -/
def raiseReaders : List BlockId :=
  exceptionReach g (2 * edgeCount g) (g.successors b .exception).reverse []

def notifyRaise : Run σ := r.enqueueBlocks (raiseReaders r.graph b)

/-! Findings. -/

/-- A kind of finding is recorded once for an instruction. -/
def report (f : Finding) : Run σ :=
  if r.graph.findings.any fun e => e.kind == f.kind && e.instr == f.instr then r
  else { r with graph := r.graph.addFinding f }

/-! Instance variables. -/

def variableType (key : VariableKey) : Ty :=
  (r.graph.variableTypes.lookup key).getD .empty

def putVariable {α : Type} (key : VariableKey) (a : α) :
    List (VariableKey × α) → List (VariableKey × α)
  | [] => [(key, a)]
  | e :: es => if e.1 = key then (key, a) :: es else e :: putVariable key a es

def addReader (i : InstrId) (r : Run σ) (key : VariableKey) : Run σ :=
  { r with readers := putVariable key (insertNat i ((r.readers.lookup key).getD [])) r.readers }

/-- Joins a type to an instance variable. When it grows, its readers are evaluated again. -/
def assignVariable (ty : Ty) (r : Run σ) (key : VariableKey) : Run σ :=
  let (grew, joined) := (r.variableType key).extend ty
  let r := { r with
    graph := { r.graph with variableTypes := putVariable key joined r.graph.variableTypes } }
  if grew then r.enqueueAll ((r.readers.lookup key).getD []) else r

end Run

variable {σ : Type} (p : Propagation σ)

def operand (g : FlowGraph) : Operand → Component
  | .binding b => ⟨(g.binding b).cell, (g.binding b).ty⟩
  | .const v => .known p.table v

def selfType (g : FlowGraph) : Ty := p.specialization.selfType.getD g.scope.selfType

end Propagation

end ScriptFlow
