import ScriptFlow.Digraph.Search
import ScriptFlow.FlowGraph.Instr

/-! Flow graphs of method bodies and programs. Blocks, instructions and bindings are numbered in the
order they are made. A removed block keeps its number and its name. -/

namespace ScriptFlow

structure EdgeFlags where
  /-- Taken when a call raises, or when a block is called. -/
  abnormal : Bool
  /-- Never taken; there for the shape of the graph only. -/
  fake : Bool
  /-- Found to be taken by propagation. -/
  executable : Bool
  /-- Leads into or out of the body of a block literal. -/
  blockTaken : Bool
deriving DecidableEq, Inhabited

namespace EdgeFlags

def none : EdgeFlags := ⟨false, false, false, false⟩

def union (a b : EdgeFlags) : EdgeFlags :=
  ⟨a.abnormal || b.abnormal, a.fake || b.fake, a.executable || b.executable,
    a.blockTaken || b.blockTaken⟩

def without (a b : EdgeFlags) : EdgeFlags :=
  ⟨a.abnormal && !b.abnormal, a.fake && !b.fake, a.executable && !b.executable,
    a.blockTaken && !b.blockTaken⟩

def contains (a b : EdgeFlags) : Bool := a.union b == a

/-- One letter for each flag that is set. -/
def letters (f : EdgeFlags) : String :=
  (if f.abnormal then "A" else "") ++ (if f.fake then "F" else "") ++
    (if f.executable then "X" else "") ++ (if f.blockTaken then "K" else "")

def ofLetters (s : String) : EdgeFlags :=
  ⟨s.contains 'A', s.contains 'F', s.contains 'X', s.contains 'K'⟩

def isNormal (f : EdgeFlags) : Bool := !f.abnormal

def isReal (f : EdgeFlags) : Bool := !f.fake

def isException (f : EdgeFlags) : Bool := f.abnormal && !f.blockTaken

end EdgeFlags

inductive EdgeFilter where
  | all
  | real
  | normal
  | exception
  | blockTaken
  | executable
deriving DecidableEq, Inhabited

def EdgeFilter.accepts : EdgeFilter → EdgeFlags → Bool
  | .all, _ => true
  | .real, f => f.isReal
  | .normal, f => f.isNormal
  | .exception, f => f.isException
  | .blockTaken, f => f.blockTaken
  | .executable, f => f.executable

namespace EdgeFilter

def every : List EdgeFilter := [.all, .real, .normal, .exception, .blockTaken, .executable]

def name : EdgeFilter → String
  | .all => "all"
  | .real => "real"
  | .normal => "normal"
  | .exception => "exception"
  | .blockTaken => "taken"
  | .executable => "executable"

end EdgeFilter

structure Block where
  name : String
  instrs : List InstrId
  succs : List (BlockId × EdgeFlags)
  preds : List BlockId
  removed : Bool
deriving DecidableEq, Inhabited

def Block.ofName (name : String) : Block := ⟨name, [], [], [], false⟩

inductive BindingKind where
  | variable
  | temporary
  /-- Holds the procedure of a block literal. -/
  | block
deriving DecidableEq, Inhabited

def BindingKind.name : BindingKind → String
  | .variable => "local"
  | .temporary => "temp"
  | .block => "block"

/-- A storage place: a variable, or one of its generations in single-assignment form. -/
structure Binding where
  name : String
  kind : BindingKind
  generation : Nat
  /-- Stands for a variable that is read before it is assigned. -/
  uninitialized : Bool
  cell : Cell
  ty : Ty
  definition : Option InstrId
  /-- The instructions that read it, ascending. -/
  uses : List InstrId
deriving DecidableEq, Inhabited

namespace Binding

def ofName (name : String) (kind : BindingKind) : Binding :=
  { name, kind, generation := 0, uninitialized := false, cell := .undefined, ty := .empty,
    definition := none, uses := [] }

/-- The text before the last `#`, or all of it when there is none. -/
def beforeHash (s : String) : String :=
  match s.toList.reverse.dropWhile (· != '#') with
  | _ :: rest => String.ofList rest.reverse
  | [] => s

/-- The name of the variable that a generation belongs to. -/
def baseName (b : Binding) : String :=
  if 0 < b.generation || b.uninitialized then beforeHash b.name else b.name

def isTemporary (b : Binding) : Bool := b.kind != .variable

end Binding

structure GraphSummary where
  raises : Ty
  frequency : Option Frequency
  returns : Ty
  blockUse : Option BlockUse
  /-- The argument counts with which the block is called. -/
  blockArities : List Arity
  guaranteedSuper : Bool
deriving DecidableEq, Inhabited

def GraphSummary.none : GraphSummary := ⟨.empty, Option.none, .empty, Option.none, [], false⟩

structure Placed where
  instr : Instr
  block : BlockId
deriving DecidableEq, Inhabited

structure FlowGraph where
  blocks : Array Block
  /-- The block that was made last with each name, removed or not. -/
  names : List (String × BlockId)
  instrs : Array Placed
  bindings : Array Binding
  selfRegister : Option BindingId
  blockRegister : Option BindingId
  finalReturn : Option BindingId
  finalException : Option BindingId
  formals : List (BindingId × ParamKind)
  live : Dict BindingId (List BlockId)
  constants : Dict BindingId Value
  findings : List Finding
  literals : List BlockTree
  globals : Dict String Ty
  /-- Types of instance variables by class and name. -/
  variableTypes : List ((ModuleId × String) × Ty)
  scope : Scope
  /-- Every binding has one definition. -/
  isSingle : Bool
  summary : GraphSummary
deriving DecidableEq

namespace FlowGraph

/-! The six blocks that every graph has. -/

def enter : BlockId := 0

/-- The only way out. -/
def exit : BlockId := 1

/-- Where all normal returns meet. -/
def returnBlock : BlockId := 2

/-- Where all uncaught exceptions meet. -/
def rescueBlock : BlockId := 3

/-- Where calls of a missing block meet. -/
def yieldFail : BlockId := 4

/-- Raises the exception that leaves the graph. -/
def failure : BlockId := 5

def isDistinguished (b : BlockId) : Bool := b ≤ 5

def ofScope (scope : Scope) : FlowGraph where
  blocks := #["Enter", "Exit", "Return", "Rescue", "YieldFail", "Failure"].map Block.ofName
  names := [("Failure", failure), ("YieldFail", yieldFail), ("Rescue", rescueBlock),
    ("Return", returnBlock), ("Exit", exit), ("Enter", enter)]
  instrs := #[]
  bindings := #[]
  selfRegister := none
  blockRegister := none
  finalReturn := none
  finalException := none
  formals := []
  live := .empty
  constants := .empty
  findings := []
  literals := []
  globals := .empty
  variableTypes := []
  scope := scope
  isSingle := false
  summary := .none

instance : Inhabited FlowGraph := ⟨ofScope .topLevel⟩

variable (g : FlowGraph) (b : BlockId)

/-! Blocks and edges. -/

def block : Block := g.blocks.getD b default

/-- The blocks that are not removed, ascending. -/
def liveBlocks : List BlockId :=
  (List.range g.blocks.size).filter fun b => !(g.block b).removed

def blockNamed? (name : String) : Option BlockId :=
  (g.names.lookup name).filter fun b => !(g.block b).removed

def modifyBlock (f : Block → Block) : FlowGraph :=
  { g with blocks := g.blocks.modify b f }

def pushBlock (name : String) : BlockId × FlowGraph :=
  (g.blocks.size,
    { g with blocks := g.blocks.push (.ofName name), names := (name, g.blocks.size) :: g.names })

/-- No two blocks share a name, not even with a removed one. -/
def addBlock (name : String) : Except Error (BlockId × FlowGraph) :=
  if (g.names.lookup name).isSome then .error (.graph (.duplicateBlock name))
  else .ok (g.pushBlock name)

def edge? (a b : BlockId) : Option EdgeFlags := (g.block a).succs.lookup b

def modifyEdge (a b : BlockId) (f : EdgeFlags → EdgeFlags) : FlowGraph :=
  g.modifyBlock a fun blk =>
    { blk with succs := blk.succs.map fun e => if e.1 = b then (e.1, f e.2) else e }

/-- An edge that is there already gets the new flags as well. -/
def addEdge (a b : BlockId) (flags : EdgeFlags) : FlowGraph :=
  if (g.edge? a b).isSome then g.modifyEdge a b (·.union flags)
  else
    (g.modifyBlock a fun blk => { blk with succs := blk.succs ++ [(b, flags)] }).modifyBlock b
      fun blk => { blk with preds := blk.preds ++ [a] }

def removeEdge (a b : BlockId) : FlowGraph :=
  (g.modifyBlock a fun blk => { blk with succs := blk.succs.filter (·.1 != b) }).modifyBlock b
    fun blk => { blk with preds := blk.preds.filter (· != a) }

/-- Whether the flag was missing, and the graph with it. -/
def addFlag (a b : BlockId) (flag : EdgeFlags) : Bool × FlowGraph :=
  match g.edge? a b with
  | some flags =>
    if flags.contains flag then (false, g) else (true, g.modifyEdge a b (·.union flag))
  | none => (false, g)

def removeFlag (a b : BlockId) (flag : EdgeFlags) : FlowGraph :=
  g.modifyEdge a b (·.without flag)

def successors (filter : EdgeFilter) : List BlockId :=
  ((g.block b).succs.filter fun e => filter.accepts e.2).map (·.1)

def predecessors (filter : EdgeFilter) : List BlockId :=
  (g.block b).preds.filter fun p => (g.edge? p b).any filter.accepts

/-- The graph as seen over the edges that a filter accepts. -/
def view (filter : EdgeFilter) : Digraph :=
  let blocks := List.range g.blocks.size
  { succ := (blocks.map fun b => g.successors b filter).toArray
    pred := (blocks.map fun b => g.predecessors b filter).toArray }

def isExecuted : Bool :=
  b == enter || (g.block b).preds.any fun p => (g.edge? p b).any (·.executable)

def modifyAllEdges (f : EdgeFlags → EdgeFlags) : FlowGraph :=
  { g with blocks := g.blocks.map fun blk =>
      { blk with succs := blk.succs.map fun e => (e.1, f e.2) } }

/-- Makes every edge that propagation did not take a fake one. -/
def killUnexecuted : FlowGraph :=
  g.modifyAllEdges fun f => if f.executable then f else { f with fake := true }

/-! Instructions and bindings. -/

def instr (i : InstrId) : Instr := (g.instrs.getD i default).instr

def blockOf (i : InstrId) : BlockId := (g.instrs.getD i default).block

def setInstr (i : InstrId) (instr : Instr) : FlowGraph :=
  { g with instrs := g.instrs.modify i fun p => { p with instr } }

def pushInstr (instr : Instr) : FlowGraph :=
  let id := g.instrs.size
  { g with instrs := g.instrs.push ⟨instr, b⟩ }.modifyBlock b fun blk =>
    { blk with instrs := blk.instrs ++ [id] }

/-- Puts a phi after the ones that its block starts with. -/
def insertPhi (instr : Instr) : FlowGraph :=
  let id := g.instrs.size
  let isPhi (i : InstrId) := (g.instr i).isPhi
  { g with instrs := g.instrs.push ⟨instr, b⟩ }.modifyBlock b fun blk =>
    { blk with instrs := blk.instrs.takeWhile isPhi ++ id :: blk.instrs.dropWhile isPhi }

def allInstrs : List InstrId := g.liveBlocks.flatMap fun b => (g.block b).instrs

def binding (b : BindingId) : Binding := g.bindings.getD b default

def modifyBinding (b : BindingId) (f : Binding → Binding) : FlowGraph :=
  { g with bindings := g.bindings.modify b f }

def pushBinding (b : Binding) : BindingId × FlowGraph :=
  (g.bindings.size, { g with bindings := g.bindings.push b })

def addBinding (name : String) (kind : BindingKind) : BindingId × FlowGraph :=
  g.pushBinding (.ofName name kind)

def bindingIds : List BindingId := List.range g.bindings.size

def bindingNamed? (name : String) : Option BindingId :=
  g.bindingIds.find? fun b => (g.binding b).name == name

def bindingsOf (base : String) : List BindingId :=
  g.bindingIds.filter fun b => (g.binding b).baseName == base

def operandCell : Operand → Cell
  | .binding b => (g.binding b).cell
  | .const v => .known v

/-! Definitions and uses. -/

def recordUse (i : InstrId) (b : BindingId) : FlowGraph :=
  g.modifyBinding b fun x => { x with uses := insertNat i x.uses }

def recordDefinition (i : InstrId) (b : BindingId) : FlowGraph :=
  g.modifyBinding b fun x => { x with definition := some i }

def recordInstr (i : InstrId) : FlowGraph :=
  let instr := g.instr i
  let g := instr.operands.foldl (fun g b => g.recordUse i b) g
  (instr.target?.map (g.recordDefinition i)).getD g

/-- Works definitions and uses out afresh. -/
def rebuildUses : FlowGraph :=
  let clean :=
    { g with bindings := g.bindings.map fun x => { x with definition := none, uses := [] } }
  g.allInstrs.foldl recordInstr clean

/-- Takes an instruction out of the records of what it reads and defines. -/
def forgetInstr (i : InstrId) : FlowGraph :=
  let instr := g.instr i
  let g := instr.operands.foldl
    (fun g b => g.modifyBinding b fun x => { x with uses := x.uses.filter (· != i) }) g
  match instr.target? with
  | some t =>
    g.modifyBinding t fun x => if x.definition = some i then { x with definition := none } else x
  | none => g

/-- Removes a block with its edges and instructions. The way in and the way out stay. -/
def removeBlock : Except Error FlowGraph :=
  if b = enter ∨ b = exit then .error (.graph (.terminalBlock (g.block b).name))
  else
    let g := (g.block b).succs.foldl (fun g e => g.removeEdge b e.1) g
    let g := (g.block b).preds.foldl (fun g p => g.removeEdge p b) g
    let instrs := (g.block b).instrs
    let g := g.modifyBlock b fun blk => { blk with instrs := [] }
    let g := instrs.foldl forgetInstr g
    .ok (g.modifyBlock b fun blk => { blk with removed := true })

def dropBlock : FlowGraph :=
  match g.removeBlock b with
  | .ok g => g
  | .error _ => g

def returned? : Option Operand :=
  (g.block returnBlock).instrs.findSome? fun i =>
    match g.instr i with
    | .returnWith v => some v
    | _ => none

def addFinding (f : Finding) : FlowGraph := { g with findings := g.findings ++ [f] }

/-- Forgets all that propagation has found out. Findings about multiple assignments stay: they come
from lowering. -/
def resetPropagation : FlowGraph :=
  let g := g.modifyAllEdges fun f => { f with executable := false }
  { g with
    bindings := g.bindings.map fun x => { x with cell := .undefined, ty := .empty }
    instrs := g.instrs.map fun p =>
      match p.instr with
      | .call s => { p with instr := .call s.reset }
      | _ => p
    constants := .empty
    globals := .empty
    variableTypes := []
    findings := g.findings.filter fun f => f.kind == .discardedRhs || f.kind == .unassignedLhs
    summary := .none }

end FlowGraph

end ScriptFlow
