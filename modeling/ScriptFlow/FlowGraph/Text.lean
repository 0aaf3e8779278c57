import ScriptFlow.Dot
import ScriptFlow.FlowGraph.Basic

/-! Flow graphs as text and as drawings. -/

namespace ScriptFlow.FlowGraph

variable (g : FlowGraph)

def bindingName (b : BindingId) : String := (g.binding b).name

def blockName (b : BlockId) : String := (g.block b).name

def operandText : Operand → String
  | .binding b => g.bindingName b
  | .const v => v.render

def callWord (k : CallKind) : String :=
  (if k.isSuper then "super" else "call") ++ (if k.isVararg then "_vararg" else "")

def sizeTestText : SizeTest → String
  | .equal => "=="
  | .greater => ">"
  | .less => "<"

def paramText : Param → String
  | .receiver => "self"
  | .argument i => "argument(" ++ g.operandText i ++ ")"
  | .argumentRange s n => "argument_range(" ++ g.operandText s ++ ", " ++ g.operandText n ++ ")"
  | .arity => "arity"
  | .block => "block"
  | .currentException => "current_exception"
  | .justRaised => "just_raised_exception"
  | .global name => "global(" ++ name ++ ")"
  | .responds v m => "responds(" ++ g.operandText v ++ ", " ++ m ++ ")"

def textOf : Instr → String
  | .assign t s => "assign " ++ g.bindingName t ++ ", " ++ g.operandText s
  | .phi t os =>
    "phi " ++ g.bindingName t ++
      String.join (os.map fun (b, v) => ", [" ++ g.blockName b ++ ": " ++ g.bindingName v ++ "]")
  | .call s =>
    callWord s.kind ++ " " ++ (s.target.map g.bindingName).getD "_" ++ ", " ++
      g.operandText s.receiver ++ ", " ++ s.method ++
      String.join (s.args.map fun a => ", " ++ g.operandText a) ++
      (s.block.map fun b => ", &" ++ g.operandText b).getD ""
  | .jump b => "jump " ++ g.blockName b
  | .branch c y n => "branch " ++ g.operandText c ++ ", " ++ g.blockName y ++ ", " ++ g.blockName n
  | .param t p _ => "param " ++ g.bindingName t ++ ", " ++ g.paramText p
  | .returnWith v => "return " ++ g.operandText v
  | .raise v => "raise " ++ g.operandText v
  | .declare (.expectSize o n a) =>
    "declare expect_tuple_size " ++ sizeTestText o ++ " " ++ toString n ++ ", " ++ g.operandText a
  | .declare (.alias a v) => "declare alias " ++ g.operandText a ++ ", " ++ g.operandText v
  | .storeGlobal name v => "store_global " ++ name ++ ", " ++ g.operandText v

def instrText (i : InstrId) : String := g.textOf (g.instr i)

def blockTexts (b : BlockId) : List String := (g.block b).instrs.map g.instrText

/-- The edges that leave a block, by the names of their targets. -/
def namedEdges (b : BlockId) : List (String × EdgeFlags) :=
  (g.block b).succs.map fun e => (g.blockName e.1, e.2)

def edgeTexts : List String :=
  g.liveBlocks.flatMap fun b =>
    (g.namedEdges b).map fun e => g.blockName b ++ ">" ++ e.1 ++ ":" ++ e.2.letters

/-- Same elements in any order; neither list repeats one. -/
def sameElements {α : Type} [DecidableEq α] (xs ys : List α) : Bool :=
  xs.length == ys.length && xs.all ys.contains

/-- Same blocks by name, with the same instruction texts and the same edges. -/
def sameStructure (h : FlowGraph) : Bool :=
  g.liveBlocks.length == h.liveBlocks.length &&
    g.liveBlocks.all fun b =>
      (h.liveBlocks.find? fun c => h.blockName c == g.blockName b).any fun c =>
        g.blockTexts b == h.blockTexts c && sameElements (g.namedEdges b) (h.namedEdges c)

def edgeColor (f : EdgeFlags) : String :=
  if f.blockTaken then "blue"
  else if !f.isNormal then "red"
  else if !f.isReal then "\"#bbbbbb\""
  else "black"

def edgeStyle (f : EdgeFlags) : String :=
  if !f.isReal then "dotted" else if !f.isNormal then "dashed" else "solid"

def blockFill (b : BlockId) : Option String :=
  if b = enter then some "lightgreen" else if b = exit then some "lightcoral" else none

def drawing (title : Option String) : Dot.Drawing where
  name := "CFG"
  title := title
  items :=
    (g.liveBlocks.map fun b => .node b (g.blockName b) (g.blockTexts b) (blockFill b)) ++
    [.separator] ++
    g.liveBlocks.flatMap fun b =>
      (g.block b).succs.map fun e => .edge b e.1 (edgeColor e.2) (edgeStyle e.2)

end ScriptFlow.FlowGraph
