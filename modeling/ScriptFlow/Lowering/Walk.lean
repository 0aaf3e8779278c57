import ScriptFlow.Lowering.Rescue

/-! Lowering of whole bodies and programs. -/

namespace ScriptFlow

namespace Lowering

def lowerNode (walk : Walk) (t : Tree) (want : Bool) : Lower Operand := do
  match t.kind with
  | .literal => return .const (← t.literal)
  | .nilLit | .empty => return .nil
  | .trueLit => return .const (.bool true)
  | .falseLit => return .const (.bool false)
  | .selfRef => return .binding (← read).self
  | .localVar => return .binding (← variableBinding (← t.name))
  | .instanceVar => getInstanceVariable (← t.name)
  | .globalVar => getGlobal (← t.name)
  | .const | .scopedConst | .topConst => lowerConstant walk t
  | .stringBuild => lowerStringBuild walk t
  | .arrayLit => lowerArray walk t
  | .hashLit => lowerHash walk t
  | .dot2 => lowerRange walk t false
  | .dot3 => lowerRange walk t true
  | .assign => lowerAssign walk t
  | .opAssign => lowerOpAssign walk t want
  | .multipleAssign => lowerMultipleAssign walk t want
  | .call => lowerCall walk t want
  | .index => lowerIndex walk t want
  | .super | .bareSuper => lowerSuper walk t want
  | .yield => lowerYield walk t want
  | .lambda => lowerLambda t
  | .methodDef => lowerDefinition t want
  | .returnWith => lowerReturn walk t
  | .breakWith => lowerBreak walk t
  | .nextWith => lowerNext walk t
  | .redo => lowerRedo
  | .ifElse => lowerIf walk t false want
  | .unlessElse => lowerIf walk t true want
  | .whileLoop => lowerLoop walk t false want
  | .untilLoop => lowerLoop walk t true want
  | .caseOf => lowerCase walk t want
  | .conj => lowerShortCircuit walk t true want
  | .disj => lowerShortCircuit walk t false want
  | .negate => lowerNot walk t want
  | .isDefined => lowerDefined walk t
  | .sequence => lowerSequence walk t.children want
  | .bodyStmt => lowerBody walk t want
  | .rescueMod => lowerRescueMod walk t want
  | .pair | .field | .targetList | .valueList | .splat | .args | .blockPass | .blockLit
  | .whenClause | .rescue | .ensure => throw (.unexpectedNode t.kind .expression)
  | .classDef | .moduleDef | .unknown => throw (.unexpectedNode t.kind .methodBody)

/-- Lowers a node and the nodes in it, down to the given depth. -/
def walk (limit : Nat) : (depth : Nat) → Walk
  | 0, _, _ => throw (.recursionLimit limit)
  | depth + 1, t, want => lowerNode (walk limit depth) t want

/-- Uncaught exceptions and calls of a missing block lead to the failure block; it raises, and the
return block returns, what was left in the registers. -/
def buildExits (finalReturn finalException : BindingId) : Lower Unit := do
  let exception := (← read).exception
  let result := (← read).result
  modifyGraph fun g =>
    let g := [FlowGraph.rescueBlock, FlowGraph.yieldFail].foldl
      (fun g b => (g.pushInstr b (.jump FlowGraph.failure)).addEdge b FlowGraph.failure abnormal) g
    let g := g.pushInstr FlowGraph.failure (.assign finalException (.binding exception))
    let g := g.pushInstr FlowGraph.failure (.raise (.binding finalException))
    let g := g.addEdge FlowGraph.failure FlowGraph.exit abnormal
    let g := g.pushInstr FlowGraph.returnBlock (.assign finalReturn (.binding result))
    let g := g.pushInstr FlowGraph.returnBlock (.returnWith (.binding finalReturn))
    g.addEdge FlowGraph.returnBlock FlowGraph.exit .none

def prologue (walk : Walk) (finalReturn finalException : BindingId) : Lower Unit := do
  let context ← read
  let first ← newBlock
  addEdge FlowGraph.enter first .none
  startBlock first
  paramInto context.self .receiver .method
  buildExits finalReturn finalException
  if let some b := context.block then paramInto b .block .method
  paramInto context.exception .currentException .method
  let formals ← bindFormals walk context.formals .method
  modifyGraph ({ · with formals })

/-- Drops blocks that do nothing or are never reached. -/
def tidy (g : FlowGraph) : FlowGraph :=
  let g := g.prune
  let reached := (g.view .all).search FlowGraph.enter
  let dead := g.liveBlocks.filter fun b =>
    !reached.contains b && !FlowGraph.isDistinguished b
  (dead.foldl FlowGraph.dropBlock g).rebuildUses

end Lowering

structure Lowering where
  maxDepth : Nat
  scope : Scope
  methodName : Option String
  /-- A program has no block passed to it. -/
  isProgram : Bool

namespace Lowering

def register (g : FlowGraph) (name : String) : BindingId × FlowGraph :=
  g.addBinding ("t#" ++ name) .temporary

structure Start where
  context : Context
  state : State
  finalReturn : BindingId
  finalException : BindingId

def start (l : Lowering) (formals : List Formal) (nextProc : Serial) : Start :=
  let g := FlowGraph.ofScope l.scope
  let (self, g) := g.addBinding "self" .temporary
  let (block, g) :=
    if l.isProgram then (none, g)
    else
      let (b, g) := register g "current_block"
      (some b, g)
  let (exception, g) := register g "exception_value"
  let (result, g) := register g "return_value"
  let (finalReturn, g) := register g "final_return"
  let (finalException, g) := register g "exit_exception"
  let graph :=
    { g with
      selfRegister := some self, blockRegister := block, finalReturn := some finalReturn,
      finalException := some finalException }
  { context :=
      { methodName := l.methodName, formals, lexical := l.scope.lexical, self, block, exception,
        result,
        targets :=
          { breakTo := none, nextTo := none, redoTo := none, returnTo := FlowGraph.returnBlock,
            rescueTo := FlowGraph.rescueBlock, yieldFailTo := FlowGraph.yieldFail,
            breakValue := none, nextValue := none } }
    state :=
      { graph, current := FlowGraph.enter, blockCount := 0, tempCount := 0,
        variableIds := .empty, nextProc }
    finalReturn
    finalException }

def lowerWhole (walk : Walk) (body : Tree) (finalReturn finalException : BindingId) : Lower Unit := do
  prologue walk finalReturn finalException
  let value ← walk body true
  copy (← read).result value
  jump FlowGraph.returnBlock

/-- Lowers a body. The state is the identity of the next procedure. -/
def build (l : Lowering) (body : Tree) (formals : List Formal) : EStateM Error Serial FlowGraph :=
  fun nextProc =>
    let start := l.start formals nextProc
    let lower :=
      lowerWhole (walk l.maxDepth l.maxDepth) body start.finalReturn start.finalException
    match lower start.context start.state with
    | .ok _ s => .ok (tidy s.graph) s.nextProc
    | .error e s => .error e s.nextProc

end Lowering

end ScriptFlow
