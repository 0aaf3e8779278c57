import ScriptFlow.Lowering.Conversion
import ScriptFlow.Lowering.Formals

/-! Calls, block literals, `super`, `yield`, and the literals that are built by calls. -/

namespace ScriptFlow.Lowering

variable (walk : Walk) (t : Tree)

/-- Arguments one by one, or packed into one array because of a splat. -/
inductive Arguments where
  | fixed (values : List Operand)
  | packed (array : Operand)

def Arguments.isPacked : Arguments → Bool
  | .fixed _ => false
  | .packed _ => true

def Arguments.operands : Arguments → List Operand
  | .fixed vs => vs
  | .packed a => [a]

def lowerArgs (args : Tree) : Lower Arguments := do
  if args.children.any isSplat then return .packed (← splatArray walk args.children)
  else return .fixed (← walkAll walk args.children)

def siteOf (isSuper : Bool) (receiver : Operand) (method : String) (args : Arguments) : CallSite :=
  { CallSite.plain ⟨isSuper, args.isPacked⟩ none receiver method with
    args := args.operands, mayRaise := true }

/-! Block literals. -/

/-- Keeps the literal with the graph. The result is its place there and its procedure. -/
def registerLiteral (t : BlockTree) (lambda : Bool) : Lower (Nat × Operand) :=
  modifyGet fun s =>
    let index := s.graph.literals.length
    let proc := Operand.const (.proc ⟨s.nextProc, some index, lambda⟩)
    ((index, proc),
      { s with
        graph := { s.graph with literals := s.graph.literals ++ [t] }
        nextProc := s.nextProc + 1 })

def blockTaken : EdgeFlags := { abnormal with blockTaken := true }

/-- A call with a block literal, whose body is lowered in place. The call leads into the body. The
end of the body leads to its start again, to the code after the call, and to where exceptions
go. -/
def callWithLiteral (site : CallSite) (literal : Tree) (want : Bool) :
    Lower Operand := do
  let block ← literal.block
  let (index, proc) ← registerLiteral block false
  let procBinding ← newBinding ("%B-" ++ toString index) .block
  copy procBinding proc
  let target ← tempIf want
  let callBlock ← currentBlock
  let value ← emitCall
    { site with block := some (.binding procBinding), mayRaise := true, target } want
  let after ← currentBlock
  let body ← newBlock
  let name := ((← get).graph.block body).name
  let bodyExit ← namedBlock (name ++ "-Exit")
  let bodyFailure ← namedBlock (name ++ "-Failure")
  let bodyReturn ← namedBlock (name ++ "-Return")
  addEdge callBlock body blockTaken
  let blockResult ← newTemp
  let frame := Frame.block (.ofNat index)
  let targets := (← read).targets
  withTargets
    { targets with
      breakTo := some after, nextTo := some bodyReturn, redoTo := some body,
      rescueTo := bodyFailure, breakValue := target, nextValue := some blockResult } do
    startBlock body
    let _ ← bindFormals walk block.formals frame
    let result ← walk block.body true
    copy blockResult result
    jump bodyReturn
  startBlock bodyReturn
  emit (.returnWith (.binding blockResult))
  addEdge bodyReturn bodyExit .none
  startBlock bodyFailure
  emit (.raise (.binding (← read).exception))
  addEdge bodyFailure bodyExit abnormal
  startBlock bodyExit
  addEdge bodyExit body blockTaken
  addEdge bodyExit after .none
  raiseEdge false
  startBlock after
  return value

/-- Emits a call with the block that is written after its arguments. -/
def finishCall (site : CallSite) (block : Option Tree) (want : Bool) :
    Lower Operand := do
  match block with
  | none => emitCall site want
  | some b =>
    match b.kind with
    | .blockLit => callWithLiteral walk site b want
    | .blockPass => do
      let value ← walk (← b.child 0) true
      let proc ← convert value CoreClass.proc "to_proc"
      emitCall { site with block := some proc } want
    | kind => throw (.unexpectedNode kind .blockArgument)

/-! Calls. -/

/-- The receiver of a call, and whether it is left out. -/
def lowerReceiver : Lower (Operand × Bool) := do
  if t.kind = .empty then return (.binding (← read).self, true)
  else return (← walk t true, false)

def lowerCall (want : Bool) : Lower Operand := do
  let method ← t.name
  let (receiver, implicit) ← lowerReceiver walk (← t.child 0)
  let args ←
    match t.children[1]? with
    | some args => lowerArgs walk args
    | none => pure (.fixed [])
  let site := { siteOf false receiver method args with ignoreVisibility := implicit }
  finishCall walk site (t.child? 2) want

def lowerIndex (want : Bool) : Lower Operand := do
  let receiver ← walk (← t.child 0) true
  let args ← lowerArgs walk (← t.child 1)
  emitCall (siteOf false receiver "[]" args) want

def isBlockFormal : Formal → Bool
  | .block _ => true
  | _ => false

def isRestFormal : Formal → Bool
  | .rest _ => true
  | _ => false

def variablesOf (fs : List Formal) : Lower (List Operand) :=
  fs.mapM fun f => return .binding (← variableBinding f.name)

/-- The present values of the method's formals, with the rest formal spread out again. -/
def forwardedArguments : Lower Arguments := do
  let formals := (← read).formals.filter (!isBlockFormal ·)
  match formals.dropWhile (!isRestFormal ·) with
  | [] => return .fixed (← variablesOf formals)
  | rest :: trailing => do
    let before ← variablesOf (formals.takeWhile (!isRestFormal ·))
    let middle ← variableBinding rest.name
    let after ← variablesOf trailing
    let head ← arrayOf before
    let packed ← plainCall head "+" [.binding middle]
    if after.isEmpty then return .packed packed
    else
      let tail ← arrayOf after
      return .packed (← plainCall packed "+" [tail])

/-- Without a block of its own, `super` passes the block of the method on. -/
def lowerSuper (want : Bool) : Lower Operand := do
  let some method := (← read).methodName | throw (.malformedNode .superOutsideMethod)
  let (args, block) ←
    if t.kind = .bareSuper then pure (← forwardedArguments, t.child? 0)
    else pure (← lowerArgs walk (← t.child 0), t.child? 1)
  let context ← read
  let passed := if block.isNone then context.block.map .binding else none
  let site := siteOf true (.binding context.self) method args
  finishCall walk { site with ignoreVisibility := true, block := passed } block want

/-- Fails for want of a block. -/
def failYield : Lower Unit := do
  let error ← plainCall (moduleConst CoreClass.localJumpError) "new"
    [.const (.str "no block given (yield)")]
  copy (← read).exception error
  jumpWith (← read).targets.yieldFailTo abnormal

def lowerYield (want : Bool) : Lower Operand := do
  let args ← lowerArgs walk (← t.child 0)
  match (← read).block with
  | none => do
    failYield
    startUnreachable
    return .nil
  | some block => do
    let withBlock ← newBlock
    let withoutBlock ← newBlock
    let after ← newBlock
    branch (.binding block) withBlock withoutBlock
    startBlock withoutBlock
    failYield
    startBlock withBlock
    let value ← emitCall (siteOf false (.binding block) "call" args) want
    jump after
    startBlock after
    return value

/-- The body of a lambda is not lowered here. -/
def lowerLambda : Lower Operand := do
  let (_, proc) ← registerLiteral (← t.block) true
  return proc

/-- A definition calls `define_method` on the enclosing module. -/
def lowerDefinition (want : Bool) : Lower Operand := do
  let block ← t.block
  let some name := block.name | throw (.malformedNode .unnamedDefinition)
  let (_, proc) ← registerLiteral block true
  emitCall
    { CallSite.plain callKind none (moduleConst (← read).lexical) "define_method" with
      args := [symConst name], block := some proc, ignoreVisibility := true } want

/-! Literals and constants. -/

/-- Every part is converted to a string, except for string constants. -/
def stringPart : Lower Operand := do
  let value ← walk t true
  match value with
  | .const (.str _) => return value
  | _ => raisingCall value "to_s" [] false true

def lowerStringBuild : Lower Operand :=
  t.children.foldlM
    (fun joined part => do plainCall joined "+" [← stringPart walk part])
    (.const (.str ""))

def lowerArray : Lower Operand := do
  if t.children.any isSplat then splatArray walk t.children
  else arrayOf (← walkAll walk t.children)

def storePair (hash : Operand) (t : Tree) : Lower Unit := do
  if t.kind ≠ .pair then throw (.unexpectedNode t.kind .hashLiteral)
  let key ← walk (← t.child 0) true
  let value ← walk (← t.child 1) true
  let _ ← emitCall { CallSite.plain callKind none hash "[]=" with args := [key, value] } false

def lowerHash : Lower Operand := do
  let hash ← plainCall (moduleConst CoreClass.hash) "new" []
  t.children.forM (storePair walk hash)
  return hash

def lowerRange (exclusive : Bool) : Lower Operand := do
  let first ← walk (← t.child 0) true
  let last ← walk (← t.child 1) true
  match first, last with
  | .const a, .const b => return .const (.range a b exclusive)
  | _, _ =>
    raisingCall (moduleConst CoreClass.range) "new" [first, last, .const (.bool exclusive)]
      false true

/-- The module in which a constant is looked up or set. -/
def constantScope : Lower Operand := do
  match t.kind with
  | .scopedConst => walk (← t.child 0) true
  | .topConst => return moduleConst CoreClass.object
  | _ => return moduleConst (← read).lexical

def getConstant (scope : Operand) (name : String) : Lower Operand :=
  raisingCall scope "const_get" [symConst name] false true

def lowerConstant : Lower Operand := do
  let scope ← constantScope walk t
  getConstant scope (← t.name)

def getInstanceVariable (name : String) : Lower Operand := do
  emitCall
    { CallSite.plain callKind none (.binding (← read).self) "instance_variable_get" with
      args := [symConst name], ignoreVisibility := true } true

def getGlobal (name : String) : Lower Operand :=
  return .binding (← newParam (.global name) .method)

end ScriptFlow.Lowering
