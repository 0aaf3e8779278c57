import ScriptFlow.FlowGraph.Prune

/-! Elementary steps of lowering a tree to a flow graph. Instructions go to the end of a current
block; a new block is opened where control splits or joins. A node is lowered for its value, or for
its effect alone, and then no temporary is made for it. -/

namespace ScriptFlow.Lowering

/-- Where jumps out of the code at hand go to, and where they leave their value. -/
structure Targets where
  breakTo : Option BlockId
  nextTo : Option BlockId
  redoTo : Option BlockId
  returnTo : BlockId
  rescueTo : BlockId
  yieldFailTo : BlockId
  breakValue : Option BindingId
  nextValue : Option BindingId

/-- What stays the same while a construct is lowered. -/
structure Context where
  /-- The method that `super` calls again. -/
  methodName : Option String
  formals : List Formal
  lexical : ModuleId
  self : BindingId
  /-- The block passed to the method; a program has none. -/
  block : Option BindingId
  exception : BindingId
  result : BindingId
  targets : Targets

structure State where
  graph : FlowGraph
  current : BlockId
  blockCount : Nat
  tempCount : Nat
  variableIds : Dict String BindingId
  /-- The identity of the next procedure. Failed lowerings use identities up as well. -/
  nextProc : Serial

end Lowering

abbrev Lower := ReaderT Lowering.Context (EStateM Error Lowering.State)

namespace Lowering

instance : MonadLift (Except Error) Lower where
  monadLift
    | .ok a => pure a
    | .error e => throw e

/-- Lowers a node, for its value if the flag says so. -/
abbrev Walk := Tree → Bool → Lower Operand

def intConst (n : Nat) : Operand := .const (.int (.ofNat n))

def moduleConst (m : ModuleId) : Operand := .const (.moduleRef m)

def symConst (s : String) : Operand := .const (.sym s)

/-- The value held by a binding, or nil when no value was asked for. -/
def valueOf (b : Option BindingId) : Operand := (b.map .binding).getD .nil

/-! Blocks. -/

def modifyGraph (f : FlowGraph → FlowGraph) : Lower Unit :=
  modify fun s => { s with graph := f s.graph }

def namedBlock (name : String) : Lower BlockId :=
  modifyGet fun s =>
    let (b, graph) := s.graph.pushBlock name
    (b, { s with graph })

def newBlock : Lower BlockId := do
  modify fun s => { s with blockCount := s.blockCount + 1 }
  namedBlock ("B" ++ toString (← get).blockCount)

def currentBlock : Lower BlockId := return (← get).current

def startBlock (b : BlockId) : Lower Unit := modify fun s => { s with current := b }

/-- Goes on in a block that nothing leads to. -/
def startUnreachable : Lower Unit := do startBlock (← newBlock)

def addEdge (a b : BlockId) (flags : EdgeFlags) : Lower Unit := modifyGraph (·.addEdge a b flags)

/-! Bindings. -/

def newBinding (name : String) (kind : BindingKind) : Lower BindingId :=
  modifyGet fun s =>
    let (b, graph) := s.graph.addBinding name kind
    (b, { s with graph })

def newTemp : Lower BindingId := do
  modify fun s => { s with tempCount := s.tempCount + 1 }
  newBinding ("%t" ++ toString (← get).tempCount) .temporary

def tempIf (want : Bool) : Lower (Option BindingId) := do
  if want then return some (← newTemp) else return none

/-- The binding of a variable, made when it is first met. -/
def variableBinding (name : String) : Lower BindingId := do
  match (← get).variableIds.get? name with
  | some b => return b
  | none =>
    let b ← newBinding name .variable
    modify fun s => { s with variableIds := s.variableIds.put name b }
    return b

/-! Instructions. -/

def emit (i : Instr) : Lower Unit := modify fun s => { s with graph := s.graph.pushInstr s.current i }

def copy (target : BindingId) (source : Operand) : Lower Unit := emit (.assign target source)

def copyIf (target : Option BindingId) (source : Operand) : Lower Unit :=
  match target with
  | some t => copy t source
  | none => pure ()

def paramInto (target : BindingId) (p : Param) (frame : Frame) : Lower Unit :=
  emit (.param target p frame)

def newParam (p : Param) (frame : Frame) : Lower BindingId := do
  let t ← newTemp
  paramInto t p frame
  return t

def jumpWith (target : BlockId) (flags : EdgeFlags) : Lower Unit := do
  emit (.jump target)
  addEdge (← currentBlock) target flags

def jump (target : BlockId) : Lower Unit := jumpWith target .none

def abnormal : EdgeFlags := { EdgeFlags.none with abnormal := true }

def branch (condition : Operand) (yes no : BlockId) : Lower Unit := do
  emit (.branch condition yes no)
  addEdge (← currentBlock) yes .none
  addEdge (← currentBlock) no .none

/-- Leaves the current block by an exception: it is read in a block of its own, which jumps on to
the rescue target. -/
def raiseEdge (resume : Bool) : Lower Unit := do
  let origin ← currentBlock
  let landing ← newBlock
  addEdge origin landing abnormal
  startBlock landing
  paramInto (← read).exception .justRaised .method
  jumpWith (← read).targets.rescueTo abnormal
  if resume then
    let after ← newBlock
    addEdge origin after .none
    startBlock after
  else startUnreachable

def emitCall (site : CallSite) (want : Bool) : Lower Operand := do
  let target ← if want && site.target.isNone then tempIf true else pure site.target
  emit (.call { site with target })
  if site.mayRaise then raiseEdge true
  return valueOf target

def callKind : CallKind := ⟨false, false⟩

/-- A call that cannot raise. -/
def plainCall (receiver : Operand) (method : String) (args : List Operand) : Lower Operand :=
  emitCall { CallSite.plain callKind none receiver method with args } true

def raisingCall (receiver : Operand) (method : String) (args : List Operand)
    (ignoreVisibility want : Bool) : Lower Operand :=
  emitCall { CallSite.plain callKind none receiver method with
    args, ignoreVisibility, mayRaise := true } want

def withTargets {α : Type} (targets : Targets) (act : Lower α) : Lower α :=
  withReader (fun c => { c with targets }) act

end Lowering

end ScriptFlow
