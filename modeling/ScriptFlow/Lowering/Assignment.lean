import ScriptFlow.Lowering.Call

/-! Single, operator and multiple assignment. When both sides of a multiple assignment are written
out, values and targets are matched here. Otherwise the right side is made an array and taken
apart by index when the program runs. -/

namespace ScriptFlow.Lowering

variable (walk : Walk) (targets : List Tree)

/-- An assignment target whose parts are evaluated. -/
inductive Place where
  | variable (b : BindingId)
  | instanceVariable (name : String)
  | global (name : String)
  | constant (scope : Operand) (name : String)
  | attribute (receiver : Operand) (name : String) (implicit : Bool)
  | item (receiver : Operand) (args : Arguments)

def evalPlace (t : Tree) : Lower Place := do
  match t.kind with
  | .localVar => return .variable (← variableBinding (← t.name))
  | .instanceVar => return .instanceVariable (← t.name)
  | .globalVar => return .global (← t.name)
  | .const | .topConst | .scopedConst => do
    let scope ← constantScope walk t
    return .constant scope (← t.name)
  | .field => do
    let (receiver, implicit) ← lowerReceiver walk (← t.child 0)
    return .attribute receiver (← t.name) implicit
  | .index => do
    let receiver ← walk (← t.child 0) true
    return .item receiver (← lowerArgs walk (← t.child 1))
  | kind => throw (.unexpectedNode kind .assignmentTarget)

def readPlace : Place → Lower Operand
  | .variable b => return .binding b
  | .instanceVariable name => getInstanceVariable name
  | .global name => getGlobal name
  | .constant scope name => getConstant scope name
  | .attribute receiver name implicit => raisingCall receiver name [] implicit true
  | .item receiver args => emitCall (siteOf false receiver "[]" args) true

def appendArgument (value : Operand) : Arguments → Lower Arguments
  | .fixed vs => return .fixed (vs ++ [value])
  | .packed array => do
    let tail ← arrayOf [value]
    return .packed (← plainCall array "+" [tail])

def writePlace (place : Place) (value : Operand) : Lower Unit := do
  match place with
  | .variable b => copy b value
  | .instanceVariable name =>
    let _ ← emitCall
      { CallSite.plain callKind none (.binding (← read).self) "instance_variable_set" with
        args := [symConst name, value], ignoreVisibility := true } false
  | .global name => emit (.storeGlobal name value)
  | .constant scope name =>
    let _ ← emitCall
      { CallSite.plain callKind none scope "const_set" with args := [symConst name, value] } false
  | .attribute receiver name implicit =>
    let _ ← raisingCall receiver (name ++ "=") [value] implicit false
  | .item receiver args =>
    let args ← appendArgument value args
    let _ ← emitCall (siteOf false receiver "[]=" args) false

/-! Taking arrays apart. -/

def splatPosition : Except Error (Option Nat) :=
  if 1 < targets.countP isSplat then .error (.malformedNode .secondSplat)
  else .ok (targets.findIdx? isSplat)

def itemAt (array index : Operand) : Lower Operand := plainCall array "[]" [index]

/-- What the splat of a target list takes from an array, and where the targets after it start. -/
def splatMiddle (array : Operand) (before after : Nat) : Lower (Operand × Operand) := do
  let size ← plainCall array "size" []
  let splatSize ← plainCall size "-" [intConst (before + after)]
  let hasItems ← plainCall splatSize ">" [intConst 0]
  let middle ← newTemp
  let start ← newTemp
  let some_ ← newBlock
  let none_ ← newBlock
  let join ← newBlock
  branch hasItems some_ none_
  startBlock some_
  let items ← plainCall array "[]" [intConst before, splatSize]
  copy middle items
  let first ← plainCall size "-" [intConst after]
  copy start first
  jump join
  startBlock none_
  copy middle (.const (.array []))
  copy start (intConst before)
  jump join
  startBlock join
  return (.binding middle, .binding start)

def expectSize (targets : List Tree) (array : Operand) : Lower Unit :=
  if targets.any isSplat then emit (.declare (.expectSize .greater (targets.length - 1) array))
  else emit (.declare (.expectSize .equal targets.length array))

/-- Only one of the targets may be a splat. -/
def checkTargets (array : Operand) : Lower Unit := do
  let _ ← splatPosition targets
  expectSize targets array

mutual

/-- Stores a value into a target; a nested target list takes it apart. -/
def assignTo (walk : Walk) : Tree → Operand → Lower Unit
  | .node .targetList targets _, value => do
    let array ← toArray value "to_ary"
    checkTargets targets array
    assignLeading walk array 0 targets
  | target, value => do
    let place ← evalPlace walk target
    writePlace place value
termination_by structural t => t

/-- The targets up to the splat get the items from the front. -/
def assignLeading (walk : Walk) (array : Operand) : Nat → List Tree → Lower Unit
  | _, [] => pure ()
  | i, .node .splat inner _ :: targets => do
    let (middle, start) ← splatMiddle array i targets.length
    assignFirst walk inner middle
    assignTrailing walk array start 0 targets
  | i, target :: targets => do
    let item ← itemAt array (intConst i)
    assignTo walk target item
    assignLeading walk array (i + 1) targets
termination_by structural _ ts => ts

/-- A bare splat has no target. -/
def assignFirst (walk : Walk) : List Tree → Operand → Lower Unit
  | [], _ => pure ()
  | target :: _, value => assignTo walk target value
termination_by structural ts => ts

/-- The targets after the splat get the items from the end. -/
def assignTrailing (walk : Walk) (array start : Operand) : Nat → List Tree → Lower Unit
  | _, [] => pure ()
  | j, target :: targets => do
    let index ← plainCall start "+" [intConst j]
    let item ← itemAt array index
    assignTo walk target item
    assignTrailing walk array start (j + 1) targets
termination_by structural _ ts => ts

end

def destructure (array : Operand) : Lower Unit := do
  checkTargets targets array
  assignLeading walk array 0 targets

/-! Assignments. -/

/-- The value is the right side. -/
def lowerAssign (t : Tree) : Lower Operand := do
  let place ← evalPlace walk (← t.child 0)
  let right ← t.child 1
  let value ← if right.kind = .valueList then splatArray walk right.children else walk right true
  writePlace place value
  return value

/-- `||=` and `&&=` assign only when the present value is false or true; the right side is not
evaluated otherwise. -/
def assignUnless (isOr : Bool) (place : Place) (current : Operand) (right : Tree)
    (want : Bool) : Lower Operand := do
  let result ← tempIf want
  copyIf result current
  let assignBlock ← newBlock
  let join ← newBlock
  if isOr then branch current join assignBlock else branch current assignBlock join
  startBlock assignBlock
  let value ← walk right true
  writePlace place value
  copyIf result value
  jump join
  startBlock join
  return valueOf result

def lowerOpAssign (t : Tree) (want : Bool) : Lower Operand := do
  let op ← t.name
  let place ← evalPlace walk (← t.child 0)
  let current ← readPlace place
  let right ← t.child 1
  if op = "||" ∨ op = "&&" then assignUnless walk (op = "||") place current right want
  else
    let value ← walk right true
    let combined ← raisingCall current op [value] false true
    writePlace place combined
    return combined

/-- A copy of a variable that later assignments of the same statement do not change. -/
def snapshot (value : Operand) : Lower Operand := do
  match value with
  | .binding b =>
    if ((← get).graph.binding b).kind = .variable then
      let t ← newTemp
      copy t value
      return .binding t
    else return value
  | .const _ => return value

def report (kind : FindingKind) (message : String) : Lower Unit := do
  let block ← currentBlock
  modifyGraph (·.addFinding ⟨kind, some block, none, message⟩)

def walkSnapshots (ts : List Tree) : Lower (List Operand) :=
  ts.mapM fun t => do snapshot (← walk t true)

def assignedValues (values : List Operand) (want : Bool) : Lower Operand :=
  if want then arrayOf values else pure .nil

/-- A nested target list is evaluated only when it is assigned. -/
def evalTarget (t : Tree) : Lower (Tree × Option Place) := do
  if t.kind = .targetList then return (t, none) else return (t, some (← evalPlace walk t))

def writeTarget (target : Tree × Option Place) (value : Operand) : Lower Unit :=
  match target with
  | (_, some place) => writePlace place value
  | (t, none) => assignTo walk t value

def writeTargets (walk : Walk) : List (Tree × Option Place) → List Operand → Lower Unit
  | [], _ => pure ()
  | t :: ts, [] => do
    writeTarget walk t .nil
    writeTargets walk ts []
  | t :: ts, v :: vs => do
    writeTarget walk t v
    writeTargets walk ts vs

/-- Both sides are written out, without splats. -/
def assignPairwise (targets values : List Tree) (want : Bool) : Lower Operand := do
  let places ← targets.mapM (evalTarget walk)
  let operands ← walkSnapshots walk values
  let (n, m) := (operands.length, targets.length)
  if m < n then
    report .discardedRhs
      (toString n ++ " value(s) assigned to " ++ toString m ++
        " target(s); the rest are discarded")
  else if n < m then
    report .unassignedLhs
      (toString m ++ " target(s) but only " ++ toString n ++ " value(s); the rest are nil")
  writeTargets walk places operands
  assignedValues operands want

/-- The targets get the values in order; those without a value get nil. -/
def assignEach (walk : Walk) : List Tree → List Operand → Lower Unit
  | [], _ => pure ()
  | t :: ts, values => do
    assignTo walk t (values.headD .nil)
    assignEach walk ts values.tail

/-- The values are written out and the splat takes those in the middle. -/
def assignAround (star : Nat) (values : List Tree)
    (want : Bool) : Lower Operand := do
  let operands ← walkSnapshots walk values
  let fixed := targets.length - 1
  let count := operands.length
  if count < fixed then
    report .unassignedLhs
      (toString count ++ " value(s) for " ++ toString fixed ++
        " fixed target(s); the splat is empty and the rest are nil")
  let middle := (operands.drop star).take (count - fixed)
  assignEach walk (targets.take star) operands
  if let some target := (targets[star]?.getD default).children.head? then
    let array ← arrayOf middle
    assignTo walk target array
  assignEach walk (targets.drop (star + 1)) (operands.drop (star + middle.length))
  assignedValues operands want

def lowerMultipleAssign (t : Tree) (want : Bool) : Lower Operand := do
  let left ← t.child 0
  if left.kind ≠ .targetList then throw (.malformedNode .noTargetList)
  let right ← t.child 1
  let targets := left.children
  let star ← splatPosition targets
  if right.kind = .valueList then
    if right.children.any isSplat then
      let array ← splatArray walk right.children
      destructure walk targets array
      return array
    else
      match star with
      | none => assignPairwise walk targets right.children want
      | some star => assignAround walk targets star right.children want
  else
    let value ← snapshot (← walk right true)
    let array ← toArray value "to_ary"
    destructure walk targets array
    return value

end ScriptFlow.Lowering
