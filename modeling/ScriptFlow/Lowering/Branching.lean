import ScriptFlow.Lowering.Call

/-! Conditionals, loops, `case`, boolean operators, `defined?` and jumps. -/

namespace ScriptFlow.Lowering

variable (walk : Walk) (t : Tree) (subject : Option Operand)

def lowerSequence (walk : Walk) : List Tree → Bool → Lower Operand
  | [], _ => return .nil
  | [t], want => walk t want
  | t :: ts, want => do
    let _ ← walk t false
    lowerSequence walk ts want

def lowerOptional (t : Option Tree) (want : Bool) : Lower Operand :=
  match t with
  | some t => walk t want
  | none => return .nil

def lowerIf (negated want : Bool) : Lower Operand := do
  let condition ← walk (← t.child 0) true
  let result ← tempIf want
  let thenBlock ← newBlock
  let elseBlock ← newBlock
  let join ← newBlock
  if negated then branch condition elseBlock thenBlock else branch condition thenBlock elseBlock
  startBlock thenBlock
  copyIf result (← walk (← t.child 1) want)
  jump join
  startBlock elseBlock
  copyIf result (← lowerOptional walk t.children[2]? want)
  jump join
  startBlock join
  return valueOf result

/-- The value of a loop is nil unless a `break` gives one. -/
def lowerLoop (isUntil want : Bool) : Lower Operand := do
  let result ← tempIf want
  copyIf result .nil
  let head ← newBlock
  let body ← newBlock
  let after ← newBlock
  jump head
  startBlock head
  let condition ← walk (← t.child 0) true
  if isUntil then branch condition after body else branch condition body after
  let targets := (← read).targets
  withTargets
    { targets with
      breakTo := some after, nextTo := some head, redoTo := some body,
      breakValue := result, nextValue := none } do
    startBlock body
    let _ ← walk (← t.child 1) false
    jump head
  startBlock after
  return valueOf result

/-! `case`. -/

/-- Without a subject a pattern is tested for truth itself. -/
def caseTest (pattern : Operand) : Lower Operand :=
  match subject with
  | some s => raisingCall pattern "===" [s] false true
  | none => pure pattern

/-- Goes to `matched` if some item of the list passes the test, and goes on here otherwise. -/
def testEach (list : Operand) (subject : Option Operand) (matched : BlockId) : Lower Unit := do
  let size ← plainCall list "size" []
  let index ← newTemp
  copy index (intConst 0)
  let head ← newBlock
  let testBlock ← newBlock
  let advance ← newBlock
  let exhausted ← newBlock
  jump head
  startBlock head
  let inRange ← plainCall size ">" [.binding index]
  branch inRange testBlock exhausted
  startBlock testBlock
  let item ← plainCall list "[]" [.binding index]
  let test ← caseTest subject item
  branch test matched advance
  startBlock advance
  let next ← plainCall (.binding index) "+" [intConst 1]
  copy index next
  jump head
  startBlock exhausted

def lowerPattern (matched : BlockId) (t : Tree) :
    Lower Unit := do
  if t.kind = .splat then
    let list ← splatValue (← walk (← t.child 0) true)
    testEach list subject matched
  else
    let value ← walk t true
    let test ← caseTest subject value
    let next ← newBlock
    branch test matched next
    startBlock next

def lowerWhen (result : Option BindingId)
    (join : BlockId) (want : Bool) (t : Tree) : Lower Unit := do
  let matched ← newBlock
  (← t.child 0).children.forM (lowerPattern walk subject matched)
  let fallthrough ← currentBlock
  startBlock matched
  copyIf result (← walk (← t.child 1) want)
  jump join
  startBlock fallthrough

/-- Lowers the clauses and returns the `else` branch, which has to come last. -/
def lowerClauses (clause : Tree → Lower Unit) : Option Tree → List Tree → Lower (Option Tree)
  | otherwise, [] => return otherwise
  | none, t :: ts => do
    if t.kind = .whenClause then
      clause t
      lowerClauses clause none ts
    else lowerClauses clause (some t) ts
  | some _, t :: _ =>
    if t.kind = .whenClause then throw (.malformedNode .whenAfterElse)
    else throw (.malformedNode .secondElse)

def lowerCase (want : Bool) : Lower Operand := do
  let first ← t.child 0
  let subject ← if first.kind = .empty then pure none else some <$> walk first true
  let result ← tempIf want
  let join ← newBlock
  let otherwise ←
    lowerClauses (lowerWhen walk subject result join want) none (t.children.drop 1)
  copyIf result (← lowerOptional walk otherwise want)
  jump join
  startBlock join
  return valueOf result

/-! Boolean operators. -/

/-- The left value is the result unless the right side is evaluated. -/
def lowerShortCircuit (isAnd want : Bool) : Lower Operand := do
  let left ← walk (← t.child 0) true
  let result ← tempIf want
  copyIf result left
  let rightBlock ← newBlock
  let join ← newBlock
  if isAnd then branch left rightBlock join else branch left join rightBlock
  startBlock rightBlock
  copyIf result (← walk (← t.child 1) want)
  jump join
  startBlock join
  return valueOf result

def lowerNot (want : Bool) : Lower Operand := do
  raisingCall (← walk (← t.child 0) true) "!" [] false want

/-! `defined?`. -/

/-- The description if the test holds, and nil otherwise. -/
def describeIf (test : Operand) (description : String) : Lower Operand := do
  let result ← newTemp
  let yes ← newBlock
  let no ← newBlock
  let join ← newBlock
  branch test yes no
  startBlock yes
  copy result (.const (.str description))
  jump join
  startBlock no
  copy result .nil
  jump join
  startBlock join
  return .binding result

/-- What kind of thing an expression is, found out without evaluating it for its effect. -/
def lowerDefined : Lower Operand := do
  let expr ← t.child 0
  let described (s : String) : Lower Operand := return .const (.str s)
  match expr.kind with
  | .localVar => described "local-variable"
  | .selfRef => described "self"
  | .nilLit => described "nil"
  | .trueLit => described "true"
  | .falseLit => described "false"
  | .globalVar => described "global-variable"
  | .assign | .opAssign | .multipleAssign => described "assignment"
  | .super | .bareSuper => described "super"
  | .yield => do
    match (← read).block with
    | some b => describeIf (.binding b) "yield"
    | none => return .nil
  | .const | .scopedConst | .topConst => do
    let scope ← constantScope walk expr
    let test ← plainCall scope "const_defined?" [symConst (← expr.name)]
    describeIf test "constant"
  | .instanceVar => do
    let name ← expr.name
    let test ← plainCall (.binding (← read).self) "instance_variable_defined?" [symConst name]
    describeIf test "instance-variable"
  | .call => do
    let (receiver, implicit) ← lowerReceiver walk (← expr.child 0)
    let name ← expr.name
    let test ← plainCall receiver "respond_to?" [symConst name, .const (.bool implicit)]
    describeIf test "method"
  | _ => described "expression"

/-! Jumps. The code after a jump is unreachable. -/

def lowerReturn : Lower Operand := do
  let value ← lowerOptional walk (t.child? 0) true
  copy (← read).result value
  jump (← read).targets.returnTo
  startUnreachable
  return .nil

def jumpOut (target : Option BlockId) (fault : TreeFault)
    (place : Option BindingId) : Lower Operand := do
  let some target := target | throw (.malformedNode fault)
  let value ← lowerOptional walk (t.child? 0) true
  copyIf place value
  jump target
  startUnreachable
  return .nil

def lowerBreak : Lower Operand := do
  let targets := (← read).targets
  jumpOut walk t targets.breakTo .breakOutside targets.breakValue

def lowerNext : Lower Operand := do
  let targets := (← read).targets
  jumpOut walk t targets.nextTo .nextOutside targets.nextValue

def lowerRedo : Lower Operand := do
  let some target := (← read).targets.redoTo | throw (.malformedNode .redoOutside)
  jump target
  startUnreachable
  return .nil

end ScriptFlow.Lowering
