import ScriptFlow.Lowering.Assignment
import ScriptFlow.Lowering.Branching

/-! `begin`, `rescue`, `else` and `ensure`. Every way out of a body with an `ensure` clause passes
through a copy of the clause. -/

namespace ScriptFlow.Lowering

variable (walk : Walk)

structure Handler where
  /-- Without any, standard errors are handled. -/
  classes : List Tree
  /-- Where the exception is stored. -/
  target : Option Tree
  body : Tree

structure Clauses where
  handlers : List Handler
  otherwise : Option Tree
  ensure : Option Tree

def Clauses.none : Clauses := ⟨[], Option.none, Option.none⟩

def handlerOf (t : Tree) : Except Error Handler := do
  let classes ← t.child 0
  let body ← t.child 2
  return ⟨classes.children, t.child? 1, body⟩

/-- Handlers come first, then at most one `else`, then at most one `ensure`. -/
def Clauses.add (c : Clauses) (t : Tree) : Except Error Clauses :=
  let isOpen := c.otherwise.isNone && c.ensure.isNone
  if t.kind = .rescue ∧ isOpen then do
    return { c with handlers := c.handlers ++ [← handlerOf t] }
  else if t.kind = .ensure ∧ c.ensure.isNone then do
    return { c with ensure := some (← t.child 0) }
  else if isOpen then .ok { c with otherwise := some t }
  else .error (.malformedNode (.misplacedClause t.kind))

/-- Tests the exception against one class, and goes on in a fresh block when it does not fit. -/
def testClass (cls : Operand) (matched : BlockId) : Lower Unit := do
  let test ← plainCall cls "===" [.binding (← read).exception]
  let next ← newBlock
  branch test matched next
  startBlock next

def testHandled (matched : BlockId) (t : Tree) : Lower Unit := do
  if t.kind = .splat then
    let list ← splatValue (← walk (← t.child 0) true)
    testEach list (some (.binding (← read).exception)) matched
  else testClass (← walk t true) matched

def lowerHandler (result : Option BindingId) (join : BlockId) (h : Handler) :
    Lower Unit := do
  let matched ← newBlock
  if h.classes.isEmpty then testClass (moduleConst CoreClass.standardError) matched
  else h.classes.forM (testHandled walk matched)
  let unmatched ← currentBlock
  startBlock matched
  if let some target := h.target then assignTo walk target (.binding (← read).exception)
  copyIf result (← walk h.body result.isSome)
  jump join
  startBlock unmatched

/-- The handlers are tried in order. What none of them handles goes to the rescue target around. -/
def lowerHandlers (handlers : List Handler) (result : Option BindingId)
    (join : BlockId) : Lower Unit := do
  handlers.forM (lowerHandler walk result join)
  jumpWith (← read).targets.rescueTo abnormal

/-- The `else` branch comes after the body and replaces its value. -/
def lowerElse (otherwise : Option Tree) (value : Operand) (want : Bool) :
    Lower Operand :=
  match otherwise with
  | some t => walk t want
  | none => pure value

/-- A body whose exceptions go to the handlers; those of its `else` branch do not. -/
def lowerProtected (body : Tree) (handlers : List Handler)
    (otherwise : Option Tree) (result : Option BindingId) : Lower Unit := do
  let want := result.isSome
  if handlers.isEmpty then
    let value ← walk body want
    copyIf result (← lowerElse walk otherwise value want)
  else
    let catcher ← newBlock
    let join ← newBlock
    let targets := (← read).targets
    let value ← withTargets { targets with rescueTo := catcher } (walk body want)
    copyIf result (← lowerElse walk otherwise value want)
    jump join
    startBlock catcher
    lowerHandlers walk handlers result join
    startBlock join

/-- A block that runs the clause and then goes on to the target. -/
def ensureCopy (ensure : Tree) (flags : EdgeFlags) (target : BlockId) :
    Lower BlockId := do
  let b ← newBlock
  startBlock b
  let _ ← walk ensure false
  jumpWith target flags
  return b

def ensureCopy? (ensure : Tree) : Option BlockId → Lower (Option BlockId)
  | some target => some <$> ensureCopy walk ensure .none target
  | none => pure none

def throughEnsure (ensure : Tree) : Lower Targets := do
  let outer := (← read).targets
  let resume ← currentBlock
  let breakTo ← ensureCopy? walk ensure outer.breakTo
  let nextTo ← ensureCopy? walk ensure outer.nextTo
  let redoTo ← ensureCopy? walk ensure outer.redoTo
  let returnTo ← ensureCopy walk ensure .none outer.returnTo
  let rescueTo ← ensureCopy walk ensure abnormal outer.rescueTo
  let yieldFailTo ← ensureCopy walk ensure abnormal outer.yieldFailTo
  startBlock resume
  return { outer with breakTo, nextTo, redoTo, returnTo, rescueTo, yieldFailTo }

def lowerBody (t : Tree) (want : Bool) : Lower Operand := do
  let body ← t.child 0
  let clauses ← ((t.children.drop 1).foldlM Clauses.add .none : Except Error Clauses)
  let result ← tempIf want
  let main := lowerProtected walk body clauses.handlers clauses.otherwise result
  match clauses.ensure with
  | none => main
  | some ensure => do
    withTargets (← throughEnsure walk ensure) main
    let _ ← walk ensure false
  return valueOf result

/-- `expr rescue fallback` handles standard errors. -/
def lowerRescueMod (t : Tree) (want : Bool) : Lower Operand := do
  let fallback ← t.child 1
  let result ← tempIf want
  lowerProtected walk (← t.child 0) [⟨[], none, fallback⟩] none result
  return valueOf result

end ScriptFlow.Lowering
