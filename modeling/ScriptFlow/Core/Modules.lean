import ScriptFlow.ClassTable.Basic
import ScriptFlow.Core.Fault

/-! Questions to objects about their class, and to modules about themselves. -/

namespace ScriptFlow.Core

variable (c : ClassTable) (receiver : Value) (args : List Value)

def moduleArg : Folded ModuleId := do
  Folded.orRaise (← firstArg args).asModule? "TypeError" "class or module required"

def nameArg : Folded String := do
  Folded.orRaise (← firstArg args).asName? "TypeError" "not a symbol nor a string"

def isA (c : ClassTable) (receiver : Value) (args : List Value) : Folded Value := do
  return .bool (c.isA (c.classOf receiver) (← moduleArg args))

def instanceOf : Folded Value := do
  return .bool (c.classOf receiver == (← moduleArg args))

def caseEqual : Folded Value := do
  let m ← Folded.orRefuse receiver.asModule? "=== on non-module"
  return .bool (c.isA (c.classOf (← firstArg args)) m)

def classValue : Value → Value
  | .moduleRef m =>
    .moduleRef (if c.kind m = .mixin then CoreClass.moduleClass else CoreClass.classClass)
  | v => .moduleRef (c.classOf v)

/-- A method that is found and, unless hidden ones count too, open to anyone. -/
def respondTo : Folded Value := do
  let name ← nameArg args
  let hidden := (args[1]?).any (·.truthy)
  let cls := c.classOf receiver
  return .bool
    ((c.instanceMethod? cls name).isSome && (hidden || c.visibilityOf cls name == .anyone))

def moduleName : Folded Value := do
  return .str (c.path (← Folded.orRefuse receiver.asModule? "name"))

/-- Looks the names up one after the other, going into each module that is found; `found` is what
the name before gave. -/
def constantAt (c : ClassTable) (current : ModuleId) (found : Option Value) :
    List String → Folded Value
  | [] => Folded.orRaise found "NameError" "wrong constant name"
  | name :: rest =>
    match c.constant? current name with
    | some v => constantAt c (v.asModule?.getD current) (some v) rest
    | none => Folded.raise "NameError" ("uninitialized constant " ++ name)

def constGet : Folded Value := do
  let m ← Folded.orRefuse receiver.asModule? "const_get"
  let name ← nameArg args
  constantAt c m none (Text.segments name)

def constDefined : Folded Value :=
  match constGet c receiver args with
  | .ok _ => .ok (.bool true)
  | .error (.raised cls message) =>
    if cls = "NameError" then .ok (.bool false) else .error (.raised cls message)
  | .error fault => .error fault

def ancestorList : Folded Value := do
  let m ← Folded.orRefuse receiver.asModule? "ancestors"
  return .array ((c.ancestors m).map Value.moduleRef)

/-- Whether a module lies strictly below another; `nil` for unrelated ones. -/
def moduleLess : Folded Value := do
  let m ← Folded.orRefuse receiver.asModule? "<"
  let other ← Folded.orRaise (← firstArg args).asModule? "TypeError" "compared with non class/module"
  return if m = other then .bool false
    else if c.isA m other then .bool true
    else if c.isA other m then .bool false
    else .nil

def superclass (c : ClassTable) (receiver : Value) : Folded Value := do
  let m ← Folded.orRefuse receiver.asModule? "superclass"
  return ((c.hierarchy.superclass? m).map Value.moduleRef).getD .nil

mutual

/-- How a value appears inside a larger one: modules by their path. -/
def inspect (c : ClassTable) : Value → String
  | .nil => "nil"
  | .moduleRef m => c.path m
  | .array items => "[" ++ ", ".intercalate (inspectAll c items) ++ "]"
  | v => v.render

def inspectAll (c : ClassTable) : List Value → List String
  | [] => []
  | v :: vs => inspect c v :: inspectAll c vs

end

/-- The text of a value on its own: strings and symbols as they are, `nil` as nothing. -/
def toText : Value → String
  | .nil => ""
  | .str s | .sym s => s
  | v => inspect c v

/-- Objects and procedures show an identity that is not known. -/
def hasIdentity : Value → Bool
  | .object _ _ | .proc _ => true
  | _ => false

def textOf (display : Value → String) (receiver : Value) : Folded Value :=
  if hasIdentity receiver then Folded.refuse "object identity" else .ok (.str (display receiver))

end ScriptFlow.Core
