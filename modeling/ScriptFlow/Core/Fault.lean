import ScriptFlow.Value

/-! How working out a core method on known operands can fail. -/

namespace ScriptFlow

inductive FoldFault where
  /-- The call raises an exception of the class with this path. -/
  | raised (cls message : String)
  /-- The result cannot be told. -/
  | unsupported (reason : String)
  /-- Working the result out breaks off: an unchecked operation leaves the 64 bits of its integers. -/
  | aborted (reason : String)
deriving DecidableEq

def FoldFault.message : FoldFault → String
  | .raised cls message => "simulated call raised " ++ cls ++ ": " ++ message
  | .unsupported reason => "not simulatable: " ++ reason
  | .aborted reason => reason

/-- The value a core method returns, or why there is none. -/
abbrev Folded := Except FoldFault

namespace Folded

def raise {α : Type} (cls message : String) : Folded α := .error (.raised cls message)

def refuse {α : Type} (reason : String) : Folded α := .error (.unsupported reason)

def abort {α : Type} (reason : String) : Folded α := .error (.aborted reason)

def overflow {α : Type} : Folded α := refuse "integer overflow"

def orRefuse {α : Type} (a : Option α) (reason : String) : Folded α :=
  match a with
  | some a => .ok a
  | none => refuse reason

def orRaise {α : Type} (a : Option α) (cls message : String) : Folded α :=
  match a with
  | some a => .ok a
  | none => raise cls message

end Folded

namespace Core

/-- The first argument; a call without one raises. -/
def firstArg (args : List Value) : Folded Value :=
  match args with
  | v :: _ => .ok v
  | [] => Folded.raise "ArgumentError" "wrong number of arguments (given 0, expected 1)"

/-- What messages call the class of a value. -/
def className : Value → String
  | .nil => "nil"
  | .bool true => "true"
  | .bool false => "false"
  | .int _ => "Integer"
  | .float _ => "Float"
  | .str _ => "String"
  | .sym _ => "Symbol"
  | .array _ => "Array"
  | .hash _ => "Hash"
  | .range _ _ _ => "Range"
  | .moduleRef _ => "Module"
  | .proc _ => "Proc"
  | .object _ _ => "Object"

end Core

end ScriptFlow
