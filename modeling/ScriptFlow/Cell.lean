import ScriptFlow.Value

/-! What is known of a binding's value: nothing yet, exactly one value, or no single value. -/

namespace ScriptFlow

inductive Cell where
  | undefined
  | known (v : Value)
  | varying
deriving DecidableEq, Inhabited

namespace Cell

def join : Cell → Cell → Cell
  | .undefined, c => c
  | c, .undefined => c
  | .known a, .known b => if a = b then .known a else .varying
  | .varying, _ => .varying
  | _, .varying => .varying

def height : Cell → Nat
  | .undefined => 0
  | .known _ => 1
  | .varying => 2

/-- The order of knowledge: from undefined over each known value to varying. -/
def le : Cell → Cell → Bool
  | .undefined, _ => true
  | _, .varying => true
  | .known a, .known b => a == b
  | _, _ => false

def isUndefined (c : Cell) : Bool := c == .undefined

def isVarying (c : Cell) : Bool := c == .varying

def value? : Cell → Option Value
  | .known v => some v
  | _ => none

def render : Cell → String
  | .undefined => "undefined"
  | .known v => v.render
  | .varying => "varying"

end Cell

end ScriptFlow
