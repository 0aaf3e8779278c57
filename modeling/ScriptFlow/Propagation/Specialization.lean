import ScriptFlow.ClassTable.Typing

/-! What is assumed of the caller of a body. -/

namespace ScriptFlow

structure Specialization where
  selfType : Option Ty
  arguments : Option (List Ty)
  block : Option Ty
  blockValue : Option Value
deriving DecidableEq, Inhabited

namespace Specialization

def none : Specialization := ⟨Option.none, Option.none, Option.none, Option.none⟩

def withBlockValue (s : Specialization) (c : ClassTable) (v : Value) : Specialization :=
  { s with block := some (c.typeOf v), blockValue := some v }

/-- Whether a block is passed, when the assumptions decide it. -/
def blockGiven? (s : Specialization) (c : ClassTable) : Option Bool :=
  s.block.bind fun t =>
    if t.isEmpty then Option.none
    else if c.isSubtype t .falsy then some false
    else if c.overlaps t .falsy then Option.none
    else some true

end Specialization

end ScriptFlow
