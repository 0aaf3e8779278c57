/-! Findings: remarks on suspicious places of the analysed program. -/

namespace ScriptFlow

abbrev BlockId := Nat

abbrev InstrId := Nat

abbrev BindingId := Nat

inductive FindingKind where
  | discardedRhs
  | unassignedLhs
  | noMatchingSignature
  | deadCode
  | unusedVariable
  | analysisFailed
deriving DecidableEq, Inhabited

namespace FindingKind

def name : FindingKind → String
  | .discardedRhs => "DiscardedRhs"
  | .unassignedLhs => "UnassignedLhs"
  | .noMatchingSignature => "NoMatchingTypeSignature"
  | .deadCode => "DeadCode"
  | .unusedVariable => "UnusedVariable"
  | .analysisFailed => "AnalysisFailed"

def all : List FindingKind :=
  [.discardedRhs, .unassignedLhs, .noMatchingSignature, .deadCode, .unusedVariable, .analysisFailed]

end FindingKind

/-- A remark, placed at an instruction, at a block or nowhere in particular. -/
structure Finding where
  kind : FindingKind
  block : Option BlockId
  instr : Option InstrId
  message : String
deriving DecidableEq, Inhabited

end ScriptFlow
