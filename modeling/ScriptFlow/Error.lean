import ScriptFlow.NodeKind

/-! What can stop the analysis of a tree or a method, and how it is told. Trouble in the analysed
program itself is a result, not an error. -/

namespace ScriptFlow

/-- A known kind of node whose children or payload do not fit it. -/
inductive TreeFault where
  | missingChild (kind : NodeKind) (index count : Nat)
  | noName (kind : NodeKind)
  | noLiteral (kind : NodeKind)
  | noBlock (kind : NodeKind)
  | superOutsideMethod
  | unnamedDefinition
  | secondElse
  | whenAfterElse
  | breakOutside
  | nextOutside
  | redoOutside
  | noTargetList
  | secondSplat
  | secondRest (name : String)
  | misplacedClause (kind : NodeKind)
deriving DecidableEq

def TreeFault.message : TreeFault → String
  | .missingChild kind index count =>
    kind.name ++ " node is missing child " ++ toString index ++ " (has " ++ toString count ++ ")"
  | .noName kind => kind.name ++ " node has no name"
  | .noLiteral kind => kind.name ++ " node has no literal"
  | .noBlock kind => kind.name ++ " node has no block"
  | .superOutsideMethod => "super outside of a method body"
  | .unnamedDefinition => "def without a method name"
  | .secondElse => "case with more than one else branch"
  | .whenAfterElse => "when clause after the else branch"
  | .breakOutside => "break outside of a loop or block"
  | .nextOutside => "next outside of a loop or block"
  | .redoOutside => "redo outside of a loop or block"
  | .noTargetList => "multiple assignment without a target list"
  | .secondSplat => "more than one splat on the left of a multiple assignment"
  | .secondRest name => "more than one rest formal: " ++ name
  | .misplacedClause kind => "misplaced " ++ kind.name ++ " clause in begin block"

/-- Where a node of the wrong kind was met. -/
inductive NodePosition where
  | blockArgument
  | hashLiteral
  | assignmentTarget
  | expression
  | methodBody
deriving DecidableEq

def NodePosition.name : NodePosition → String
  | .blockArgument => "block argument"
  | .hashLiteral => "hash literal"
  | .assignmentTarget => "assignment target"
  | .expression => "expression position"
  | .methodBody => "method body"

inductive GraphFault where
  | duplicateBlock (name : String)
  | terminalBlock (name : String)
  | noBody (method : String)
deriving DecidableEq

def GraphFault.message : GraphFault → String
  | .duplicateBlock name => "duplicate block name '" ++ name ++ "'"
  | .terminalBlock name => "cannot remove terminal block '" ++ name ++ "'"
  | .noBody method => "method " ++ method ++ " has no analysable body"

/-- Single-assignment form that is missing, there already, or broken. -/
inductive FormFault where
  | already
  | missing
  | manyDefinitions (binding : String) (count : Nat)
  | neverDefined (binding : String)
  | noDefinition (binding : String)
deriving DecidableEq

def FormFault.message : FormFault → String
  | .already => "graph is already in SSA form"
  | .missing => "constant propagation requires SSA form"
  | .manyDefinitions binding count =>
    "binding " ++ binding ++ " has " ++ toString count ++ " definitions"
  | .neverDefined binding => "binding " ++ binding ++ " is read but never defined"
  | .noDefinition binding => "binding " ++ binding ++ " has no definition"

inductive Error where
  | unexpectedNode (kind : NodeKind) (position : NodePosition)
  | malformedNode (fault : TreeFault)
  | graph (fault : GraphFault)
  | form (fault : FormFault)
  | unknownModule (path : String)
  | unknownMethod (id : Nat)
  | recursionLimit (limit : Nat)
  | iterationLimit (limit : Nat)
deriving DecidableEq

def Error.kindName : Error → String
  | .unexpectedNode _ _ => "UnexpectedNode"
  | .malformedNode _ => "MalformedNode"
  | .graph _ => "GraphError"
  | .form _ => "SsaError"
  | .unknownModule _ => "UnknownModule"
  | .unknownMethod _ => "UnknownMethod"
  | .recursionLimit _ => "RecursionLimit"
  | .iterationLimit _ => "IterationLimit"

def Error.message : Error → String
  | .unexpectedNode kind position =>
    "Unexpected node kind " ++ kind.name ++ " while lowering " ++ position.name
  | .malformedNode fault => "Malformed node: " ++ fault.message
  | .graph fault => fault.message
  | .form fault => "SSA construction failed - " ++ fault.message
  | .unknownModule path => "Unknown class or module - " ++ path
  | .unknownMethod id => "Unknown method - MethodId(" ++ toString id ++ ")"
  | .recursionLimit limit => "Reached the maximum nesting depth allowed - " ++ toString limit
  | .iterationLimit limit => "Propagation exceeded " ++ toString limit ++ " worklist steps"

end ScriptFlow
