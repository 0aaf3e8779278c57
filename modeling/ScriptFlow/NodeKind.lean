/-! Kinds of tree nodes. -/

namespace ScriptFlow

inductive NodeKind where
  | literal
  | nilLit
  | trueLit
  | falseLit
  | selfRef
  | stringBuild
  | arrayLit
  | hashLit
  | pair
  | dot2
  | dot3
  | localVar
  | instanceVar
  | globalVar
  | const
  | scopedConst
  | topConst
  | index
  | field
  | assign
  | opAssign
  | multipleAssign
  | targetList
  | valueList
  | splat
  | call
  | args
  | blockPass
  | blockLit
  | lambda
  | super
  | bareSuper
  | yield
  | returnWith
  | breakWith
  | nextWith
  | redo
  | ifElse
  | unlessElse
  | whileLoop
  | untilLoop
  | caseOf
  | whenClause
  | conj
  | disj
  | negate
  | isDefined
  | sequence
  | bodyStmt
  | rescue
  | ensure
  | rescueMod
  | methodDef
  | empty
  | classDef
  | moduleDef
  | unknown
deriving DecidableEq, Inhabited

namespace NodeKind

def name : NodeKind → String
  | .literal => "Literal"
  | .nilLit => "Nil"
  | .trueLit => "True"
  | .falseLit => "False"
  | .selfRef => "SelfRef"
  | .stringBuild => "StringBuild"
  | .arrayLit => "ArrayLiteral"
  | .hashLit => "HashLiteral"
  | .pair => "Pair"
  | .dot2 => "Dot2"
  | .dot3 => "Dot3"
  | .localVar => "LocalVar"
  | .instanceVar => "InstanceVar"
  | .globalVar => "GlobalVar"
  | .const => "Const"
  | .scopedConst => "ScopedConst"
  | .topConst => "TopConst"
  | .index => "Index"
  | .field => "Field"
  | .assign => "Assign"
  | .opAssign => "OpAssign"
  | .multipleAssign => "MultipleAssign"
  | .targetList => "Mlhs"
  | .valueList => "Mrhs"
  | .splat => "Splat"
  | .call => "Call"
  | .args => "Args"
  | .blockPass => "BlockPass"
  | .blockLit => "BlockLiteral"
  | .lambda => "Lambda"
  | .super => "Super"
  | .bareSuper => "ZSuper"
  | .yield => "Yield"
  | .returnWith => "Return"
  | .breakWith => "Break"
  | .nextWith => "Next"
  | .redo => "Redo"
  | .ifElse => "If"
  | .unlessElse => "Unless"
  | .whileLoop => "While"
  | .untilLoop => "Until"
  | .caseOf => "Case"
  | .whenClause => "When"
  | .conj => "And"
  | .disj => "Or"
  | .negate => "Not"
  | .isDefined => "Defined"
  | .sequence => "Sequence"
  | .bodyStmt => "BodyStmt"
  | .rescue => "Rescue"
  | .ensure => "Ensure"
  | .rescueMod => "RescueMod"
  | .methodDef => "Def"
  | .empty => "Empty"
  | .classDef => "ClassDef"
  | .moduleDef => "ModuleDef"
  | .unknown => "Unknown"

def all : List NodeKind :=
  [.literal, .nilLit, .trueLit, .falseLit, .selfRef, .stringBuild, .arrayLit, .hashLit, .pair,
    .dot2, .dot3, .localVar, .instanceVar, .globalVar, .const, .scopedConst, .topConst, .index,
    .field, .assign, .opAssign, .multipleAssign, .targetList, .valueList, .splat, .call, .args,
    .blockPass, .blockLit, .lambda, .super, .bareSuper, .yield, .returnWith, .breakWith, .nextWith,
    .redo, .ifElse, .unlessElse, .whileLoop, .untilLoop, .caseOf, .whenClause, .conj, .disj,
    .negate, .isDefined, .sequence, .bodyStmt, .rescue, .ensure, .rescueMod, .methodDef, .empty,
    .classDef, .moduleDef, .unknown]

end NodeKind

end ScriptFlow
