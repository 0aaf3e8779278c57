/-! The core methods whose result can be worked out on known operands. -/

namespace ScriptFlow

inductive Primitive where
  | equal | notEqual | negation | isNil
  | isA | instanceOf | caseEqual | classOf | itself
  | toText | inspect | respondTo
  | moduleName | constGet | constDefined | ancestors | moduleLess | superclass
  | add | sub | mul | div | mod | pow
  | less | lessEq | greater | greaterEq | numEqual | order
  | minus | abs | succ | isZero | toInt | toFloat
  | concat | repeatText | size | toSym | upcase | downcase | reverse | isEmpty | index
  | emptyArray | both | either
  | first | last | includesItem | concatArray | repeatArray | joinText
  | lookup | keys | values | hasKey
  | rangeFirst | rangeLast | inRange | rangeItems
  | isLambda
deriving DecidableEq, Inhabited

end ScriptFlow
