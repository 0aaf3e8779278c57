import ScriptFlow.Core.Collection

/-! Working out a core method on known operands. -/

namespace ScriptFlow

open ScriptFlow.Core in
/-- The value a core method returns on a known receiver and known arguments. -/
def Primitive.eval (c : ClassTable) (p : Primitive) (receiver : Value) (args : List Value) :
    Folded Value :=
  match p with
  | .equal => do return .bool (receiver == (← firstArg args))
  | .notEqual => do return .bool (receiver != (← firstArg args))
  | .negation => .ok (.bool !receiver.truthy)
  | .isNil => .ok (.bool (receiver == .nil))
  | .isA => Core.isA c receiver args
  | .instanceOf => Core.instanceOf c receiver args
  | .caseEqual => Core.caseEqual c receiver args
  | .classOf => .ok (classValue c receiver)
  | .itself => .ok receiver
  | .toText => textOf (Core.toText c) receiver
  | .inspect => textOf (Core.inspect c) receiver
  | .respondTo => Core.respondTo c receiver args
  | .moduleName => Core.moduleName c receiver
  | .constGet => Core.constGet c receiver args
  | .constDefined => Core.constDefined c receiver args
  | .ancestors => ancestorList c receiver
  | .moduleLess => Core.moduleLess c receiver args
  | .superclass => Core.superclass c receiver
  | .add => arith (· + ·) Double.add receiver args
  | .sub => arith (· - ·) Double.sub receiver args
  | .mul => arith (· * ·) Double.mul receiver args
  | .div => divide receiver args
  | .mod => modulo receiver args
  | .pow => power receiver args
  | .less => compared (·.isLT) receiver args
  | .lessEq => compared (·.isLE) receiver args
  | .greater => compared (·.isGT) receiver args
  | .greaterEq => compared (·.isGE) receiver args
  | .numEqual => Core.numEqual receiver args
  | .order => compareValues receiver args
  | .minus => negated receiver
  | .abs => absolute receiver
  | .succ => successor receiver
  | .isZero => .ok (.bool (Core.isZero receiver))
  | .toInt => toInteger receiver
  | .toFloat => Core.toFloat receiver
  | .concat => concatText receiver args
  | .repeatText => Core.repeatText receiver args
  | .size => Core.size receiver
  | .toSym => mapText .sym receiver
  | .upcase => mapText (fun s => .str (Text.upper s)) receiver
  | .downcase => mapText (fun s => .str (Text.lower s)) receiver
  | .reverse => reversed receiver
  | .isEmpty => Core.isEmpty receiver
  | .index => Core.index receiver args
  | .emptyArray => .ok (.array [])
  | .both => if receiver.truthy then do return .bool (← firstArg args).truthy else .ok (.bool false)
  | .either => if receiver.truthy then .ok (.bool true) else do return .bool (← firstArg args).truthy
  | .first => Core.first receiver
  | .last => Core.last receiver
  | .includesItem => Core.includesItem receiver args
  | .concatArray => Core.concatArray receiver args
  | .repeatArray => Core.repeatArray receiver args
  | .joinText => Core.joinText c receiver args
  | .lookup => Core.lookup receiver args
  | .keys => Core.keys receiver
  | .values => Core.values receiver
  | .hasKey => Core.hasKey receiver args
  | .rangeFirst => do return (← rangeReceiver receiver).1
  | .rangeLast => do return (← rangeReceiver receiver).2.1
  | .inRange => Core.inRange receiver args
  | .rangeItems => Core.rangeItems receiver
  | .isLambda =>
    match receiver with
    | .proc p => .ok (.bool p.lambda)
    | _ => Folded.refuse "lambda?"

/-- What becomes of a call on known operands. -/
inductive Simulation where
  | unavailable
  | value (v : Value)
  | raised (t : Ty)
deriving DecidableEq

/-- Works a call out, if its method can be. An exception class that the table lacks counts as some
`StandardError`. -/
def ClassTable.simulate (c : ClassTable) (id : MethodId) (receiver : Value) (args : List Value) :
    Simulation :=
  match (c.method id).primitive with
  | none => .unavailable
  | some p =>
    match p.eval c receiver args with
    | .ok v => .value v
    | .error (.raised cls _) =>
      .raised (((c.paths.get? cls).map Ty.exact).getD (.orBelow CoreClass.standardError))
    | .error _ => .unavailable

end ScriptFlow
