import ScriptFlow.Lowering.Basic

/-! Binding the formal arguments of a method or a block to the actual ones. -/

namespace ScriptFlow.Lowering

/-- Formals by their role. Required ones stand before or after the optional ones. -/
structure FormalRoles where
  leading : List String
  optional : List (String × Tree)
  rest : Option String
  trailing : List String
  block : Option String

namespace FormalRoles

def none : FormalRoles := ⟨[], [], Option.none, [], Option.none⟩

def isFixed (r : FormalRoles) : Bool := r.optional.isEmpty && r.rest.isNone

def required (r : FormalRoles) : Nat := r.leading.length + r.trailing.length

def add (r : FormalRoles) : Formal → Except Error FormalRoles
  | .required n =>
    if r.isFixed then .ok { r with leading := r.leading ++ [n] }
    else .ok { r with trailing := r.trailing ++ [n] }
  | .optional n t => .ok { r with optional := r.optional ++ [(n, t)] }
  | .rest n =>
    if r.rest.isNone then .ok { r with rest := some n }
    else .error (.malformedNode (.secondRest n))
  | .block n => .ok { r with block := some n }

def ofFormals (formals : List Formal) : Except Error FormalRoles := formals.foldlM add none

end FormalRoles

def readParam (frame : Frame) (name : String) (p : Param) : Lower Unit := do
  paramInto (← variableBinding name) p frame

/-- Reads the arguments from the given place on. -/
def readArguments (frame : Frame) : Nat → List String → Lower Unit
  | _, [] => pure ()
  | i, n :: ns => do
    readParam frame n (.argument (intConst i))
    readArguments frame (i + 1) ns

/-- Each optional formal takes its argument or its default. Once an argument is missing, so are
those of the later formals: the default of one leads to the default of the next. The last block
with a default is returned. -/
def bindOptionals (walk : Walk) (frame : Frame) (arity : Operand) (required leading : Nat) :
    Nat → Option BlockId → List (String × Tree) → Lower (Option BlockId)
  | _, previous, [] => return previous
  | k, previous, (name, default) :: more => do
    let missing ← plainCall arity "<=" [intConst (required + k)]
    let withDefault ← newBlock
    let withArgument ← newBlock
    branch missing withDefault withArgument
    if let some p := previous then
      startBlock p
      jump withDefault
    startBlock withDefault
    let value ← walk default true
    copy (← variableBinding name) value
    let last ← currentBlock
    startBlock withArgument
    readParam frame name (.argument (intConst (leading + k)))
    bindOptionals walk frame arity required leading (k + 1) (some last) more

/-- Required formals after the optional ones are counted from the end. -/
def bindTrailing (frame : Frame) (arity : Operand) (count : Nat) :
    Nat → List String → Lower Unit
  | _, [] => pure ()
  | i, n :: ns => do
    let position ← plainCall arity "-" [intConst (count - i)]
    readParam frame n (.argument position)
    bindTrailing frame arity count (i + 1) ns

def bindOpen (walk : Walk) (frame : Frame) (r : FormalRoles) : Lower Unit := do
  let arity := Operand.binding (← newParam .arity frame)
  readArguments frame 0 r.leading
  let done ← newBlock
  let lastDefault ←
    bindOptionals walk frame arity r.required r.leading.length 0 none r.optional
  if let some rest := r.rest then
    let count ← plainCall arity "-" [intConst (r.required + r.optional.length)]
    readParam frame rest
      (.argumentRange (intConst (r.leading.length + r.optional.length)) count)
  jump done
  if let some b := lastDefault then
    startBlock b
    if let some rest := r.rest then
      copy (← variableBinding rest) (.const (.array []))
    jump done
  startBlock done
  bindTrailing frame arity r.trailing.length 0 r.trailing

def bindBlock (frame : Frame) (name : String) : Lower Unit := do
  let b ← variableBinding name
  match frame with
  | .method => copy b (valueOf (← read).block)
  | .block _ => paramInto b .block frame

def bindFormals (walk : Walk) (formals : List Formal) (frame : Frame) :
    Lower (List (BindingId × ParamKind)) := do
  let r ← FormalRoles.ofFormals formals
  if r.isFixed then readArguments frame 0 (r.leading ++ r.trailing)
  else bindOpen walk frame r
  if let some name := r.block then bindBlock frame name
  formals.mapM fun f => return (← variableBinding f.name, f.paramKind)

end ScriptFlow.Lowering
