import ScriptFlow.Cell
import ScriptFlow.Core.Numeric
import ScriptFlow.Dispatch.Resolution

/-! Calls whose result follows from what is known of the operands although some of them have no
known value: multiplication by zero, powers, `===` on a class, arrays of known length. Only calls
that reach nothing but core methods are decided here. -/

namespace ScriptFlow

/-- An operand: what is known of its value, and its type. -/
structure Component where
  cell : Cell
  ty : Ty
deriving DecidableEq, Inhabited

namespace Component

def known (c : ClassTable) (v : Value) : Component := ⟨.known v, c.typeOf v⟩

def varying (t : Ty) : Component := ⟨.varying, t⟩

def int? (x : Component) : Option Int64 := x.cell.value?.bind (·.asInt?)

def module? (x : Component) : Option ModuleId := x.cell.value?.bind (·.asModule?)

def isExactly (c : ClassTable) (x : Component) (cls : ModuleId) : Bool :=
  !x.ty.isEmpty && c.isSubtype x.ty (.exact cls)

end Component

namespace Special

open Component

variable (c : ClassTable) (x y : Component)

def zeroOf (x : Component) : Option Value :=
  if x.isExactly c CoreClass.integer then some (.int 0)
  else if x.isExactly c CoreClass.float then some (.float .zero)
  else if x.isExactly c CoreClass.string then some (.str "")
  else if x.ty.asTuple?.isSome || x.isExactly c CoreClass.array then some (.array [])
  else none

def timesZero : Option Component :=
  if y.int? = some 0 then (zeroOf c x).map (known c)
  else if x.int? = some 0 && y.isExactly c CoreClass.integer then some (known c (.int 0))
  else none

def power : Option Component :=
  if x.isExactly c CoreClass.integer then
    if y.int? = some 0 then some (known c (.int 1))
    else if y.int? = some 1 then some x
    else none
  else none

def caseEqual : Option Component :=
  match x.module? with
  | none => none
  | some m =>
    if y.ty.isEmpty || y.ty.isTop then none
    else if c.isSubtype y.ty (.orBelow m) then some (known c (.bool true))
    else if !c.overlaps y.ty (.orBelow m) then some (known c (.bool false))
    else none

/-- An array of known length, and known as a whole when all its items are. -/
def tupleOf (items : List Component) : Component :=
  let t := Ty.tuple (items.map (·.ty))
  match items.mapM fun x => x.cell.value? with
  | some vs => ⟨.known (.array vs), t⟩
  | none => .varying t

def tupleSize (x : Component) : Option Component := do
  let slots ← x.ty.asTuple?
  let count ← Core.int64? slots.length
  return ⟨.known (.int count), .exact CoreClass.integer⟩

/-- The slots of each alternative of a type made of tuples only. -/
def shapes (t : Ty) : Option (List (List Ty)) :=
  if t.isEmpty then none
  else t.members.mapM fun m =>
    match m with
    | .tuple slots => some slots
    | .cls _ _ => none

/-- More combinations of tuples than this are not told apart. -/
def maxShapes : Nat := 8

def concat : Option Component :=
  match shapes x.ty, shapes y.ty with
  | some ls, some rs =>
    if maxShapes < ls.length * rs.length then none
    else
      let t := Ty.joinAll (ls.flatMap fun l => rs.map fun r => Ty.tuple (l ++ r))
      match x.cell, y.cell with
      | .known (.array as), .known (.array bs) => some ⟨.known (.array (as ++ bs)), t⟩
      | _, _ => some (.varying t)
  | _, _ => none

def respondsTo : Option Component :=
  match y.cell.value?.bind (·.asName?) with
  | none => none
  | some name =>
    if x.ty.isTop || x.ty.isEmpty then none
    else
      let answers := (c.possibleClasses x.ty).map fun k =>
        (c.instanceMethod? k name).isSome && c.visibilityOf k name == .anyone
      if answers.all id then some (known c (.bool true))
      else if answers.all (!·) then some (known c (.bool false))
      else none

end Special

open Special in
/-- The result of a call that its operands decide before any method is asked. -/
def foldSpecial (c : ClassTable) (res : Resolution) (name : String) (receiver : Component)
    (args : List Component) : Option Component :=
  if !res.allMethods fun m => (c.method m).builtin then none
  else
    match name, args with
    | "*", [arg] => timesZero c receiver arg
    | "**", [arg] => power c receiver arg
    | "===", [arg] => caseEqual c receiver arg
    | "[]", args =>
      if receiver.module? = some CoreClass.array then some (tupleOf args) else none
    | "new", [] =>
      if receiver.module? = some CoreClass.array then some ⟨.known (.array []), .tuple []⟩ else none
    | "size", [] | "length", [] => tupleSize receiver
    | "+", [arg] => concat receiver arg
    | "respond_to?", [arg] => respondsTo c receiver arg
    | _, _ => none

end ScriptFlow
