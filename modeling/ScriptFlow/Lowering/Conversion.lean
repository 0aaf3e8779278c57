import ScriptFlow.Lowering.Basic

/-! Implicit conversions, and arrays built from elements and splats. -/

namespace ScriptFlow.Lowering

/-- The value itself when it is an instance of the class, what the method makes of it when it has
the method, and nil otherwise. -/
def convert (value : Operand) (cls : ModuleId) (method : String) : Lower Operand := do
  let result ← newTemp
  let isInstance ← plainCall (moduleConst cls) "===" [value]
  let already ← newBlock
  let check ← newBlock
  let convertible ← newBlock
  let missing ← newBlock
  let join ← newBlock
  branch isInstance already check
  startBlock already
  copy result value
  emit (.declare (.alias (.binding result) value))
  jump join
  startBlock check
  let responds ← newParam (.responds value method) .method
  branch (.binding responds) convertible missing
  startBlock convertible
  let converted ← raisingCall value method [] true true
  copy result converted
  jump join
  startBlock missing
  copy result .nil
  jump join
  startBlock join
  return .binding result

def arrayOf (items : List Operand) : Lower Operand :=
  plainCall (moduleConst CoreClass.array) "[]" items

/-- Conversion to an array; a value that has none becomes the only item. -/
def toArray (value : Operand) (method : String) : Lower Operand := do
  let converted ← convert value CoreClass.array method
  let result ← newTemp
  let done ← newBlock
  let wrap ← newBlock
  let join ← newBlock
  branch converted done wrap
  startBlock done
  copy result converted
  jump join
  startBlock wrap
  let wrapped ← arrayOf [value]
  copy result wrapped
  jump join
  startBlock join
  return .binding result

def splatValue (value : Operand) : Lower Operand := toArray value "to_a"

/-- The arrays that have to be joined: one for each splat and for each run of plain elements. -/
def arrayParts (walk : Walk) : List Operand → List Operand → List Tree → Lower (List Operand)
  | parts, run, [] => do
    if run.isEmpty && !parts.isEmpty then return parts
    else return parts ++ [← arrayOf run]
  | parts, run, t :: ts => do
    if t.kind = .splat then
      let parts ← if run.isEmpty then pure parts else (parts ++ [·]) <$> arrayOf run
      let value ← walk (← t.child 0) true
      let array ← splatValue value
      arrayParts walk (parts ++ [array]) [] ts
    else
      let value ← walk t true
      arrayParts walk parts (run ++ [value]) ts

/-- One array from elements some of which are splats. -/
def splatArray (walk : Walk) (elements : List Tree) : Lower Operand := do
  match ← arrayParts walk [] [] elements with
  | [] => return .const (.array [])
  | first :: more => more.foldlM (fun joined part => plainCall joined "+" [part]) first

def isSplat (t : Tree) : Bool := t.kind == .splat

def walkAll (walk : Walk) (ts : List Tree) : Lower (List Operand) := ts.mapM (walk · true)

end ScriptFlow.Lowering
