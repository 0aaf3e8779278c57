/-! Paths of nested modules: names joined by `::`. -/

namespace ScriptFlow.Text

/-- The pieces between the separators, found from left to right; `piece` holds what was read of the
current one, latest character first. -/
def segmentsFrom (piece : List Char) : List Char → List (List Char)
  | ':' :: ':' :: rest => piece.reverse :: segmentsFrom [] rest
  | c :: rest => segmentsFrom (c :: piece) rest
  | [] => [piece.reverse]

def segments (path : String) : List String := (segmentsFrom [] path.toList).map String.ofList

/-- Goes through a reversed path up to its first separator; `name` holds what was passed. -/
def splitLastFrom (name : List Char) : List Char → Option (List Char × List Char)
  | ':' :: ':' :: rest => some (rest.reverse, name)
  | c :: rest => splitLastFrom (c :: name) rest
  | [] => none

/-- What stands before and after the last separator. -/
def splitLast? (path : String) : Option (String × String) :=
  (splitLastFrom [] path.toList.reverse).map fun p => (String.ofList p.1, String.ofList p.2)

end ScriptFlow.Text
