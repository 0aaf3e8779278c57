import ScriptFlow.Core.Modules
import ScriptFlow.Core.Numeric
import ScriptFlow.Text.LetterCase

/-! Methods of strings, arrays, hashes and ranges. -/

namespace ScriptFlow.Core

variable (receiver : Value) (args : List Value)

def textReceiver : Folded String :=
  Folded.orRefuse receiver.asName? "string receiver expected"

def noConversion {α : Type} (v : Value) (target : String) : Folded α :=
  Folded.raise "TypeError" ("no implicit conversion of " ++ className v ++ " into " ++ target)

def concatText : Folded Value := do
  let a ← textReceiver receiver
  match ← firstArg args with
  | .str b => return .str (a ++ b)
  | other => noConversion other "String"

def repeatCount : Folded Nat := do
  let n ← Folded.orRaise (← firstArg args).asInt? "TypeError" "no implicit conversion into Integer"
  if n.toInt < 0 then Folded.raise "ArgumentError" "negative argument" else return n.toInt.toNat

/-- Copies of a list, one after the other. -/
def copies {α : Type} (items : List α) (count : Nat) : List α :=
  if items.isEmpty then [] else (List.replicate count items).flatten

/-- Longer texts are not worked out. -/
def maxBytes : Nat := 1048576

/-- Longer arrays are not worked out. -/
def maxItems : Nat := 65536

def repeatText : Folded Value := do
  let s ← textReceiver receiver
  let count ← repeatCount args
  if maxBytes < s.utf8ByteSize * count then Folded.refuse "string too large"
  else return .str (String.ofList (copies s.toList count))

def size (receiver : Value) : Folded Value :=
  match receiver with
  | .str s | .sym s => fitted s.length
  | .array items => fitted items.length
  | .hash pairs => fitted pairs.length
  | _ => Folded.refuse "size"

def mapText (f : String → Value) (receiver : Value) : Folded Value := do
  return f (← textReceiver receiver)

def reversed : Folded Value :=
  match receiver with
  | .str s => .ok (.str (String.ofList s.toList.reverse))
  | .array items => .ok (.array items.reverse)
  | _ => Folded.refuse "reverse"

def isEmpty (receiver : Value) : Folded Value :=
  match receiver with
  | .str s => .ok (.bool s.isEmpty)
  | .array items => .ok (.bool items.isEmpty)
  | .hash pairs => .ok (.bool pairs.isEmpty)
  | _ => Folded.refuse "empty?"

/-- The item at a place counted from the front, or from the back when it is negative. -/
def itemAt? {α : Type} (items : List α) (place : Int) : Option α :=
  let i := if place < 0 then place + items.length else place
  if i < 0 then none else items[i.toNat]?

def index (receiver : Value) (args : List Value) : Folded Value := do
  let n ← Folded.orRefuse (← firstArg args).asInt? "non-integer index"
  if 1 < args.length then Folded.refuse "slice"
  else
    match receiver with
    | .array items => return (itemAt? items n.toInt).getD .nil
    | .str s => return ((itemAt? s.toList n.toInt).map fun ch => .str ch.toString).getD .nil
    | _ => Folded.refuse "[]"

def arrayReceiver : Folded (List Value) :=
  match receiver with
  | .array items => .ok items
  | _ => Folded.refuse "array receiver expected"

def first : Folded Value := do return (← arrayReceiver receiver).head?.getD .nil

def last : Folded Value := do return (← arrayReceiver receiver).getLast?.getD .nil

def includesItem : Folded Value := do
  let item ← firstArg args
  return .bool ((← arrayReceiver receiver).contains item)

def concatArray : Folded Value := do
  let as ← arrayReceiver receiver
  match ← firstArg args with
  | .array bs => return .array (as ++ bs)
  | other => noConversion other "Array"

def repeatArray : Folded Value := do
  let items ← arrayReceiver receiver
  let count ← repeatCount args
  if maxItems < items.length * count then Folded.refuse "array too large"
  else return .array (copies items count)

def joinText (c : ClassTable) (receiver : Value) (args : List Value) : Folded Value := do
  let items ← arrayReceiver receiver
  let separator ←
    match args.head? with
    | none | some .nil => pure ""
    | some (.str s) => pure s
    | some _ => Folded.raise "TypeError" "no implicit conversion into String"
  if items.any hasIdentity then Folded.refuse "object identity"
  else return .str (separator.intercalate (items.map (toText c)))

def hashReceiver : Folded (List (Value × Value)) :=
  match receiver with
  | .hash pairs => .ok pairs
  | _ => Folded.refuse "hash receiver expected"

/-- The latest pair with the key decides. -/
def lookup (receiver : Value) (args : List Value) : Folded Value := do
  let key ← firstArg args
  return ((← hashReceiver receiver).reverse.lookup key).getD .nil

def keys : Folded Value := do
  return .array ((← hashReceiver receiver).map (·.1))

def values : Folded Value := do
  return .array ((← hashReceiver receiver).map (·.2))

def hasKey : Folded Value := do
  let key ← firstArg args
  return .bool ((← hashReceiver receiver).any fun p => p.1 == key)

def rangeReceiver : Folded (Value × Value × Bool) :=
  match receiver with
  | .range a b exclusive => .ok (a, b, exclusive)
  | _ => Folded.refuse "range receiver expected"

def inRange : Folded Value := do
  let (a, b, exclusive) ← rangeReceiver receiver
  let v ← firstArg args
  match number? a, number? b, number? v with
  | some a, some b, some x =>
    let x := x.toDouble
    let upper := if exclusive then x.numLt b.toDouble else x.numLe b.toDouble
    return .bool (a.toDouble.numLe x && upper)
  | _, _, _ => Folded.refuse "non-numeric range"

/-- The integers from `start` on, `count` of them. -/
def integersFrom (start : Int) (count : Nat) : List Value :=
  (List.range count).map fun (i : Nat) => .int (Int64.ofInt (start + i))

/-- The last integer of a range, taken without a check from one that leaves its end out. -/
def lastItem (stop : Int64) (exclusive : Bool) : Folded Int64 :=
  if !exclusive then .ok stop
  else if stop = Int64.minValue then Folded.abort "attempt to subtract with overflow"
  else .ok (stop - 1)

def rangeItems : Folded Value := do
  let (a, b, exclusive) ← rangeReceiver receiver
  match a.asInt?, b.asInt? with
  | some start, some stop =>
    let final ← lastItem stop exclusive
    let span := final.toInt - start.toInt
    if maxItems < span then Folded.refuse "range too large"
    else return .array (integersFrom start.toInt (span + 1).toNat)
  | _, _ => Folded.raise "TypeError" "can't iterate from non-integer"

end ScriptFlow.Core
