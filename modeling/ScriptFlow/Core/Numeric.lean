import ScriptFlow.Core.Fault

/-! Arithmetic and comparison of known numbers. Integers have 64 bits; a result that does not fit is
refused, never wrapped. Mixed operands are computed as doubles. -/

namespace ScriptFlow.Core

variable (receiver : Value) (args : List Value)

/-- The integer as a 64-bit number, if it fits. -/
def int64? (n : Int) : Option Int64 :=
  if Int64.minValue.toInt ≤ n ∧ n ≤ Int64.maxValue.toInt then some (Int64.ofInt n) else none

def fitted (n : Int) : Folded Value :=
  match int64? n with
  | some m => .ok (.int m)
  | none => Folded.overflow

/-- A number as an operand. -/
inductive Number where
  | int (n : Int64)
  | float (x : Double)

def Number.toDouble : Number → Double
  | .int n => .ofInt n
  | .float x => x

def number? : Value → Option Number
  | .int n => some (.int n)
  | .float x => some (.float x)
  | _ => none

def operands : Folded (Number × Number) := do
  let a ← Folded.orRefuse (number? receiver) "non-numeric receiver"
  let other ← firstArg args
  let b ← Folded.orRaise (number? other) "TypeError"
    (className other ++ " can't be coerced into " ++ className receiver)
  return (a, b)

def arith (exact : Int → Int → Int) (inexact : Double → Double → Double)
    (receiver : Value) (args : List Value) : Folded Value := do
  match ← operands receiver args with
  | (.int a, .int b) => fitted (exact a.toInt b.toInt)
  | (a, b) => return .float (inexact a.toDouble b.toDouble)

def dividedByZero {α : Type} : Folded α := Folded.raise "ZeroDivisionError" "divided by 0"

/-- The quotient rounded down: one less than the truncated one where the signs differ and something
is left over. -/
def flooredQuotient (a b : Int64) : Int64 :=
  if a % b ≠ 0 ∧ ¬(a < 0 ↔ b < 0) then a / b - 1 else a / b

/-- The remainder with the sign of the divisor. -/
def flooredRemainder (a b : Int64) : Int64 :=
  if a % b ≠ 0 ∧ ¬(a % b < 0 ↔ b < 0) then a % b + b else a % b

/-- Division that rounds down. The one quotient that does not fit is refused, and the remainder with
it. -/
def divided (part : Int64 → Int64 → Int64) (a b : Int64) : Folded Value :=
  if b = 0 then dividedByZero
  else if a = Int64.minValue ∧ b = -1 then Folded.overflow
  else .ok (.int (part a b))

def divide : Folded Value := do
  match ← operands receiver args with
  | (.int a, .int b) => divided flooredQuotient a b
  | (a, b) => return .float (a.toDouble.div b.toDouble)

def modulo : Folded Value := do
  match ← operands receiver args with
  | (.int a, .int b) => divided flooredRemainder a b
  | (a, b) => return .float (a.toDouble.mod b.toDouble)

/-- From the 64th power on, only zero and the units stay within 64 bits. -/
def powered (a : Int) (n : Nat) : Folded Value :=
  if n < 64 then fitted (Int.pow a n)
  else if a = 0 ∨ a = 1 then fitted a
  else if a = -1 then fitted (if n % 2 = 0 then 1 else -1)
  else Folded.overflow

def power : Folded Value := do
  match ← operands receiver args with
  | (.int a, .int b) =>
    if b.toInt < 0 then Folded.refuse "negative integer exponent produces a rational"
    else if UInt32.size ≤ b.toInt then Folded.overflow
    else powered a.toInt b.toInt.toNat
  | (a, b) => return .float (a.toDouble.pow b.toDouble)

def orderInt (a b : Int64) : Ordering :=
  if a.toInt < b.toInt then .lt else if b.toInt < a.toInt then .gt else .eq

def Number.order? : Number → Number → Option Ordering
  | .int a, .int b => some (orderInt a b)
  | a, b => a.toDouble.compare? b.toDouble

def ordering : Folded Ordering := do
  let other ← firstArg args
  let both := (number? receiver).bind fun a => (number? other).bind a.order?
  Folded.orRaise both "ArgumentError"
    ("comparison of " ++ className receiver ++ " with " ++ className other ++ " failed")

def compared (test : Ordering → Bool) (receiver : Value) (args : List Value) : Folded Value := do
  return .bool (test (← ordering receiver args))

def orderText (a b : String) : Ordering := if a < b then .lt else if b < a then .gt else .eq

def orderingValue : Ordering → Value
  | .lt => .int (-1)
  | .eq => .int 0
  | .gt => .int 1

/-- Numbers and strings have an order; other operands give `nil`. -/
def compareValues : Folded Value := do
  let other ← firstArg args
  let result :=
    match receiver, other with
    | .str a, .str b => some (orderText a b)
    | _, _ => (number? receiver).bind fun a => (number? other).bind a.order?
  return (result.map orderingValue).getD .nil

def numEqual : Folded Value := do
  let other ← firstArg args
  let result := (number? receiver).bind fun a => (number? other).bind a.order?
  return .bool (result == some .eq)

def negated : Folded Value :=
  match number? receiver with
  | some (.int n) => fitted (-n.toInt)
  | some (.float x) => .ok (.float x.neg)
  | none => Folded.refuse "negate"

def absolute : Folded Value :=
  match number? receiver with
  | some (.int n) => fitted n.toInt.natAbs
  | some (.float x) => .ok (.float x.abs)
  | none => Folded.refuse "abs"

def successor : Folded Value :=
  match receiver with
  | .int n => fitted (n.toInt + 1)
  | _ => Folded.overflow

def isZero : Bool :=
  (number? receiver).any fun n => n.toDouble.numEq .zero

def toInteger : Folded Value :=
  match receiver with
  | .nil => .ok (.int 0)
  | .int n => .ok (.int n)
  | .float x =>
    match x.truncate? with
    | some n => .ok (.int n)
    | none => Folded.raise "FloatDomainError" "not finite"
  | _ => Folded.refuse "to_i"

def toFloat : Folded Value := do
  return .float (← Folded.orRefuse (number? receiver) "to_f").toDouble

end ScriptFlow.Core
