/-! Double-precision numbers, kept as bit patterns: two of them are equal exactly when every bit
agrees, so a not-a-number equals itself and the two zeros differ. -/

namespace ScriptFlow

/-- A double-precision number by its bits. -/
structure Double where
  bits : UInt64
deriving DecidableEq, Inhabited

namespace Double

variable (a b : Double) (x : Double)

def signBit : UInt64 := 0x8000000000000000

/-- The fraction takes the lowest 52 bits. -/
def fractionSize : Nat := 1 <<< 52

def exponentField : Nat := x.bits.toNat / fractionSize % 2048

def fractionField : Nat := x.bits.toNat % fractionSize

def isNegative : Bool := x.bits &&& signBit != 0

def isFinite : Bool := x.exponentField != 2047

def isNaN : Bool := x.exponentField == 2047 && x.fractionField != 0

/-- The highest bit of the fraction. A not-a-number without it signals. -/
def quietBit : UInt64 := 0x0008000000000000

def isSignaling : Bool := x.isNaN && x.bits &&& quietBit == 0

def zero : Double := ⟨0⟩

def one : Double := ⟨0x3ff0000000000000⟩

/-- What an operation without a defined result yields. -/
def invalid : Double := ⟨0xfff8000000000000⟩

def quiet : Double := ⟨x.bits ||| quietBit⟩

def toFloat : Float := Float.ofBits x.bits

def ofFloat (r : Float) : Double := if r.isNaN then invalid else ⟨r.toBits⟩

/-- A not-a-number operand is passed on, the first one if there are two. -/
def lift (op : Float → Float → Float) (a b : Double) : Double :=
  if a.isNaN then a.quiet
  else if b.isNaN then b.quiet
  else ofFloat (op a.toFloat b.toFloat)

def add : Double := lift (· + ·) a b

def sub : Double := lift (· - ·) a b

def mul : Double := lift (· * ·) a b

def div : Double := lift (· / ·) a b

def floor (a : Double) : Double := if a.isNaN then a.quiet else ofFloat a.toFloat.floor

def neg (a : Double) : Double := ⟨a.bits ^^^ signBit⟩

def abs (a : Double) : Double := ⟨a.bits &&& ~~~signBit⟩

/-- The numerical order; a not-a-number is comparable with nothing. -/
def compare? : Option Ordering :=
  if a.toFloat < b.toFloat then some .lt
  else if b.toFloat < a.toFloat then some .gt
  else if a.toFloat == b.toFloat then some .eq
  else none

def numEq : Bool := a.compare? b == some .eq

def numLt : Bool := a.compare? b == some .lt

def numLe : Bool := a.numLt b || a.numEq b

/-- Powers of one and zeroth powers are one whatever the other operand is, unless that one
signals. -/
def pow (a b : Double) : Double :=
  if (a == one || b.numEq zero) && !a.isSignaling && !b.isSignaling then one
  else lift Float.pow a b

/-- The remainder that takes the sign of the divisor. -/
def mod : Double := a.sub (b.mul (a.div b).floor)

def ofInt (n : Int64) : Double := ⟨n.toFloat.toBits⟩

/-- The whole part, for numbers within the range of 64-bit integers. -/
def truncate? (a : Double) : Option Int64 :=
  if a.isFinite && a.abs.numLt ⟨0x43e0000000000000⟩ then some a.toFloat.toInt64 else none

end Double

end ScriptFlow
