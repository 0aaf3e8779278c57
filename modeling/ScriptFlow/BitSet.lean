/-! Sets of small numbers packed into 64-bit words. -/

namespace ScriptFlow

/-- Room for the numbers below `capacity`; bit `i` of `mask` says whether `i` is in the set. -/
structure BitSet where
  capacity : Nat
  mask : Nat
deriving DecidableEq, Inhabited

namespace BitSet

variable (s : BitSet)

def empty (capacity : Nat) : BitSet := ⟨capacity, 0⟩

/-- Bits of storage: the capacity rounded up to whole words. -/
def width : Nat := (s.capacity + 63) / 64 * 64

def contains (i : Nat) : Bool := decide (i < s.capacity) && s.mask.testBit i

/-- Adds a number that fits, and says whether it is new. -/
def insert? (i : Nat) : Option (Bool × BitSet) :=
  if i < s.capacity then some (!s.mask.testBit i, { s with mask := s.mask ||| 1 <<< i }) else none

def add (i : Nat) : BitSet := (s.insert? i).elim s (·.2)

def erase (i : Nat) : BitSet :=
  if s.contains i then { s with mask := s.mask ^^^ 1 <<< i } else s

/-- The stored numbers, ascending. -/
def toList : List Nat := (List.range s.width).filter s.mask.testBit

def size : Nat := s.toList.length

def isEmpty : Bool := s.mask == 0

/-- Word by word, over the words that `s` has. -/
def union (s t : BitSet) : BitSet := { s with mask := s.mask ||| t.mask % (1 <<< s.width) }

def inter (s t : BitSet) : BitSet := { s with mask := s.mask &&& t.mask }

/-- The union, and whether it differs from `s`. -/
def unionWith (s t : BitSet) : Bool × BitSet := (s.union t != s, s.union t)

def interWith (s t : BitSet) : Bool × BitSet := (s.inter t != s, s.inter t)

/-- Without the numbers of `t`, one after another. -/
def diff (s t : BitSet) : BitSet := t.toList.foldl erase s

def render : String :=
  "\x7b" ++ ", ".intercalate (s.toList.map toString) ++ "\x7d"

end BitSet

end ScriptFlow
