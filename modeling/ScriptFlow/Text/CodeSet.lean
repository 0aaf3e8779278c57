/-! Sets of characters given by the lengths of their stretches of code points. -/

namespace ScriptFlow.Text

/-- By turns, from zero up: how many code points are left out, and how many belong. -/
structure CodeSet where
  stretches : List Nat

/-- Whether the `n`th code point from here belongs, where the next stretch does if `inside`. -/
def belongsAt (inside : Bool) : List Nat → Nat → Bool
  | [], _ => false
  | length :: rest, n => if n < length then inside else belongsAt (!inside) rest (n - length)

def CodeSet.contains (s : CodeSet) (c : Char) : Bool := belongsAt false s.stretches c.toNat

end ScriptFlow.Text
