import ScriptFlow.Number.Double

/-! Decimal text of a double: the fewest digits that read back as the same number. -/

namespace ScriptFlow.Double

/-- A finite magnitude as `mantissa * 2 ^ exponent`. -/
def mantissa (x : Double) : Nat :=
  if x.exponentField = 0 then x.fractionField else x.fractionField + fractionSize

def binaryExponent (x : Double) : Int := (max x.exponentField 1 : Nat) - 1075

/-- The positive rationals that round to one double: `lower` to `upper` around `value`, all over
`scale`. The ends belong to it when `closed`. -/
structure Neighbourhood where
  lower : Nat
  value : Nat
  upper : Nat
  scale : Nat
  closed : Bool

def neighbourhood (x : Double) : Neighbourhood :=
  let m := x.mantissa
  let q := x.binaryExponent - 2
  -- below a power of two the doubles lie twice as close
  let gap := if x.fractionField = 0 && x.exponentField > 1 then 1 else 2
  let up := 1 <<< q.toNat
  { lower := (4 * m - gap) * up
    value := 4 * m * up
    upper := (4 * m + 2) * up
    scale := 1 <<< (-q).toNat
    closed := m % 2 = 0 }

/-- Whether `n * unit / den` lies in the neighbourhood. -/
def Neighbourhood.holds (r : Neighbourhood) (n unit den : Nat) : Bool :=
  let p := n * unit * r.scale
  if r.closed then r.lower * den ≤ p && p ≤ r.upper * den
  else r.lower * den < p && p < r.upper * den

/-- The `e` with `10 ^ (e - 1) ≤ value < 10 ^ e`. -/
def Neighbourhood.magnitude (r : Neighbourhood) : Int :=
  if r.scale ≤ r.value then (Nat.toDigits 10 (r.value / r.scale)).length
  else
    match (List.range 400).find? fun k => r.scale ≤ r.value * Nat.pow 10 (k + 1) with
    | some k => -(k : Int)
    | none => 0

/-- The better of the value's two neighbours with `count` digits, if one of them reads back. Of two
that do the nearer is taken, and the larger when they are equally near. -/
def Neighbourhood.rounded? (r : Neighbourhood) (count : Nat) : Option Nat :=
  let e := r.magnitude - count
  let unit := Nat.pow 10 e.toNat
  let den := Nat.pow 10 (-e).toNat
  let whole := unit * r.scale
  let down := r.value * den / whole
  let rest := r.value * den % whole
  let up := if rest = 0 then down else down + 1
  match r.holds down unit den, r.holds up unit den with
  | true, true => some (if whole ≤ 2 * rest then up else down)
  | true, false => some down
  | false, true => some up
  | false, false => none

/-- Digits and exponent of a decimal `0.d₁d₂… * 10 ^ exponent`. -/
structure Decimal where
  digits : List Char
  exponent : Int

def dropLastZeros (ds : List Char) : List Char :=
  (ds.reverse.dropWhile (· == '0')).reverse

def Neighbourhood.shortest (r : Neighbourhood) : Decimal :=
  let counts := (List.range 17).map (· + 1)
  match counts.findSome? fun k => (r.rounded? k).map (k, ·) with
  | some (k, n) =>
    let ds := Nat.toDigits 10 n
    { digits := dropLastZeros ds
      exponent := r.magnitude + (ds.length - k : Int) }
  | none => ⟨[], 0⟩

/-- Positional between `10 ^ -4` and `10 ^ 16`, always with a fraction; in scientific form outside. -/
def Decimal.render (d : Decimal) : String :=
  let e := d.exponent
  let text :=
    if -3 ≤ e && e ≤ 0 then '0' :: '.' :: List.replicate (-e).toNat '0' ++ d.digits
    else if 0 < e && e ≤ 16 then
      if e < d.digits.length then d.digits.take e.toNat ++ '.' :: d.digits.drop e.toNat
      else d.digits ++ List.replicate (e.toNat - d.digits.length) '0' ++ ['.', '0']
    else
      match d.digits with
      | [c] => c :: 'e' :: (toString (e - 1)).toList
      | c :: rest => c :: '.' :: rest ++ 'e' :: (toString (e - 1)).toList
      | [] => []
  String.ofList text

def render (x : Double) : String :=
  if x.isNaN then "NaN"
  else
    let sign := if x.isNegative then "-" else ""
    if !x.isFinite then sign ++ "inf"
    else if x.mantissa = 0 then sign ++ "0.0"
    else sign ++ x.neighbourhood.shortest.render

end ScriptFlow.Double
