import ScriptFlow.Text.CaseRuns

/-! Capital and small forms of whole texts. -/

namespace ScriptFlow.Text

/-- The other case of one character; a character without one stands for itself. -/
def recase (runs : Array CaseRun) (long : Array (Nat × List Nat)) (c : Char) : List Char :=
  match long.find? (·.1 == c.toNat) with
  | some (_, codes) => codes.map Char.ofNat
  | none =>
    match runs.find? (·.covers c.toNat) with
    | some r => [Char.ofNat (c.toNat + r.offset).toNat]
    | none => [c]

def upperChar (c : Char) : List Char :=
  if c.toNat < 0x80 then [c.toUpper] else recase upperRuns upperLong c

def lowerChar (c : Char) : List Char :=
  if c.toNat < 0x80 then [c.toLower] else recase lowerRuns lowerLong c

/-- Whether the first character that counts for case has one. -/
def startsCased (s : List Char) : Bool :=
  match s.dropWhile caseIgnorable.contains with
  | c :: _ => cased.contains c
  | [] => false

def capitalSigma : Char := Char.ofNat 0x3a3

/-- A sigma that ends a word: letters stand before it and none after it. -/
def endsWord (before after : List Char) : Bool :=
  startsCased before && !startsCased after

/-- Small forms from left to right; `before` holds the characters already passed, nearest first. -/
def lowerFrom (before : List Char) : List Char → List Char
  | [] => []
  | c :: rest =>
    let form :=
      if c = capitalSigma then
        [Char.ofNat (if endsWord before rest then 0x3c2 else 0x3c3)]
      else lowerChar c
    form ++ lowerFrom (c :: before) rest

def upper (s : String) : String := String.ofList (s.toList.flatMap upperChar)

def lower (s : String) : String := String.ofList (lowerFrom [] s.toList)

end ScriptFlow.Text
