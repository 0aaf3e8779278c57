import ScriptFlow.Text.Combining
import ScriptFlow.Text.Visible

/-! Quoted text: a string between double quotes, with everything that would not show as itself
escaped. -/

namespace ScriptFlow.Text

def hexDigits (n : Nat) : String := String.ofList (Nat.toDigits 16 n)

/-- Quotes, backslashes and the common controls have short escapes; combining and invisible
characters are written by code point. -/
def quoteChar (c : Char) : String :=
  if c = '\x00' then "\\0"
  else if c = '\t' then "\\t"
  else if c = '\r' then "\\r"
  else if c = '\n' then "\\n"
  else if c = '"' then "\\\""
  else if c = '\\' then "\\\\"
  else if isCombining c || !isVisible c then "\\u\x7b" ++ hexDigits c.toNat ++ "\x7d"
  else c.toString

def quote (s : String) : String :=
  "\"" ++ String.join (s.toList.map quoteChar) ++ "\""

end ScriptFlow.Text
