/-! Drawings of graphs in the Graphviz language. -/

namespace ScriptFlow.Dot

/-- Label characters with a meaning of their own are protected, and carriage returns dropped. -/
def escapeChar (c : Char) : List Char :=
  if c = '\\' then ['\\', '\\']
  else if c = '"' then ['\\', '"']
  else if c = '\n' then ['\\', 'n']
  else if c = '\r' then []
  else if "<>\x7b\x7d|".toList.contains c then ['\\', c]
  else [c]

def escape (s : String) : String := String.ofList (s.toList.flatMap escapeChar)

inductive Item where
  /-- A box with a header and left-aligned lines. -/
  | node (id : Nat) (header : String) (lines : List String) (fill : Option String)
  | edge (source target : Nat) (color style : String)
  | separator
deriving DecidableEq

structure Drawing where
  name : String
  title : Option String
  items : List Item
deriving DecidableEq

def Item.render : Item → String
  | .node id header lines fill =>
    let label := String.join ((header :: lines).map fun line => escape line ++ "\\l")
    let style := (fill.map fun color => ", style=filled, fillcolor=" ++ color).getD ""
    "    n" ++ toString id ++ " [label=\"" ++ label ++ "\"" ++ style ++ "];\n"
  | .edge source target color style =>
    "    n" ++ toString source ++ " -> n" ++ toString target ++
      " [color=" ++ color ++ ", style=" ++ style ++ "];\n"
  | .separator => "\n"

def Drawing.render (d : Drawing) : String :=
  let title :=
    match d.title with
    | some t => "    label=\"" ++ escape t ++ "\";\n    labelloc=t;\n"
    | none => ""
  "digraph " ++ d.name ++ " \x7b\n" ++ title ++
    "    node [shape=box, fontname=\"Courier\", fontsize=10];\n\n" ++
    String.join (d.items.map Item.render) ++ "\x7d\n"

end ScriptFlow.Dot
