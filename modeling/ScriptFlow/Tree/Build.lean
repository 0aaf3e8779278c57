import ScriptFlow.Tree

/-! Constructors for trees, one for each construct of the language. -/

namespace ScriptFlow.Tree

def int (n : Int64) : Tree := lit (.int n)

def float (x : Double) : Tree := lit (.float x)

def str (s : String) : Tree := lit (.str s)

def sym (s : String) : Tree := lit (.sym s)

def nil : Tree := plain .nilLit []

def bool (b : Bool) : Tree := plain (if b then .trueLit else .falseLit) []

def selfRef : Tree := plain .selfRef []

def stringBuild (parts : List Tree) : Tree := plain .stringBuild parts

def array (elements : List Tree) : Tree := plain .arrayLit elements

def hash (pairs : List (Tree × Tree)) : Tree :=
  plain .hashLit (pairs.map fun p => plain .pair [p.1, p.2])

def range (first last : Tree) (exclusive : Bool) : Tree :=
  plain (if exclusive then .dot3 else .dot2) [first, last]

def localVar (name : String) : Tree := named .localVar name []

def instanceVar (name : String) : Tree := named .instanceVar name []

def globalVar (name : String) : Tree := named .globalVar name []

def const (name : String) : Tree := named .const name []

def topConst (name : String) : Tree := named .topConst name []

def scopedConst (scope : Tree) (name : String) : Tree := named .scopedConst name [scope]

def args (ts : List Tree) : Tree := plain .args ts

def index (receiver : Tree) (arguments : List Tree) : Tree :=
  plain .index [receiver, args arguments]

def field (receiver : Tree) (name : String) : Tree := named .field name [receiver]

def assign (target value : Tree) : Tree := plain .assign [target, value]

def opAssign (target : Tree) (op : String) (value : Tree) : Tree :=
  named .opAssign op [target, value]

def targetList (targets : List Tree) : Tree := plain .targetList targets

def valueList (values : List Tree) : Tree := plain .valueList values

def multipleAssign (targets : List Tree) (value : Tree) : Tree :=
  plain .multipleAssign [targetList targets, value]

def splat (t : Tree) : Tree := plain .splat [t]

def anonymousSplat : Tree := plain .splat []

def blockLit (formals : List Formal) (body : Tree) : Tree := withBlock .blockLit none formals body

def lambda (formals : List Formal) (body : Tree) : Tree := withBlock .lambda none formals body

def blockPass (t : Tree) : Tree := plain .blockPass [t]

def call (receiver : Tree) (name : String) (arguments : List Tree) : Tree :=
  named .call name [receiver, args arguments]

def selfCall (name : String) (arguments : List Tree) : Tree := call empty name arguments

def callWithBlock (receiver : Tree) (name : String) (arguments : List Tree)
    (formals : List Formal) (body : Tree) : Tree :=
  named .call name [receiver, args arguments, blockLit formals body]

def callWithBlockPass (receiver : Tree) (name : String) (arguments : List Tree)
    (block : Tree) : Tree :=
  named .call name [receiver, args arguments, blockPass block]

def superCall (arguments : List Tree) : Tree := plain .super [args arguments]

def bareSuper : Tree := plain .bareSuper []

def yield (arguments : List Tree) : Tree := plain .yield [args arguments]

def returnWith (value : Option Tree) : Tree := plain .returnWith value.toList

def breakWith (value : Option Tree) : Tree := plain .breakWith value.toList

def nextWith (value : Option Tree) : Tree := plain .nextWith value.toList

def redo : Tree := plain .redo []

def ifElse (condition yes no : Tree) : Tree := plain .ifElse [condition, yes, no]

def unlessElse (condition no yes : Tree) : Tree := plain .unlessElse [condition, no, yes]

def whileLoop (condition body : Tree) : Tree := plain .whileLoop [condition, body]

def untilLoop (condition body : Tree) : Tree := plain .untilLoop [condition, body]

def caseOf (subject : Option Tree) (clauses : List Tree) (otherwise : Option Tree) : Tree :=
  plain .caseOf (subject.getD empty :: clauses ++ otherwise.toList)

def whenClause (patterns : List Tree) (body : Tree) : Tree :=
  plain .whenClause [args patterns, body]

def conj (a b : Tree) : Tree := plain .conj [a, b]

def disj (a b : Tree) : Tree := plain .disj [a, b]

def negate (t : Tree) : Tree := plain .negate [t]

def isDefined (t : Tree) : Tree := plain .isDefined [t]

def sequence (statements : List Tree) : Tree := plain .sequence statements

def bodyStmt (body : Tree) (rescues : List Tree) (otherwise ensured : Option Tree) : Tree :=
  plain .bodyStmt
    (body :: rescues ++ otherwise.toList ++ (ensured.map fun t => plain .ensure [t]).toList)

def rescue (classes : List Tree) (target : Option Tree) (body : Tree) : Tree :=
  plain .rescue [args classes, target.getD empty, body]

def rescueMod (t fallback : Tree) : Tree := plain .rescueMod [t, fallback]

def methodDef (name : String) (formals : List Formal) (body : Tree) : Tree :=
  withBlock .methodDef (some name) formals body

end ScriptFlow.Tree
