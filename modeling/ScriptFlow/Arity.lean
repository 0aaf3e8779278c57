/-! How many positional arguments a method takes. -/

namespace ScriptFlow

inductive ParamKind where
  | required
  | optional
  | rest
  | block
deriving DecidableEq, Inhabited

namespace ParamKind

def all : List ParamKind := [.required, .optional, .rest, .block]

def name : ParamKind → String
  | .required => "req"
  | .optional => "opt"
  | .rest => "rest"
  | .block => "block"

end ParamKind

/-- The accepted argument counts run from `min` to `max`; without a `max` they have no end. -/
structure Arity where
  min : Nat
  max : Option Nat
deriving DecidableEq, Inhabited

namespace Arity

def empty : Arity := ⟨0, some 0⟩

def any : Arity := ⟨0, none⟩

def exactly (n : Nat) : Arity := ⟨n, some n⟩

/-- The counts accepted once one more parameter has been declared. -/
def withParam (a : Arity) : ParamKind → Arity
  | .required => ⟨a.min + 1, a.max.map (· + 1)⟩
  | .optional => ⟨a.min, a.max.map (· + 1)⟩
  | .rest => ⟨a.min, none⟩
  | .block => a

def ofParams (params : List ParamKind) : Arity := params.foldl withParam empty

/-- No upper bound, or one that `n` respects. -/
def upTo (bound : Option Nat) (n : Nat) : Bool := bound.all (n ≤ ·)

def accepts (a : Arity) (count : Nat) : Bool := a.min ≤ count && upTo a.max count

/-- Whether some count is accepted by both. -/
def compatible (a b : Arity) : Bool := upTo a.max b.min && upTo b.max a.min

def union (a b : Arity) : Arity where
  min := Nat.min a.min b.min
  max :=
    match a.max, b.max with
    | some m, some n => some (Nat.max m n)
    | _, _ => none

def render (a : Arity) : String :=
  match a.max with
  | some m => if m = a.min then toString m else toString a.min ++ ".." ++ toString m
  | none => toString a.min ++ ".."

end Arity

end ScriptFlow
