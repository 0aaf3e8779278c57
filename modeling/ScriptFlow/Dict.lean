/-! Finite maps as lists of entries in ascending order of their keys. -/

namespace ScriptFlow

structure Dict (κ : Type) (α : Type) where
  entries : List (κ × α)
deriving DecidableEq, Inhabited

namespace Dict

variable {κ α : Type}

def empty : Dict κ α := ⟨[]⟩

def get? [DecidableEq κ] (d : Dict κ α) (k : κ) : Option α := d.entries.lookup k

def contains [DecidableEq κ] (d : Dict κ α) (k : κ) : Bool := (d.get? k).isSome

/-- Puts an entry in its place; the key's earlier entry, if any, is dropped. -/
def place [LT κ] [DecidableLT κ] (k : κ) (a : α) : List (κ × α) → List (κ × α)
  | [] => [(k, a)]
  | e :: es =>
    if k < e.1 then (k, a) :: e :: es
    else if e.1 < k then e :: place k a es
    else (k, a) :: es

def put [LT κ] [DecidableLT κ] (d : Dict κ α) (k : κ) (a : α) : Dict κ α := ⟨place k a d.entries⟩

def keys (d : Dict κ α) : List κ := d.entries.map (·.1)

end Dict

/-- Adds a number to an ascending list without repetition. -/
def insertNat (n : Nat) : List Nat → List Nat
  | [] => [n]
  | m :: ms => if n < m then n :: m :: ms else if m < n then m :: insertNat n ms else m :: ms

end ScriptFlow
