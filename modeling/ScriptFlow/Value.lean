import ScriptFlow.Number.Shortest
import ScriptFlow.Text.Quoted

/-! Objects known while analysing: what a literal, a class name or a folded call stands for. -/

namespace ScriptFlow

/-- A class or module, by its place in the class table. -/
abbrev ModuleId := Nat

/-- Numbers that tell procedures, or objects of one class, apart. -/
abbrev Serial := UInt32

/-- A procedure object. `literal` is the place of its block among the literals of the graph that
made it; a procedure that stands for any block has none. -/
structure ProcRef where
  id : Serial
  literal : Option Nat
  lambda : Bool
deriving DecidableEq, Inhabited

inductive Value where
  | nil
  | bool (b : Bool)
  | int (n : Int64)
  | float (x : Double)
  | str (s : String)
  | sym (s : String)
  | array (items : List Value)
  | hash (pairs : List (Value × Value))
  | range (first last : Value) (exclusive : Bool)
  | moduleRef (id : ModuleId)
  | proc (p : ProcRef)
  | object (cls : ModuleId) (serial : Serial)
deriving Inhabited

namespace Value

mutual

/-- Same shape and same parts; floats are compared bit for bit. -/
def beq : Value → Value → Bool
  | .nil, .nil => true
  | .bool a, .bool b => a == b
  | .int a, .int b => a == b
  | .float a, .float b => a == b
  | .str a, .str b => a == b
  | .sym a, .sym b => a == b
  | .array as, .array bs => beqItems as bs
  | .hash as, .hash bs => beqPairs as bs
  | .range a₁ a₂ x, .range b₁ b₂ y => beq a₁ b₁ && beq a₂ b₂ && x == y
  | .moduleRef a, .moduleRef b => a == b
  | .proc a, .proc b => a == b
  | .object a m, .object b n => a == b && m == n
  | _, _ => false
termination_by structural a => a

def beqItems : List Value → List Value → Bool
  | [], [] => true
  | a :: as, b :: bs => beq a b && beqItems as bs
  | _, _ => false
termination_by structural a => a

def beqPair : Value × Value → Value × Value → Bool
  | (a₁, a₂), (b₁, b₂) => beq a₁ b₁ && beq a₂ b₂
termination_by structural a => a

def beqPairs : List (Value × Value) → List (Value × Value) → Bool
  | [], [] => true
  | a :: as, b :: bs => beqPair a b && beqPairs as bs
  | _, _ => false
termination_by structural a => a

end

mutual

theorem beq_iff_eq : ∀ a b : Value, beq a b = true ↔ a = b
  | .array as, b => by
    cases b <;> simp [beq, beqItems_iff_eq as]
  | .hash as, b => by
    cases b <;> simp [beq, beqPairs_iff_eq as]
  | .range a₁ a₂ x, b => by
    cases b <;> simp [beq, beq_iff_eq a₁, beq_iff_eq a₂, and_assoc]
  | .nil, b => by cases b <;> simp [beq]
  | .bool _, b => by cases b <;> simp [beq]
  | .int _, b => by cases b <;> simp [beq]
  | .float _, b => by cases b <;> simp [beq]
  | .str _, b => by cases b <;> simp [beq]
  | .sym _, b => by cases b <;> simp [beq]
  | .moduleRef _, b => by cases b <;> simp [beq]
  | .proc _, b => by cases b <;> simp [beq]
  | .object _ _, b => by cases b <;> simp [beq]

theorem beqItems_iff_eq : ∀ as bs : List Value, beqItems as bs = true ↔ as = bs
  | [], bs => by cases bs <;> simp [beqItems]
  | a :: as, bs => by
    cases bs <;> simp [beqItems, beq_iff_eq a, beqItems_iff_eq as]

theorem beqPair_iff_eq : ∀ a b : Value × Value, beqPair a b = true ↔ a = b
  | (a₁, a₂), (b₁, b₂) => by simp [beqPair, beq_iff_eq a₁, beq_iff_eq a₂]

theorem beqPairs_iff_eq : ∀ as bs : List (Value × Value), beqPairs as bs = true ↔ as = bs
  | [], bs => by cases bs <;> simp [beqPairs]
  | a :: as, bs => by
    cases bs <;> simp [beqPairs, beqPair_iff_eq a, beqPairs_iff_eq as]

end

instance : DecidableEq Value := fun a b => decidable_of_iff (beq a b = true) (beq_iff_eq a b)

/-- Only `nil` and `false` fail a condition. -/
def truthy : Value → Bool
  | .nil | .bool false => false
  | _ => true

def asInt? : Value → Option Int64
  | .int n => some n
  | _ => none

/-- The name carried by a symbol or a string. -/
def asName? : Value → Option String
  | .str s | .sym s => some s
  | _ => none

def asModule? : Value → Option ModuleId
  | .moduleRef id => some id
  | _ => none

mutual

def render : Value → String
  | .nil => "nil"
  | .bool b => if b then "true" else "false"
  | .int n => toString n.toInt
  | .float x => x.render
  | .str s => Text.quote s
  | .sym s => ":" ++ s
  | .array items => "[" ++ ", ".intercalate (renderItems items) ++ "]"
  | .hash pairs => "\x7b" ++ ", ".intercalate (renderPairs pairs) ++ "\x7d"
  | .range first last exclusive =>
    render first ++ (if exclusive then "..." else "..") ++ render last
  | .moduleRef id => "#<Module " ++ toString id ++ ">"
  | .proc p => "#<Proc " ++ toString p.id ++ ">"
  | .object cls serial => "#<Object " ++ toString cls ++ ":" ++ toString serial ++ ">"

def renderItems : List Value → List String
  | [] => []
  | v :: rest => render v :: renderItems rest

def renderPair : Value × Value → String
  | (k, v) => render k ++ " => " ++ render v

def renderPairs : List (Value × Value) → List String
  | [] => []
  | p :: rest => renderPair p :: renderPairs rest

end

end Value

end ScriptFlow
