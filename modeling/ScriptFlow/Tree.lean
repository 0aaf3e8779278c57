import ScriptFlow.Arity
import ScriptFlow.Error
import ScriptFlow.Ty

/-! Trees of a program whose names are already resolved. A node has a kind, ordered children and a
payload: a literal value, a name, or the formals and body of a block. -/

namespace ScriptFlow

mutual

inductive Tree where
  | node (kind : NodeKind) (children : List Tree) (payload : Payload)

inductive Payload where
  | none
  | literal (v : Value)
  | name (s : String)
  | block (name : Option String) (formals : List Formal) (body : Tree)

/-- A formal argument; an optional one has a default. -/
inductive Formal where
  | required (name : String)
  | optional (name : String) (default : Tree)
  | rest (name : String)
  | block (name : String)

end

instance : Inhabited Tree := ⟨.node .empty [] .none⟩

instance : Inhabited Formal := ⟨.required ""⟩

mutual

def Tree.beq : Tree → Tree → Bool
  | .node k cs p, .node l ds q => k == l && Tree.beqAll cs ds && Payload.beq p q
termination_by structural a => a

def Tree.beqAll : List Tree → List Tree → Bool
  | [], [] => true
  | a :: as, b :: bs => Tree.beq a b && Tree.beqAll as bs
  | _, _ => false
termination_by structural a => a

def Payload.beq : Payload → Payload → Bool
  | .none, .none => true
  | .literal a, .literal b => a == b
  | .name a, .name b => a == b
  | .block m fs a, .block n gs b => m == n && Formal.beqAll fs gs && Tree.beq a b
  | _, _ => false
termination_by structural a => a

def Formal.beq : Formal → Formal → Bool
  | .required a, .required b => a == b
  | .optional a s, .optional b t => a == b && Tree.beq s t
  | .rest a, .rest b => a == b
  | .block a, .block b => a == b
  | _, _ => false
termination_by structural a => a

def Formal.beqAll : List Formal → List Formal → Bool
  | [], [] => true
  | a :: as, b :: bs => Formal.beq a b && Formal.beqAll as bs
  | _, _ => false
termination_by structural a => a

end

mutual

theorem Tree.beq_iff_eq : ∀ a b : Tree, Tree.beq a b = true ↔ a = b
  | .node _ cs p, .node _ _ _ => by
    simp [Tree.beq, Tree.beqAll_iff_eq cs, Payload.beq_iff_eq p, and_assoc]

theorem Tree.beqAll_iff_eq : ∀ as bs : List Tree, Tree.beqAll as bs = true ↔ as = bs
  | [], bs => by cases bs <;> simp [Tree.beqAll]
  | a :: as, bs => by
    cases bs <;> simp [Tree.beqAll, Tree.beq_iff_eq a, Tree.beqAll_iff_eq as]

theorem Payload.beq_iff_eq : ∀ p q : Payload, Payload.beq p q = true ↔ p = q
  | .none, q => by cases q <;> simp [Payload.beq]
  | .literal _, q => by cases q <;> simp [Payload.beq]
  | .name _, q => by cases q <;> simp [Payload.beq]
  | .block _ fs t, q => by
    cases q <;> simp [Payload.beq, Formal.beqAll_iff_eq fs, Tree.beq_iff_eq t, and_assoc]

theorem Formal.beq_iff_eq : ∀ f g : Formal, Formal.beq f g = true ↔ f = g
  | .required _, g => by cases g <;> simp [Formal.beq]
  | .optional _ t, g => by cases g <;> simp [Formal.beq, Tree.beq_iff_eq t]
  | .rest _, g => by cases g <;> simp [Formal.beq]
  | .block _, g => by cases g <;> simp [Formal.beq]

theorem Formal.beqAll_iff_eq : ∀ as bs : List Formal, Formal.beqAll as bs = true ↔ as = bs
  | [], bs => by cases bs <;> simp [Formal.beqAll]
  | a :: as, bs => by
    cases bs <;> simp [Formal.beqAll, Formal.beq_iff_eq a, Formal.beqAll_iff_eq as]

end

instance : DecidableEq Tree := fun a b =>
  decidable_of_iff (Tree.beq a b = true) (Tree.beq_iff_eq a b)

instance : DecidableEq Formal := fun a b =>
  decidable_of_iff (Formal.beq a b = true) (Formal.beq_iff_eq a b)

namespace Formal

def name : Formal → String
  | .required n | .optional n _ | .rest n | .block n => n

def paramKind : Formal → ParamKind
  | .required _ => .required
  | .optional _ _ => .optional
  | .rest _ => .rest
  | .block _ => .block

end Formal

/-- The formals and body of a block literal, a lambda or a method definition. -/
structure BlockTree where
  name : Option String
  formals : List Formal
  body : Tree
deriving DecidableEq

namespace Tree

def kind : Tree → NodeKind
  | .node k _ _ => k

def children : Tree → List Tree
  | .node _ cs _ => cs

def payload : Tree → Payload
  | .node _ _ p => p

def child (t : Tree) (i : Nat) : Except Error Tree :=
  match t.children[i]? with
  | some c => .ok c
  | none => .error (.malformedNode (.missingChild t.kind i t.children.length))

/-- A child that is there and not an empty placeholder. -/
def child? (t : Tree) (i : Nat) : Option Tree := t.children[i]?.filter (·.kind != .empty)

def name (t : Tree) : Except Error String :=
  match t.payload with
  | .name s => .ok s
  | _ => .error (.malformedNode (.noName t.kind))

def literal (t : Tree) : Except Error Value :=
  match t.payload with
  | .literal v => .ok v
  | _ => .error (.malformedNode (.noLiteral t.kind))

def block (t : Tree) : Except Error BlockTree :=
  match t.payload with
  | .block name formals body => .ok ⟨name, formals, body⟩
  | _ => .error (.malformedNode (.noBlock t.kind))

mutual

/-- Whether the node or one below it has the kind; payloads are not looked into. -/
def containsKind (k : NodeKind) : Tree → Bool
  | .node l cs _ => l == k || anyContainsKind k cs

def anyContainsKind (k : NodeKind) : List Tree → Bool
  | [] => false
  | t :: ts => containsKind k t || anyContainsKind k ts

end

def plain (k : NodeKind) (children : List Tree) : Tree := .node k children .none

def named (k : NodeKind) (name : String) (children : List Tree) : Tree :=
  .node k children (.name name)

def withBlock (k : NodeKind) (name : Option String) (formals : List Formal) (body : Tree) : Tree :=
  .node k [] (.block name formals body)

def lit (v : Value) : Tree := .node .literal [] (.literal v)

def empty : Tree := plain .empty []

end Tree

/-- Where a body runs: the type of the receiver and the module that lexically encloses it. -/
structure Scope where
  selfType : Ty
  lexical : ModuleId
deriving DecidableEq, Inhabited

namespace Scope

def topLevel : Scope := ⟨.exact CoreClass.object, CoreClass.object⟩

def instanceOf (c : ModuleId) : Scope := ⟨.orBelow c, c⟩

end Scope

structure MethodBody where
  formals : List Formal
  body : Tree
  scope : Scope
deriving DecidableEq

end ScriptFlow
