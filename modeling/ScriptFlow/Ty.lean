import ScriptFlow.CoreClass

/-! Static types: finite unions of alternatives. An alternative is a class, exactly or with its
descendants, or an array of known length. Alternatives are kept in ascending order without
repetition, so equal unions are equal as data. -/

namespace ScriptFlow

inductive Variance where
  /-- This class only. -/
  | exact
  /-- This class and its descendants. -/
  | orBelow
deriving DecidableEq, Inhabited

mutual

inductive Ty where
  | union (members : List Member)

/-- One alternative of a type. -/
inductive Member where
  | cls (id : ModuleId) (variance : Variance)
  | tuple (slots : List Ty)

end

instance : Inhabited Ty := ⟨.union []⟩

instance : Inhabited Member := ⟨.cls 0 .exact⟩

def Ty.members : Ty → List Member
  | .union ms => ms

mutual

def Ty.beq : Ty → Ty → Bool
  | .union as, .union bs => Member.beqAll as bs
termination_by structural a => a

def Member.beq : Member → Member → Bool
  | .cls a v, .cls b w => a == b && v == w
  | .tuple as, .tuple bs => Ty.beqAll as bs
  | _, _ => false
termination_by structural a => a

def Member.beqAll : List Member → List Member → Bool
  | [], [] => true
  | a :: as, b :: bs => Member.beq a b && Member.beqAll as bs
  | _, _ => false
termination_by structural a => a

def Ty.beqAll : List Ty → List Ty → Bool
  | [], [] => true
  | a :: as, b :: bs => Ty.beq a b && Ty.beqAll as bs
  | _, _ => false
termination_by structural a => a

end

mutual

theorem Ty.beq_iff_eq : ∀ a b : Ty, Ty.beq a b = true ↔ a = b
  | .union as, .union bs => by simp [Ty.beq, Member.beqAll_iff_eq as]

theorem Member.beq_iff_eq : ∀ a b : Member, Member.beq a b = true ↔ a = b
  | .cls _ _, b => by cases b <;> simp [Member.beq]
  | .tuple as, b => by cases b <;> simp [Member.beq, Ty.beqAll_iff_eq as]

theorem Member.beqAll_iff_eq : ∀ as bs : List Member, Member.beqAll as bs = true ↔ as = bs
  | [], bs => by cases bs <;> simp [Member.beqAll]
  | a :: as, bs => by
    cases bs <;> simp [Member.beqAll, Member.beq_iff_eq a, Member.beqAll_iff_eq as]

theorem Ty.beqAll_iff_eq : ∀ as bs : List Ty, Ty.beqAll as bs = true ↔ as = bs
  | [], bs => by cases bs <;> simp [Ty.beqAll]
  | a :: as, bs => by
    cases bs <;> simp [Ty.beqAll, Ty.beq_iff_eq a, Ty.beqAll_iff_eq as]

end

instance : DecidableEq Ty := fun a b => decidable_of_iff (Ty.beq a b = true) (Ty.beq_iff_eq a b)

instance : DecidableEq Member := fun a b =>
  decidable_of_iff (Member.beq a b = true) (Member.beq_iff_eq a b)

def Variance.rank : Variance → Nat
  | .exact => 0
  | .orBelow => 1

def orderNat (a b : Nat) : Ordering := if a < b then .lt else if b < a then .gt else .eq

mutual

/-- Members one by one; a type that another one continues comes first. -/
def Ty.order : Ty → Ty → Ordering
  | .union as, .union bs => Member.orderAll as bs
termination_by structural a => a

/-- Classes by place, the exact one first; classes before tuples. -/
def Member.order : Member → Member → Ordering
  | .cls a v, .cls b w => (orderNat a b).then (orderNat v.rank w.rank)
  | .cls _ _, .tuple _ => .lt
  | .tuple _, .cls _ _ => .gt
  | .tuple as, .tuple bs => Ty.orderAll as bs
termination_by structural a => a

def Member.orderAll : List Member → List Member → Ordering
  | [], [] => .eq
  | [], _ :: _ => .lt
  | _ :: _, [] => .gt
  | a :: as, b :: bs => (Member.order a b).then (Member.orderAll as bs)
termination_by structural a => a

def Ty.orderAll : List Ty → List Ty → Ordering
  | [], [] => .eq
  | [], _ :: _ => .lt
  | _ :: _, [] => .gt
  | a :: as, b :: bs => (Ty.order a b).then (Ty.orderAll as bs)
termination_by structural a => a

end

/-- Puts a member in its place, if it is not there already. -/
def Member.insert (m : Member) : List Member → List Member
  | [] => [m]
  | a :: as =>
    match m.order a with
    | .lt => m :: a :: as
    | .eq => a :: as
    | .gt => a :: Member.insert m as

namespace Ty

/-- No value has this type. -/
def empty : Ty := .union []

def ofMember (m : Member) : Ty := .union [m]

def exact (c : ModuleId) : Ty := ofMember (.cls c .exact)

def orBelow (c : ModuleId) : Ty := ofMember (.cls c .orBelow)

def tuple (slots : List Ty) : Ty := ofMember (.tuple slots)

def insert (m : Member) (t : Ty) : Ty := .union (m.insert t.members)

def join (t u : Ty) : Ty := u.members.foldl (fun acc m => acc.insert m) t

def joinAll (ts : List Ty) : Ty := ts.foldl join empty

def size (t : Ty) : Nat := t.members.length

def isEmpty (t : Ty) : Bool := t.members.isEmpty

/-- Any object at all. -/
def top : Ty := orBelow CoreClass.basicObject

def isTop (t : Ty) : Bool := t.members.contains (.cls CoreClass.basicObject .orBelow)

def nil : Ty := exact CoreClass.nilClass

def boolean : Ty := (exact CoreClass.trueClass).join (exact CoreClass.falseClass)

/-- What fails a condition. -/
def falsy : Ty := (exact CoreClass.nilClass).join (exact CoreClass.falseClass)

/-- Each alternative on its own. -/
def memberTypes (t : Ty) : List Ty := t.members.map ofMember

/-- The slots of a type that is exactly one tuple. -/
def asTuple? (t : Ty) : Option (List Ty) :=
  match t.members with
  | [.tuple slots] => some slots
  | _ => none

/-- The join, and whether it is more than `t`. -/
def extend (t u : Ty) : Bool × Ty :=
  let r := t.join u
  (r.size != t.size, r)

end Ty

end ScriptFlow
