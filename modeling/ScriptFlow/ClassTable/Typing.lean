import ScriptFlow.ClassTable.Basic

/-! Types seen against a class table: which classes a type admits, subtyping, overlap, and how a
type is written. -/

namespace ScriptFlow.ClassTable

variable (c : ClassTable)

mutual

/-- The type of a known value; arrays are tuples of their items' types. -/
def typeOf (c : ClassTable) : Value → Ty
  | .array items => .tuple (typesOf c items)
  | v => .exact (c.classOf v)

def typesOf (c : ClassTable) : List Value → List Ty
  | [] => []
  | v :: vs => typeOf c v :: typesOf c vs

end

/-- The classes that a value falling under the alternative may have. -/
def memberClasses : Member → List ModuleId
  | .cls m .exact => [m]
  | .cls m .orBelow => c.descendants m
  | .tuple _ => [CoreClass.array]

/-- Every class that a value of the type may have, ascending. -/
def possibleClasses (t : Ty) : List ModuleId :=
  (t.members.flatMap c.memberClasses).foldl (fun ks k => insertNat k ks) []

/-- Whether every class of the alternative falls under a class with the given variance. -/
def classesWithin (m : Member) (target : ModuleId) (v : Variance) : Bool :=
  (c.memberClasses m).all fun k =>
    match v with
    | .exact => k == target
    | .orBelow => c.isA k target

mutual

/-- Whether every value of the first type has the second. Tuples are compared slot by slot, and
only tuples fall under a tuple. -/
def isSubtype (c : ClassTable) : Ty → Ty → Bool
  | .union ms, u => u.isTop || allWithin c ms u
termination_by structural a => a

def allWithin (c : ClassTable) : List Member → Ty → Bool
  | [], _ => true
  | m :: ms, u => u.members.any (memberWithin c m) && allWithin c ms u
termination_by structural a => a

def memberWithin (c : ClassTable) : Member → Member → Bool
  | .tuple as, .tuple bs => slotsWithin c as bs
  | .cls _ _, .tuple _ => false
  | m, .cls target v => c.classesWithin m target v
termination_by structural a => a

def slotsWithin (c : ClassTable) : List Ty → List Ty → Bool
  | [], [] => true
  | a :: as, b :: bs => isSubtype c a b && slotsWithin c as bs
  | _, _ => false
termination_by structural a => a

end

/-- Whether some value may have both types. -/
def overlaps (t u : Ty) : Bool :=
  if t.isEmpty || u.isEmpty then false
  else if t.isTop || u.isTop then true
  else
    let ours := c.possibleClasses t
    (c.possibleClasses u).any ours.contains

/-- What an alternative that describes class objects says of their instances; other alternatives
stand for themselves. -/
def instanceMember (m : Member) : Member :=
  match m with
  | .cls k v =>
    match c.kind k with
    | .singleton attached => .cls attached v
    | _ =>
      if k == CoreClass.classClass || k == CoreClass.moduleClass then
        .cls CoreClass.object .orBelow
      else m
  | .tuple _ => m

def instancesOf (t : Ty) : Ty :=
  t.members.foldl (fun acc m => acc.insert (c.instanceMember m)) .empty

mutual

def describe (c : ClassTable) : Ty → String
  | .union [] => "<empty>"
  | .union (m :: ms) => " | ".intercalate (describeMembers c (m :: ms))

def describeMember (c : ClassTable) : Member → String
  | .cls m .exact => c.path m
  | .cls m .orBelow => c.path m ++ "+"
  | .tuple slots => "(" ++ ", ".intercalate (describeAll c slots) ++ ")"

def describeMembers (c : ClassTable) : List Member → List String
  | [] => []
  | m :: ms => describeMember c m :: describeMembers c ms

def describeAll (c : ClassTable) : List Ty → List String
  | [] => []
  | t :: ts => describe c t :: describeAll c ts

end

end ScriptFlow.ClassTable
