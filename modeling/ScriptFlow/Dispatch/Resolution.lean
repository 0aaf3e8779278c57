import ScriptFlow.ClassTable.Typing

/-! Which methods a call may reach, given the type of its receiver. -/

namespace ScriptFlow

/-- One way a call can go: the class of the receiver, the receiver type handed on, the method. -/
structure Target where
  cls : ModuleId
  receiver : Ty
  method : MethodId
deriving DecidableEq, Inhabited

structure Resolution where
  accessible : List Target
  concealed : List Target
  /-- Classes of the receiver without the method. -/
  missing : List ModuleId
  unknown : Bool
deriving DecidableEq, Inhabited

namespace Resolution

variable (r : Resolution)

def ofUnknown : Resolution := ⟨[], [], [], true⟩

def methods : List MethodId :=
  r.accessible.foldl (fun ms t => insertNat t.method ms) []

def isComplete : Bool := !r.unknown && r.missing.isEmpty && r.concealed.isEmpty

def soleMethod? : Option MethodId :=
  match r.isComplete, r.methods with
  | true, [m] => some m
  | _, _ => none

def isUnresolved : Bool :=
  !r.unknown && r.accessible.isEmpty && r.concealed.isEmpty

def allMethods (p : MethodId → Bool) : Bool :=
  r.isComplete && !r.accessible.isEmpty && r.accessible.all fun t => p t.method

end Resolution

/-- Looks methods up for callers whose `self` has one of the `caller` classes. -/
structure Resolver where
  table : ClassTable
  caller : List ModuleId
  /-- Tell a call whose targets are all hidden from one without targets. -/
  refinePrivacy : Bool

namespace Resolver

variable (r : Resolver)

def ofTable (c : ClassTable) : Resolver := ⟨c, [], true⟩

def withCaller (selfType : Ty) : Resolver :=
  { r with caller := if selfType.isTop then [] else r.table.possibleClasses selfType }

def addReceiver (cls : ModuleId) (t : Ty) : List (ModuleId × Ty) → List (ModuleId × Ty)
  | [] => [(cls, t)]
  | (k, u) :: rest => if k = cls then (k, u.join t) :: rest else (k, u) :: addReceiver cls t rest

/-- The possible classes of a receiver with the receiver type of each. An alternative that stands
for one class keeps its own type, so that tuples stay tuples. -/
def receiverClasses (c : ClassTable) (receiver : Ty) : List (ModuleId × Ty) :=
  receiver.members.foldl
    (fun acc m =>
      match c.possibleClasses (.ofMember m) with
      | [k] => addReceiver k (.ofMember m) acc
      | ks => ks.foldl (fun acc k => addReceiver k (.exact k) acc) acc)
    []

/-- A method for the family is open to callers that descend from its owner. -/
def isVisible (cls : ModuleId) (name : String) (method : MethodId) : Bool :=
  match r.table.visibilityOf cls name with
  | .anyone => true
  | .implicitOnly => false
  | .family => r.caller.any fun k => r.table.isA k (r.table.method method).owner

/-- A target that is there with the same class and method takes the receiver type in. -/
def addTarget (t : Target) : List Target → List Target
  | [] => [t]
  | u :: us =>
    if u.method = t.method ∧ u.cls = t.cls then
      { u with receiver := u.receiver.join t.receiver } :: us
    else u :: addTarget t us

def file (r : Resolution) (cls : ModuleId) (receiver : Ty) (visible : MethodId → Bool)
    (found : Option MethodId) : Resolution :=
  match found with
  | none => { r with missing := r.missing ++ [cls] }
  | some m =>
    if visible m then { r with accessible := addTarget ⟨cls, receiver, m⟩ r.accessible }
    else { r with concealed := addTarget ⟨cls, receiver, m⟩ r.concealed }

/-- Every method `name` that the receiver may reach. Calls without a written receiver ignore
visibility. -/
def resolve (receiver : Ty) (name : String) (ignoreVisibility : Bool) : Resolution :=
  if receiver.isTop then .ofUnknown
  else
    (receiverClasses r.table receiver).foldl
      (fun acc (k, t) =>
        file acc k t (fun m => ignoreVisibility || r.isVisible k name m)
          (r.table.instanceMethod? k name))
      default

def ancestorsAfter (c : ClassTable) (cls owner : ModuleId) : List ModuleId :=
  ((c.ancestors cls).dropWhile (· != owner)).drop 1

/-- The methods that `super` reaches from a method of `owner`, whatever their visibility. -/
def resolveSuper (receiver : Ty) (owner : ModuleId) (name : String) : Resolution :=
  if receiver.isTop then .ofUnknown
  else
    (receiverClasses r.table receiver).foldl
      (fun acc (k, t) =>
        file acc k t (fun _ => true)
          ((ancestorsAfter r.table k owner).findSome? fun a =>
            (r.table.record a).methods.get? name))
      default

def fits (method : MethodId) (count : Nat) : Bool :=
  (r.table.method method).arity.accepts count

end Resolver

end ScriptFlow
