import ScriptFlow.ClassTable.Hierarchy
import ScriptFlow.ClassTable.Primitive
import ScriptFlow.Dict
import ScriptFlow.Frequency
import ScriptFlow.Text.ModulePath
import ScriptFlow.Tree

/-! The class table: every class and module of a program with its methods, constants and variables.
It is set up before an analysis and only read by it. -/

namespace ScriptFlow

/-- A method, by its place in the class table. -/
abbrev MethodId := Nat

/-- Ids have 32 bits. -/
def MethodId.ofNat (n : Nat) : MethodId := n % 0x100000000

inductive ModuleKind where
  | cls
  /-- A module that classes include. -/
  | mixin
  /-- The class of the class or module `attached`. -/
  | singleton (attached : ModuleId)
deriving DecidableEq, Inhabited

/-- Who may call a method: anyone, receivers of the same family, or code without a receiver. -/
inductive Visibility where
  | anyone
  | family
  | implicitOnly
deriving DecidableEq, Inhabited

namespace Visibility

def all : List Visibility := [.anyone, .family, .implicitOnly]

def name : Visibility → String
  | .anyone => "public"
  | .family => "protected"
  | .implicitOnly => "private"

end Visibility

/-- What is declared of a method's result. -/
inductive ReturnRule where
  | unknown
  | fixed (t : Ty)
  | receiver
  /-- An instance of the receiver, which is a class. -/
  | newInstance
deriving DecidableEq, Inhabited

structure MethodSpec where
  name : String
  params : List ParamKind
  visibility : Visibility
  pure : Bool
  builtin : Bool
  returns : ReturnRule
  raises : Option (Ty × Frequency)
  blockUse : Option BlockUse
  primitive : Option Primitive
  body : Option MethodBody
deriving DecidableEq

/-- A core method: nothing is known but its parameters. -/
def MethodSpec.builtinMethod (name : String) (params : List ParamKind) : MethodSpec where
  name := name
  params := params
  visibility := .anyone
  pure := false
  builtin := true
  returns := .unknown
  raises := none
  blockUse := none
  primitive := none
  body := none

def MethodSpec.userMethod (name : String) (body : MethodBody) : MethodSpec :=
  { MethodSpec.builtinMethod name (body.formals.map (·.paramKind)) with
    builtin := false, body := some body }

def MethodSpec.neverRaises (s : MethodSpec) : MethodSpec :=
  { s with raises := some (Ty.empty, .never) }

/-- A method with its place in the table and the module that holds it. -/
structure MethodRecord extends MethodSpec where
  id : MethodId
  owner : ModuleId
deriving DecidableEq

instance : Inhabited MethodRecord :=
  ⟨{ MethodSpec.builtinMethod "" [] with id := 0, owner := 0 }⟩

def MethodRecord.arity (r : MethodRecord) : Arity := Arity.ofParams r.params

structure ModuleRecord where
  path : String
  kind : ModuleKind
  singleton : Option ModuleId
  methods : Dict String MethodId
  visibility : Dict String Visibility
  constants : Dict String Value
  instanceVars : Dict String Ty
deriving Inhabited

structure ClassTable where
  hierarchy : Hierarchy
  modules : Array ModuleRecord
  methods : Array MethodRecord
  paths : Dict String ModuleId
  nextSerial : Serial
deriving Inhabited

namespace ClassTable

variable (c : ClassTable) (m : ModuleId)

def empty : ClassTable := ⟨.ofLinks #[], #[], #[], .empty, 0⟩

def size (c : ClassTable) : Nat := c.modules.size

def record : ModuleRecord := c.modules.getD m default

def path (c : ClassTable) (m : ModuleId) : String := (c.record m).path

def kind (c : ClassTable) (m : ModuleId) : ModuleKind := (c.record m).kind

def method (id : MethodId) : MethodRecord := c.methods.getD id default

/-- Of a number that is too large for an id only the low bits count. -/
def method? (n : Nat) : Except Error MethodRecord :=
  let id := MethodId.ofNat n
  match c.methods[id]? with
  | some r => .ok r
  | none => .error (.unknownMethod id)

def lookup (path : String) : Except Error ModuleId :=
  match c.paths.get? path with
  | some m => .ok m
  | none => .error (.unknownModule path)

/-- The class of a class or module; a singleton stands for itself. -/
def singletonOf : ModuleId := (c.record m).singleton.getD m

def ancestors (c : ClassTable) (m : ModuleId) : List ModuleId := c.hierarchy.ancestors m

def isA (c : ClassTable) (m ancestor : ModuleId) : Bool := c.hierarchy.isA m ancestor

def isClass : Bool := c.kind m != .mixin

/-- The classes below a module, in the order of their definition. -/
def descendants : List ModuleId :=
  (List.range c.size).filter fun d => c.isClass d && c.isA d m

/-- The first ancestor that has something to say decides. -/
def firstOf {α : Type} (f : ModuleRecord → Option α) : Option α :=
  (c.ancestors m).findSome? fun a => f (c.record a)

def instanceMethod? (name : String) : Option MethodId :=
  c.firstOf m (·.methods.get? name)

def visibilityOf (name : String) : Visibility :=
  (c.firstOf m (·.visibility.get? name)).getD .anyone

def variableType? (name : String) : Option Ty :=
  c.firstOf m (·.instanceVars.get? name)

/-- Constants are looked for among the ancestors and then at the top level. -/
def constant? (lexical : ModuleId) (name : String) : Option Value :=
  (c.firstOf lexical (·.constants.get? name)).or
    ((c.paths.get? "Object").bind fun object => (c.record object).constants.get? name)

def classOf : Value → ModuleId
  | .nil => CoreClass.nilClass
  | .bool true => CoreClass.trueClass
  | .bool false => CoreClass.falseClass
  | .int _ => CoreClass.integer
  | .float _ => CoreClass.float
  | .str _ => CoreClass.string
  | .sym _ => CoreClass.symbol
  | .array _ => CoreClass.array
  | .hash _ => CoreClass.hash
  | .range _ _ _ => CoreClass.range
  | .moduleRef m => c.singletonOf m
  | .proc _ => CoreClass.proc
  | .object m _ => m

def modifyRecord (f : ModuleRecord → ModuleRecord) : ClassTable :=
  { c with modules := c.modules.modify m f }

def setConstant (name : String) (v : Value) : ClassTable :=
  c.modifyRecord m fun r => { r with constants := r.constants.put name v }

def setVisibility (name : String) (v : Visibility) : ClassTable :=
  c.modifyRecord m fun r => { r with visibility := r.visibility.put name v }

def declareVariable (name : String) (t : Ty) : ClassTable :=
  c.modifyRecord m fun r => { r with instanceVars := r.instanceVars.put name t }

def includeModule (target m : ModuleId) : ClassTable :=
  { c with hierarchy := c.hierarchy.addInclude target m }

/-- A new module. All but singletons can be found by their path afterwards. -/
def pushModule (path : String) (kind : ModuleKind)
    (superclass : Option ModuleId) : ModuleId × ClassTable :=
  let named :=
    match kind with
    | .singleton _ => c.paths
    | _ => c.paths.put path c.size
  (c.size,
    { c with
      hierarchy := c.hierarchy.push superclass
      modules := c.modules.push { (default : ModuleRecord) with path := path, kind := kind }
      paths := named })

/-- A class's singleton descends from that of its superclass. -/
def attachSingleton : ClassTable :=
  let parent :=
    match c.kind m, c.hierarchy.superclass? m with
    | .cls, some s => (c.record s).singleton
    | .cls, none => c.paths.get? "Class"
    | _, _ => c.paths.get? "Module"
  let (id, c) := c.pushModule ("#<Class:" ++ c.path m ++ ">") (.singleton m) parent
  c.modifyRecord m fun r => { r with singleton := some id }

/-- Makes a module a constant of the module it is nested in, if that one is known. -/
def bindPath (path : String) (m : ModuleId) : ClassTable :=
  let (outer, name) := (Text.splitLast? path).getD ("Object", path)
  match c.paths.get? outer with
  | some space => c.setConstant space name (.moduleRef m)
  | none => c

def defineNamed (path : String) (kind : ModuleKind)
    (superclass : Option ModuleId) : ModuleId × ClassTable :=
  let (m, c) := c.pushModule path kind superclass
  (m, (c.attachSingleton m).bindPath path m)

/-- A class; `Object` is its superclass unless another is given. -/
def defineClass (path : String) (superclass : Option ModuleId) :
    ModuleId × ClassTable :=
  c.defineNamed path .cls (superclass.or (c.paths.get? "Object"))

def defineModule (path : String) : ModuleId × ClassTable :=
  c.defineNamed path .mixin none

/-- A redefined method is a new one; the earlier one keeps its place in the table. -/
def defineMethod (owner : ModuleId) (s : MethodSpec) : MethodId × ClassTable :=
  let id := c.methods.size
  let c := { c with methods := c.methods.push { s with id := id, owner := owner } }
  (id, c.modifyRecord owner fun r =>
    { r with
      methods := r.methods.put s.name id
      visibility := r.visibility.put s.name s.visibility })

def defineSingletonMethod (s : MethodSpec) :
    MethodId × ClassTable :=
  c.defineMethod (c.singletonOf m) s

/-- An object like no other. -/
def newObject : Value × ClassTable :=
  (.object m c.nextSerial, { c with nextSerial := c.nextSerial + 1 })

end ClassTable

end ScriptFlow
