import ScriptFlow.Value

/-! Superclass and include links between modules, and the order in which a module's ancestors are
asked for a method: the module itself, its includes from the latest to the earliest, each with its
own ancestors, and then those of the superclass. -/

namespace ScriptFlow

structure Links where
  superclass : Option ModuleId
  includes : List ModuleId
deriving DecidableEq, Inhabited

namespace Hierarchy

/-- Adds those of `more` that are not there yet. -/
def appendNew (chain more : List ModuleId) : List ModuleId :=
  more.foldl (fun chain m => if chain.contains m then chain else chain ++ [m]) chain

/-- The ancestors of a module, following at most `depth` links in a row. What the superclass brings
is not repeated among the includes. -/
def linearize (links : Array Links) : (depth : Nat) → ModuleId → List ModuleId
  | 0, m => [m]
  | depth + 1, m =>
    let own := links.getD m default
    let inherited :=
      match own.superclass with
      | some s => linearize links depth s
      | none => []
    let included := own.includes.reverse.flatMap (linearize links depth)
    let chain := appendNew [m] (included.filter fun a => !inherited.contains a)
    appendNew chain inherited

/-- Longer chains of links are cut, so that cycles do no harm. -/
def maxLinks : Nat := 65

def lineagesOf (links : Array Links) : Array (List ModuleId) :=
  ((List.range links.size).map (linearize links maxLinks)).toArray

end Hierarchy

/-- The links with the ancestor lists they give rise to, worked out when first needed. -/
structure Hierarchy where
  links : Array Links
  lineages : Thunk (Array (List ModuleId))
  lineages_eq : lineages.get = Hierarchy.lineagesOf links

namespace Hierarchy

def ofLinks (links : Array Links) : Hierarchy :=
  ⟨links, Thunk.mk fun _ => lineagesOf links, rfl⟩

instance : Inhabited Hierarchy := ⟨ofLinks #[]⟩

def size (h : Hierarchy) : Nat := h.links.size

def ancestors (h : Hierarchy) (m : ModuleId) : List ModuleId := h.lineages.get.getD m []

def isA (h : Hierarchy) (m ancestor : ModuleId) : Bool := (h.ancestors m).contains ancestor

def superclass? (h : Hierarchy) (m : ModuleId) : Option ModuleId :=
  (h.links.getD m default).superclass

def includes (h : Hierarchy) (m : ModuleId) : List ModuleId := (h.links.getD m default).includes

def push (h : Hierarchy) (superclass : Option ModuleId) : Hierarchy :=
  ofLinks (h.links.push ⟨superclass, []⟩)

/-- Including a module again changes nothing. -/
def addInclude (h : Hierarchy) (target m : ModuleId) : Hierarchy :=
  if (h.includes target).contains m then h
  else ofLinks (h.links.modify target fun l => { l with includes := l.includes ++ [m] })

end Hierarchy

end ScriptFlow
