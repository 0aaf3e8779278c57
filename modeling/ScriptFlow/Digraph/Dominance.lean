import ScriptFlow.Dict
import ScriptFlow.Digraph.Semidominator

/-! Dominance: a node dominates another when no walk from the entry gets there without it. -/

namespace ScriptFlow

/-- Each reached node other than the entry has its closest strict dominator as parent. -/
structure DominatorTree where
  entry : Nat
  parent : Array (Option Nat)
  /-- For each node, those it is the parent of, in ascending order. -/
  below : Array (List Nat)
  reached : Array Bool
deriving DecidableEq

namespace Digraph

def markAll (size : Nat) (nodes : List Nat) : Array Bool :=
  nodes.foldl (fun marks v => marks.setIfInBounds v true) (Array.replicate size false)

def ascending (size : Nat) (nodes : List Nat) : List Nat :=
  let marks := markAll size nodes
  (List.range size).filter fun v => marks.getD v false

def addBelow (parent : Array (Option Nat)) (w : Nat) (below : Array (List Nat)) :
    Array (List Nat) :=
  match parent.getD w none with
  | some p => below.modify p (insertNat w)
  | none => below

def dominators (g : Digraph) (entry : Nat) : DominatorTree :=
  let t := g.spanningTree entry
  let parent := (g.semidominators t).dominator
  { entry
    parent
    below := t.met.foldr (addBelow parent) (Array.replicate g.size [])
    reached := markAll g.size t.met }

end Digraph

namespace DominatorTree

variable (t : DominatorTree) (v : Nat)

def size (t : DominatorTree) : Nat := t.parent.size

def parent? : Option Nat := t.parent.getD v none

def isReached : Bool := t.reached.getD v false

def chainFrom (t : DominatorTree) : (fuel : Nat) → Nat → List Nat
  | 0, v => [v]
  | fuel + 1, v =>
    match t.parent? v with
    | some p => v :: t.chainFrom fuel p
    | none => [v]

/-- The node, its parent, and so on up to the entry. -/
def chain : List Nat := t.chainFrom t.size v

def depth : Nat := (t.chain v).length - 1

/-- A node outside the reach of the entry dominates itself only. -/
def dominates (a b : Nat) : Bool :=
  a == b || (t.isReached a && t.isReached b && (t.chain b).contains a)

def strictlyDominates (a b : Nat) : Bool := a != b && t.dominates a b

def children : List Nat := t.below.getD v []

end DominatorTree

end ScriptFlow
