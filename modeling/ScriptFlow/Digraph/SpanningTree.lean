import ScriptFlow.Digraph.Search

/-! The spanning tree of a depth-first search, with the order in which the search meets the nodes. -/

namespace ScriptFlow

/-- The part of the tree that is built. A node that is not met has place zero. -/
structure SpanningTree where
  met : List Nat
  /-- When each node was met, counted from one. -/
  place : Array Nat
  /-- The node from which each node was met; the root has none. -/
  above : Array (Option Nat)
deriving DecidableEq

namespace SpanningTree

def none (size : Nat) : SpanningTree :=
  ⟨[], Array.replicate size 0, Array.replicate size Option.none⟩

def placeOf (t : SpanningTree) (v : Nat) : Nat := t.place.getD v 0

def above? (t : SpanningTree) (v : Nat) : Option Nat := t.above.getD v Option.none

/-- Numbers outside the graph are never fresh. -/
def isFresh (t : SpanningTree) (v : Nat) : Bool := t.place.getD v 1 == 0

def meet (t : SpanningTree) (v : Nat) (above : Option Nat) : SpanningTree :=
  { met := v :: t.met
    place := t.place.setIfInBounds v (t.met.length + 1)
    above := t.above.setIfInBounds v above }

end SpanningTree

namespace Digraph

def openEdges (g : Digraph) (t : SpanningTree) (v : Nat) : List (Nat × Nat) :=
  ((g.successors v).filter t.isFresh).map (v, ·)

/-- Follows the first edge on the stack whose end is still fresh. Every step meets a node, so `fuel`
need not exceed the number of nodes. -/
def spanFrom (g : Digraph) : (fuel : Nat) → List (Nat × Nat) → SpanningTree → SpanningTree
  | 0, _, t => t
  | fuel + 1, stack, t =>
    match stack.dropWhile fun e => !t.isFresh e.2 with
    | [] => t
    | (v, w) :: stack =>
      let t := t.meet w (some v)
      g.spanFrom fuel (g.openEdges t w ++ stack) t

def spanningTree (g : Digraph) (root : Nat) : SpanningTree :=
  let t := (SpanningTree.none g.size).meet root none
  g.spanFrom g.size (g.openEdges t root) t

end Digraph

end ScriptFlow
