import ScriptFlow.Digraph.SpanningTree

/-! Semidominators, and from them dominators, after Lengauer and Tarjan. The nodes of a spanning tree
are settled one by one, the latest first. The settled ones form a forest, each linked to a node above
it; links are shortened whenever they are followed. -/

namespace ScriptFlow

structure Semidominators where
  /-- A node that is not settled stands for itself. -/
  semi : Array Nat
  link : Array (Option Nat)
  /-- The node with the earliest semidominator from each node up to its link, the link excluded. -/
  best : Array Nat
  /-- The settled nodes with a given semidominator whose dominator is not looked for yet. -/
  waiting : Array (List Nat)
  /-- The dominator, or a node with the same dominator. -/
  dominator : Array (Option Nat)
deriving DecidableEq

namespace Semidominators

def start (size : Nat) : Semidominators where
  semi := Array.range size
  link := Array.replicate size none
  best := Array.range size
  waiting := Array.replicate size []
  dominator := Array.replicate size none

variable (s : Semidominators)

def semiOf (v : Nat) : Nat := s.semi.getD v v

def link? (v : Nat) : Option Nat := s.link.getD v none

def bestOf (v : Nat) : Nat := s.best.getD v v

def waitingFor (v : Nat) : List Nat := s.waiting.getD v []

def dominator? (v : Nat) : Option Nat := s.dominator.getD v none

/-- The nodes from `v` up whose link is linked itself. Links lead to earlier nodes, so `fuel` need not
exceed the number of nodes. -/
def trail : (fuel : Nat) → Nat → List Nat
  | 0, _ => []
  | fuel + 1, v =>
    match s.link? v with
    | some a => if (s.link? a).isSome then v :: trail fuel a else []
    | none => []

def shorten (t : SpanningTree) (v : Nat) (s : Semidominators) : Semidominators :=
  match s.link? v with
  | some a =>
    let upper := s.bestOf a
    let better := t.placeOf (s.semiOf upper) < t.placeOf (s.semiOf (s.bestOf v))
    { s with
      link := s.link.setIfInBounds v (s.link? a)
      best := if better then s.best.setIfInBounds v upper else s.best }
  | none => s

def compress (t : SpanningTree) (v : Nat) : Semidominators :=
  (s.trail s.link.size v).foldr (shorten t) s

/-- The node with the earliest semidominator among the settled ones from `v` up; `v` itself where it
is not settled. -/
def eval (t : SpanningTree) (v : Nat) : Nat × Semidominators :=
  if (s.link? v).isSome then
    let s := s.compress t v
    (s.bestOf v, s)
  else (v, s)

def lower (t : SpanningTree) (w : Nat) (s : Semidominators) (v : Nat) : Semidominators :=
  if t.placeOf v = 0 then s
  else
    let (u, s) := s.eval t v
    if t.placeOf (s.semiOf u) < t.placeOf (s.semiOf w) then
      { s with semi := s.semi.setIfInBounds w (s.semiOf u) }
    else s

def release (t : SpanningTree) (p : Nat) (s : Semidominators) (v : Nat) : Semidominators :=
  let (u, s) := s.eval t v
  let found := if s.semiOf u = s.semiOf v then p else u
  { s with dominator := s.dominator.setIfInBounds v (some found) }

def enlist (w p : Nat) : Semidominators :=
  { s with
    waiting := s.waiting.modify (s.semiOf w) (· ++ [w])
    link := s.link.setIfInBounds w (some p) }

def dismiss (p : Nat) : Semidominators := { s with waiting := s.waiting.setIfInBounds p [] }

def releaseAll (t : SpanningTree) (p : Nat) : Semidominators :=
  (s.waitingFor p).foldl (release t p) (s.dismiss p)

def settle (g : Digraph) (t : SpanningTree) (s : Semidominators) (w : Nat) : Semidominators :=
  match t.above? w with
  | some p => (((g.predecessors w).foldl (lower t w) s).enlist w p).releaseAll t p
  | none => s

/-- Takes the dominator of the node that was found to have the same one. -/
def conclude (w : Nat) (s : Semidominators) : Semidominators :=
  match s.dominator? w with
  | some u =>
    if u = s.semiOf w then s
    else { s with dominator := s.dominator.setIfInBounds w (s.dominator? u) }
  | none => s

end Semidominators

namespace Digraph

/-- The dominators found for the nodes of a spanning tree other than its root. Conclusions start from
the earliest node. -/
def semidominators (g : Digraph) (t : SpanningTree) : Semidominators :=
  let nodes := t.met.dropLast
  nodes.foldr Semidominators.conclude (nodes.foldl (Semidominators.settle g t) (.start g.size))

end Digraph

end ScriptFlow
