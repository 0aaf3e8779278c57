import ScriptFlow.Digraph.Dominance

/-! Dominance frontiers: the first nodes at which the influence of a node meets another one. -/

namespace ScriptFlow

/-- For each node, its frontier in ascending order. -/
abbrev Frontiers := Array (List Nat)

/-- A search along frontiers: the nodes that were met, ascending, all nodes that ever waited for their
visit, and those that wait, the next one first. -/
structure FrontierSearch where
  found : List Nat
  queued : List Nat
  pending : List Nat

/-- A node waits only once, and a seed does from the start. -/
def FrontierSearch.meet (s : FrontierSearch) (m : Nat) : FrontierSearch :=
  if s.found.contains m then s
  else if s.queued.contains m then { s with found := insertNat m s.found }
  else ⟨insertNat m s.found, m :: s.queued, m :: s.pending⟩

namespace Frontiers

def of (fs : Frontiers) (v : Nat) : List Nat := fs.getD v []

def add (fs : Frontiers) (v m : Nat) : Frontiers :=
  fs.modify v fun ms => if ms.contains m then ms else ms ++ [m]

/-- Above all numbers in the frontiers. -/
def span (fs : Frontiers) : Nat := fs.toList.flatten.foldr (fun m n => max (m + 1) n) 0

/-- Visits the nodes that wait, with enough fuel until none does. -/
def iterate (fs : Frontiers) : Nat → FrontierSearch → FrontierSearch
  | 0, s => s
  | fuel + 1, s =>
    match s.pending with
    | [] => s
    | v :: pending => fs.iterate fuel ((fs.of v).foldl FrontierSearch.meet { s with pending })

/-- Every visit uses up a seed or a node of some frontier. -/
def search (fs : Frontiers) (seeds : List Nat) : FrontierSearch :=
  fs.iterate (seeds.length + fs.span) { found := [], queued := seeds, pending := seeds.reverse }

/-- The least set that holds the frontiers of the seeds and of its own members, ascending. -/
def iterated (fs : Frontiers) (seeds : List Nat) : List Nat := (fs.search seeds).found

end Frontiers

namespace Digraph

/-- The nodes with `m` in their frontier, found by going up from the predecessors of `m`. Only nodes
where reached edges meet are in a frontier. -/
def frontierSources (g : Digraph) (t : DominatorTree) (m : Nat) : List Nat :=
  let preds := (g.predecessors m).filter t.isReached
  if t.isReached m && 2 ≤ preds.length then
    preds.flatMap fun p => (t.chain p).takeWhile fun v => t.parent? m != some v
  else []

def frontiers (g : Digraph) (t : DominatorTree) : Frontiers :=
  (List.range g.size).foldl
    (fun fs m => (g.frontierSources t m).foldl (fun fs v => fs.add v m) fs)
    (Array.replicate g.size [])

end Digraph

end ScriptFlow
