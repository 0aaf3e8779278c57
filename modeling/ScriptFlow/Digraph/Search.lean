/-! Finite directed graphs and the orders in which a search meets their nodes. -/

namespace ScriptFlow

/-- Nodes are the numbers below `size`; `succ` and `pred` list their neighbours. -/
structure Digraph where
  succ : Array (List Nat)
  pred : Array (List Nat)
deriving DecidableEq

namespace Digraph

variable (g : Digraph)

def size (g : Digraph) : Nat := g.succ.size

def successors (v : Nat) : List Nat := g.succ.getD v []

def predecessors (v : Nat) : List Nat := g.pred.getD v []

/-- Both neighbour lists keep the order of the edges, repetitions included. -/
def ofEdges (size : Nat) (edges : List (Nat × Nat)) : Digraph :=
  let none := Array.replicate size []
  { succ := edges.foldl (fun a e => a.modify e.1 (· ++ [e.2])) none
    pred := edges.foldl (fun a e => a.modify e.2 (· ++ [e.1])) none }

def reverse : Digraph := ⟨g.pred, g.succ⟩

/-- Nodes that a search may still take up. Numbers outside the graph are never fresh. -/
abbrev Fresh := Array Bool

def allFresh : Fresh := Array.replicate g.size true

def Fresh.holds (fresh : Fresh) (v : Nat) : Bool := fresh.getD v false

def Fresh.take (fresh : Fresh) (v : Nat) : Fresh := fresh.setIfInBounds v false

/-- Puts the fresh ones among `nodes` on the stack, the first one on top. A node is no longer fresh
once it is on the stack. -/
def stackUp (nodes stack : List Nat) (fresh : Fresh) : List Nat × Fresh :=
  nodes.foldr
    (fun v (stack, fresh) =>
      if fresh.holds v then (v :: stack, fresh.take v) else (stack, fresh))
    (stack, fresh)

/-- Every step takes one node off the stack, and no node gets there twice, so `fuel` need not exceed
the number of nodes. -/
def searchFrom (g : Digraph) : (fuel : Nat) → List Nat → Fresh → List Nat
  | 0, _, _ => []
  | _, [], _ => []
  | fuel + 1, v :: stack, fresh =>
    let (stack, fresh) := stackUp (g.successors v) stack fresh
    v :: g.searchFrom fuel stack fresh

/-- The nodes reached from `start`, in the order they are taken off the stack. -/
def search (start : Nat) : List Nat :=
  let (stack, fresh) := stackUp [start] [] g.allFresh
  g.searchFrom g.size stack fresh

/-- What a traversal has on its stack: a node to enter, or one to leave when its successors are
finished. -/
inductive Visit where
  | enter (v : Nat)
  | leave (v : Nat)
deriving DecidableEq

theorem Fresh.count_take {fresh : Fresh} {v : Nat} (is_fresh : fresh.holds v = true) :
    (fresh.take v).count true < fresh.count true := by
  rw [Fresh.holds, Array.getD_eq_getD_getElem?] at is_fresh
  obtain ⟨inside, here⟩ : ∃ inside : v < fresh.size, fresh[v] = true := by grind
  have some_fresh : 0 < fresh.count true := Array.count_pos_iff.mpr (here ▸ Array.getElem_mem inside)
  rw [Fresh.take, Array.setIfInBounds_def, dif_pos inside, Array.count_set, here]
  exact Nat.sub_lt some_fresh Nat.one_pos

def edgeCount : Nat := g.succ.toList.flatten.length

theorem length_successors_le (g : Digraph) (v : Nat) : (g.successors v).length ≤ g.edgeCount := by
  rw [successors, Array.getD_eq_getD_getElem?]
  cases listed : g.succ[v]? with
  | none => exact Nat.zero_le _
  | some ws =>
    exact (List.sublist_flatten_of_mem (Array.mem_of_getElem? listed).val).length_le

/-- Puts each node in front of `done` when it is left. A node may stand on the stack several times, and
is taken up once. -/
def finishFrom (g : Digraph) (stack : List Visit) (fresh : Fresh) (done : List Nat) : List Nat :=
  match stack with
  | [] => done
  | .leave v :: stack => g.finishFrom stack fresh (v :: done)
  | .enter v :: stack =>
    if fresh.holds v then
      let next := ((g.successors v).filter (fresh.take v).holds).map Visit.enter
      g.finishFrom (next ++ .leave v :: stack) (fresh.take v) done
    else g.finishFrom stack fresh done
termination_by fresh.count true * (g.edgeCount + 1) + stack.length
decreasing_by
  · exact Nat.add_lt_add_left (Nat.lt_succ_self _) _
  · have fewer := Nat.mul_le_mul_right (g.edgeCount + 1) (Fresh.count_take ‹_›)
    have short := Nat.le_trans (List.length_filter_le (fresh.take v).holds (g.successors v))
      (g.length_successors_le v)
    simp only [List.length_append, List.length_map, List.length_cons, Nat.succ_mul] at fewer short ⊢
    omega
  · exact Nat.add_lt_add_left (Nat.lt_succ_self _) _

/-- Every node before those finished earlier. -/
def reversePostorder (start : Nat) : List Nat :=
  g.finishFrom [.enter start] g.allFresh []

/-- The nodes reached from `start`, in the order a depth-first search leaves them. -/
def postorder (start : Nat) : List Nat := (g.reversePostorder start).reverse

end Digraph

end ScriptFlow
