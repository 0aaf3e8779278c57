import ScriptFlow.Proofs.FlowGraph.Basic

/-! Which definitions the instructions read along a path through a graph. Instead of values, bindings
hold the places where their values were written. -/

namespace ScriptFlow

/-- A value is the nil that every binding holds at first, or was written on a visit of a block, by
the instruction that comes after `index` others of the program there. -/
inductive Origin where
  | initial
  | written (visit index : Nat)
deriving DecidableEq, Inhabited

def Store := BindingId → Origin

namespace Store

def initial : Store := fun _ => .initial

def put (s : Store) (v : BindingId) (o : Origin) : Store := fun u => if u = v then o else s u

/-- Constants are not read from anywhere. -/
def read (s : Store) : Operand → Option Origin
  | .binding v => some (s v)
  | .const _ => none

def define (s : Store) (x : Instr) (o : Origin) : Store := x.target?.elim s fun v => s.put v o

end Store

/-- What the instructions of the program read, operand by operand. -/
abbrev Reads := List (List (Option Origin))

namespace FlowGraph

variable (g : FlowGraph)

/-- Sets a binding to nil that is read before it is assigned. -/
def isFallback : Instr → Bool
  | .assign v o => o == .nil && (g.binding v).uninitialized
  | _ => false

/-- The instruction is there for the program, and not for its single-assignment form. -/
def isProgram (x : Instr) : Bool := !x.isPhi && !g.isFallback x

def passPhi (p : BlockId) (old s : Store) : Instr → Store
  | .phi t os => (os.lookup p).elim s fun n => s.put t (old n)
  | _ => s

/-- The phis of a block read, all at once, what they have for the block that was just left. -/
def passPhis (p : BlockId) (s : Store) (b : BlockId) : Store :=
  (g.code b).foldl (passPhi p s) s

def passInstr (visit : Nat) (state : Store × Reads) (x : Instr) : Store × Reads :=
  let (s, log) := state
  if x.isPhi then (s, log)
  else if g.isFallback x then (s.define x .initial, log)
  else (s.define x (.written visit log.length), log ++ [x.slots.map s.read])

def passBlock (visit : Nat) (s : Store) (b : BlockId) : Store × Reads :=
  (g.code b).foldl (g.passInstr visit) (s, [])

/-- What is read on a path that is in block `b`, with its phis passed, and goes on over the blocks of
the list. -/
def readsFrom (visit : Nat) (s : Store) (b : BlockId) : List BlockId → List Reads
  | [] => [(g.passBlock visit s b).2]
  | c :: rest =>
    (g.passBlock visit s b).2 ::
      readsFrom (visit + 1) (g.passPhis b (g.passBlock visit s b).1 c) c rest

/-- What is read on a path from the start of the graph, visit by visit. -/
def reads (path : List BlockId) : List Reads := g.readsFrom 0 .initial enter path

/-- The blocks follow one another over edges of the graph, from its start. -/
def IsPath (path : List BlockId) : Prop :=
  List.IsChain (fun a b => b ∈ g.succIds a) (enter :: path)

end FlowGraph

end ScriptFlow
