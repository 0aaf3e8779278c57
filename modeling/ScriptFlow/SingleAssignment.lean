import ScriptFlow.Digraph.Frontier
import ScriptFlow.FlowGraph.Compact
import ScriptFlow.Liveness

/-! Single-assignment form. Where several definitions of a binding meet, a phi selects one of them
by the edge that was taken, and every definition gets a binding of its own, called a generation. -/

namespace ScriptFlow

namespace SingleAssignment

abbrev BlocksOf := Array (List BlockId)

def BlocksOf.of (s : BlocksOf) (v : BindingId) : List BlockId := s.getD v []

def BlocksOf.add (s : BlocksOf) (v : BindingId) (b : BlockId) : BlocksOf := s.modify v (· ++ [b])

/-- For each binding, the generations in force, the latest first. -/
abbrev Stacks := Dict BindingId (List BindingId)

namespace Stacks

def of (s : Stacks) (v : BindingId) : List BindingId := (s.get? v).getD []

def top? (s : Stacks) (v : BindingId) : Option BindingId := (s.of v).head?

def push (s : Stacks) (v n : BindingId) : Stacks := s.put v (n :: s.of v)

def pop (s : Stacks) (v : BindingId) : Stacks :=
  match s.get? v with
  | some names => s.put v names.tail
  | none => s

end Stacks

structure Renaming where
  graph : FlowGraph
  /-- The number of generations of each binding. -/
  generations : Array Nat
  firsts : Array (Option BindingId)
  /-- The generations that stand for reading a binding before it is assigned. -/
  uninitialized : Array (Option BindingId)
  /-- The bindings for which phis were placed. -/
  origins : Dict InstrId BindingId

/-! Placing phis. -/

variable (r : Renaming) (g : FlowGraph) (t : DominatorTree)

/-- A phi selects among all reached ways into its block. -/
def phiFor (v : BindingId) (b : BlockId) : Instr :=
  .phi v (((g.block b).preds.filter t.isReached).map (·, v))

def placePhi (v : BindingId) (r : Renaming) (b : BlockId) : Renaming :=
  { r with
    graph := r.graph.insertPhi b (phiFor r.graph t v b)
    origins := r.origins.put r.graph.instrs.size v }

/-- A binding needs a phi where its definitions, or a definition and its absence at the start of the
graph, meet and it is live. -/
def placePhis (l : Liveness) : Renaming :=
  let fs := (g.view .all).frontiers t
  let defs := g.allInstrs.foldl
    (fun (s : BlocksOf) i =>
      (((g.instr i).target?.map fun v => s.add v (g.blockOf i))).getD s)
    (Array.replicate g.bindings.size [])
  l.globals.foldl
    (fun r v =>
      ((fs.iterated ((defs.of v) ++ [FlowGraph.enter])).filter (l.isLiveIn v)).foldl
        (placePhi t v) r)
    { graph := g
      generations := Array.replicate g.bindings.size 0
      firsts := Array.replicate g.bindings.size none
      uninitialized := Array.replicate g.bindings.size none
      origins := .empty }

/-! Renaming. -/

abbrev InForce := BindingId → Option BindingId

def lookup? (now : InForce) (v : BindingId) : Option BindingId :=
  match now v with
  | some n => some n
  | none => r.uninitialized.getD v none

/-- A binding without a definition in force is nil, set at the start of the graph. -/
def assumeNil (v : BindingId) : Renaming :=
  let source := r.graph.binding v
  let (n, graph) := r.graph.pushBinding
    { Binding.ofName (source.name ++ "#0") source.kind with uninitialized := true }
  { r with
    graph := graph.pushInstr FlowGraph.enter (.assign n .nil)
    uninitialized := r.uninitialized.setIfInBounds v (some n) }

def readName (now : InForce) (r : Renaming) (v : BindingId) : Renaming :=
  if (lookup? r now v).isSome then r else assumeNil r v

def nameOf (now : InForce) (v : BindingId) : BindingId := (lookup? r now v).getD v

def nameOperand (now : InForce) : Operand → Operand
  | .binding v => .binding (nameOf r now v)
  | .const c => .const c

def nextName (v : BindingId) : BindingId × Renaming :=
  let source := r.graph.binding v
  let generation := r.generations.getD v 0 + 1
  let (n, graph) := r.graph.pushBinding
    { Binding.ofName (source.name ++ "#" ++ toString generation) source.kind with generation }
  (n,
    { r with
      graph
      generations := r.generations.setIfInBounds v generation
      firsts := r.firsts.modify v fun first => first.or (some n) })

/-- What an instruction reads is renamed before what it defines. -/
def renameInstr (now : InForce) (r : Renaming) (i : InstrId) :
    Renaming × Option (BindingId × BindingId) :=
  let instr := r.graph.instr i
  let r := if instr.isPhi then r else instr.operands.foldl (readName now) r
  let instr := instr.mapSlots (nameOperand r now)
  match instr.target? with
  | some v =>
    let (n, r) := nextName r v
    ({ r with graph := r.graph.setInstr i (instr.mapTarget fun _ => n) }, some (v, n))
  | none => ({ r with graph := r.graph.setInstr i instr }, none)

def fillPhi (b : BlockId) (now : InForce) (r : Renaming) (i : InstrId) : Renaming :=
  match r.graph.instr i, r.origins.get? i with
  | .phi t operands, some v =>
    let r := readName now r v
    let n := nameOf r now v
    { r with
      graph := r.graph.setInstr i
        (.phi t (operands.map fun o => if o.1 = b then (o.1, n) else o)) }
  | _, _ => r

def leadingPhis (b : BlockId) : List InstrId :=
  (g.block b).instrs.takeWhile fun i => (g.instr i).isPhi

def fillSuccessors (b : BlockId) (now : InForce) (r : Renaming) : Renaming :=
  (r.graph.successors b .all).foldl
    (fun r s => (leadingPhis r.graph s).foldl (fillPhi b now) r) r

/-- Puts what an instruction defines on its stack; `pushed` lists the bindings with a longer
stack. -/
def pushName (state : Renaming × Stacks × List BindingId) (i : InstrId) :
    Renaming × Stacks × List BindingId :=
  let (r, s, pushed) := state
  match renameInstr s.top? r i with
  | (r, some (v, n)) => (r, s.push v n, pushed ++ [v])
  | (r, none) => (r, s, pushed)

def renameBlock (s : Stacks) (b : BlockId) : Renaming × Stacks × List BindingId :=
  let (r, s, pushed) := (r.graph.block b).instrs.foldl pushName (r, s, [])
  (fillSuccessors b s.top? r, s, pushed)

inductive Visit where
  | enter (b : BlockId)
  /-- Takes the latest generation of each binding off its stack. -/
  | leave (pushed : List BindingId)

/-- Walks the tree down, the next visit first. A block is left when all below it are. -/
def renameVisits (t : DominatorTree) : (fuel : Nat) → Renaming → Stacks → List Visit →
    Renaming × Stacks
  | 0, r, s, _ => (r, s)
  | _ + 1, r, s, [] => (r, s)
  | fuel + 1, r, s, .enter b :: visits =>
    let (r, s, pushed) := renameBlock r s b
    renameVisits t fuel r s ((t.children b).map .enter ++ .leave pushed :: visits)
  | fuel + 1, r, s, .leave pushed :: visits =>
    renameVisits t fuel r (pushed.foldl Stacks.pop s) visits

def renameOrphan (state : Renaming × Stacks) (b : BlockId) : Renaming × Stacks :=
  let (r, s, pushed) := renameBlock state.1 state.2 b
  (r, pushed.foldl Stacks.pop s)

/-- Every reached block is entered and left once. -/
def renameAll (r : Renaming) : Renaming :=
  let (r, s) := renameVisits t (2 * r.graph.blocks.size) r .empty [.enter t.entry]
  ((r.graph.liveBlocks.filter fun b => !t.isReached b).foldl renameOrphan (r, s)).1

/-- Registers and formals stand for their first generation. -/
def renameRegisters : FlowGraph :=
  let first (v : BindingId) := (r.firsts.getD v none).getD v
  let g := r.graph
  { g with
    selfRegister := g.selfRegister.map first
    blockRegister := g.blockRegister.map first
    finalReturn := g.finalReturn.map first
    finalException := g.finalException.map first
    formals := g.formals.map fun f => (first f.1, f.2) }

def definitionCounts : Array Nat :=
  (g.allInstrs.filterMap fun i => (g.instr i).target?).foldl (fun a v => a.modify v (· + 1))
    (Array.replicate g.bindings.size 0)

def verify : Except Error Unit :=
  let counts := definitionCounts g
  let count (v : BindingId) := counts.getD v 0
  let isUndefined (v : BindingId) := count v == 0
  let name (v : BindingId) := (g.binding v).name
  match g.bindingIds.find? fun v => 1 < count v with
  | some v => .error (.form (.manyDefinitions (name v) (count v)))
  | none =>
    match (g.allInstrs.flatMap fun i => (g.instr i).operands).find? isUndefined with
    | some v => .error (.form (.neverDefined (name v)))
    | none =>
      match g.bindingIds.find? isUndefined with
      | some v => .error (.form (.noDefinition (name v)))
      | none => .ok ()

end SingleAssignment

namespace FlowGraph

open SingleAssignment

def singleAssignment (g : FlowGraph) : FlowGraph :=
  let t := (g.view .all).dominators enter
  let g := renameRegisters (renameAll t (placePhis g t g.liveness))
  { g.rebuildUses with isSingle := true, live := .empty }.duplicate

/-- Converts the graph and checks the result. A graph that does not pass the check stays converted. -/
def toSingleAssignment : EStateM Error FlowGraph Unit := fun g =>
  if g.isSingle then .error (.form .already) g
  else
    let g := g.singleAssignment
    match verify g with
    | .ok _ => .ok () g.annotateLiveness
    | .error e => .error e g

end FlowGraph

end ScriptFlow
