import ScriptFlow.Propagation.Call
import ScriptFlow.Propagation.Parameters

/-! Conditional constant propagation with types. Starting from the entry, blocks are visited as ways
into them are found, and instructions are evaluated again when what they read changes. -/

namespace ScriptFlow.Propagation

variable {σ : Type} (p : Propagation σ)

/-- The finding about an array of `count` items that is taken apart into `size` targets. -/
def sizeFinding? (test : SizeTest) (size count : Nat) : Option (FindingKind × String) :=
  let discarded := (.discardedRhs, toString count ++ " value(s) assigned to " ++ toString size ++
    " target(s); the rest are discarded")
  let unassigned := (.unassignedLhs, toString size ++ " target(s) but only " ++ toString count ++
    " value(s); the rest are nil")
  match test with
  | .equal => if size < count then some discarded else if count < size then some unassigned else none
  | .greater => if count < size then some unassigned else none
  | .less => if size ≤ count then some discarded else none

def evaluateSize (i : InstrId) (b : BlockId) (test : SizeTest) (size : Nat) (array : Operand)
    (r : Run σ) : Run σ :=
  match (p.operand r.graph array).ty.asTuple? with
  | some ts =>
    match sizeFinding? test size ts.length with
    | some (kind, message) => r.report ⟨kind, some b, some i, message⟩
    | none => r
  | none => r

/-- A phi joins what comes in over the executable edges. -/
def phiValue (g : FlowGraph) (b : BlockId) (operands : List (BlockId × BindingId)) : Component :=
  operands.foldl
    (fun x (a, v) =>
      if (g.edge? a b).any (·.executable) then
        ⟨x.cell.join (g.binding v).cell, x.ty.join (g.binding v).ty⟩
      else x)
    ⟨.undefined, .empty⟩

def storeGlobal (name : String) (value : Operand) (r : Run σ) : Run σ :=
  let t := (p.operand r.graph value).ty
  let before := (r.graph.globals.get? name).getD .empty
  { r with graph := { r.graph with globals := r.graph.globals.put name (before.join t) } }

def learnComponent (target : BindingId) (x : Component) (r : Run σ) : Run σ :=
  r.learn target x.cell x.ty

def evaluateInstr (i : InstrId) (b : BlockId) : Instr → StateM (Run σ) Unit
  | .assign t s => modify fun r => learnComponent t (p.operand r.graph s) r
  | .phi t operands => modify fun r => learnComponent t (phiValue r.graph b operands) r
  | .call site => p.evaluateCall i b site
  | .param t param frame => modify fun r => learnComponent t (p.parameter r.graph b frame param) r
  | .raise _ => modify (·.notifyRaise b)
  | .storeGlobal name v => modify (p.storeGlobal name v)
  | .declare (.expectSize test size array) => modify (p.evaluateSize i b test size array)
  | .declare (.alias _ _) | .jump _ | .branch _ _ _ | .returnWith _ => pure ()

/-- Evaluates an instruction; the last one of a block decides where control goes on. -/
def evaluate (i : InstrId) : StateM (Run σ) Unit := do
  modify fun r => { r with evaluations := r.evaluations + 1 }
  let g := (← get).graph
  let b := g.blockOf i
  p.evaluateInstr i b (g.instr i)
  modify fun r => if (r.graph.block b).instrs.getLast? = some i then r.updateEdges b else r

/-- Whether an instruction depends on the way its block was entered. -/
def dependsOnEntry : Instr → Bool
  | .phi _ _ => true
  | .param _ .justRaised _ => true
  | _ => false

/-- The first visit evaluates all instructions, later ones only those that depend on the entry. -/
def visit (b : BlockId) : StateM (Run σ) Unit := do
  let r ← get
  let isFirst := !r.visited.contains b
  set { r with visited := insertNat b r.visited, visits := r.visits + 1 }
  (r.graph.block b).instrs.forM fun i => do
    if isFirst || dependsOnEntry ((← get).graph.instr i) then p.evaluate i
  modify (·.updateEdges b)

/-- Takes up the next block, or the next instruction when no block is waiting. -/
def step : StateM (Run σ) Unit := do
  let r ← get
  match r.blocks, r.instrs with
  | b :: blocks, _ =>
    set { r with blocks, steps := r.steps + 1 }
    p.visit b
  | [], i :: instrs =>
    set { r with instrs, steps := r.steps + 1 }
    if r.visited.contains (r.graph.blockOf i) then p.evaluate i
  | [], [] => pure ()

def Run.isDone (r : Run σ) : Bool := r.blocks.isEmpty && r.instrs.isEmpty

def loop : (fuel : Nat) → Run σ → Run σ
  | 0, r => r
  | fuel + 1, r => if r.isDone then r else loop fuel (p.step.run r).2

/-- Without a limit, this many steps are as good as endless. -/
def endless : Nat := 0x7fffffffffffffff

structure Stats where
  steps : Nat
  visits : Nat
  evaluations : Nat
  executedBlocks : Nat
deriving DecidableEq

def knownValues (g : FlowGraph) : Dict BindingId Value :=
  ⟨g.bindingIds.filterMap fun b => (g.binding b).cell.value?.map (b, ·)⟩

/-- Propagates through a graph in single-assignment form. When the limit is reached the graph keeps
what was found out so far. -/
def analyze : EStateM Error (FlowGraph × σ) Stats := fun (g, source) =>
  if !g.isSingle then .error (.form .missing) (g, source)
  else
    let limit := p.config.maxSteps.getD endless
    let r := p.loop limit (.start g.resetPropagation source)
    if r.isDone then
      .ok ⟨r.steps, r.visits, r.evaluations, r.visited.length⟩
        ({ r.graph with constants := knownValues r.graph }, r.source)
    else .error (.iterationLimit limit) (r.graph, r.source)

end ScriptFlow.Propagation
