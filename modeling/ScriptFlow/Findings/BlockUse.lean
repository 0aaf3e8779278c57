import ScriptFlow.FlowGraph.Compact
import ScriptFlow.Propagation.Evaluate

/-! How a body uses the block passed to it, found by propagating once without and once with one. -/

namespace ScriptFlow

namespace FlowGraph

variable (c : ClassTable) (g : FlowGraph)

/-- The binding `b` holds the block of the method. -/
abbrev Aliases := List BindingId

def Aliases.has (as : Aliases) (o : Operand) : Bool := o.binding?.any as.contains

/-- A procedure made from the block of the method. -/
def isCapture (s : CallSite) : Bool :=
  s.method == "new" && s.block.isNone &&
    s.methods.any fun m => (c.method m).owner == c.singletonOf CoreClass.proc

/-- The bindings that an instruction makes aliases of the block. -/
def newAliases (as : Aliases) : Instr → List BindingId
  | .assign t s => if as.has s then [t] else []
  | .phi t operands => if operands.any fun o => as.contains o.2 then [t] else []
  | .param t .block .method => [t]
  | .declare (.alias a v) =>
    if as.has v then a.binding?.toList else if as.has a then v.binding?.toList else []
  | .call s => if isCapture c s then s.target.toList else []
  | _ => []

/-- Every round but the last finds a new alias. -/
def aliasRounds (c : ClassTable) (g : FlowGraph) : (fuel : Nat) → Aliases → Aliases
  | 0, as => as
  | fuel + 1, as =>
    let found := g.allInstrs.foldl
      (fun as i => (newAliases c as (g.instr i)).foldl (fun as v => insertNat v as) as) as
    if found.length = as.length then as else aliasRounds c g fuel found

def blockAliases : Aliases :=
  match g.blockRegister with
  | some b => aliasRounds c g (g.bindings.size + 1) [b]
  | none => []

/-- The methods that run a procedure. -/
def blockInvokers : List String := ["call", "yield", "[]", "===", "()"]

def callArity (s : CallSite) : Arity :=
  if s.kind.isVararg then
    match s.args.head?.bind (·.binding?) with
    | some v => (((g.binding v).ty.asTuple?).map fun ts => Arity.exactly ts.length).getD .any
    | none => .any
  else .exactly s.args.length

def executedCalls : List CallSite :=
  (g.allInstrs.filter fun i => g.isExecuted (g.blockOf i)).filterMap fun i => (g.instr i).site?

/-- Whether some method runs its block; the rest are not asked once one does. -/
def anyCallsBlock {σ : Type} (source : Summaries σ) : List MethodId → StateM σ Bool
  | [] => pure false
  | m :: ms => do
    if (← source.blockUse m).all (·.mayCall) then return true else anyCallsBlock source ms

/-- Whether the block is called, and with how many arguments. -/
def addBlockCall {σ : Type} (source : Summaries σ) (g : FlowGraph) (as : Aliases)
    (found : Bool × List Arity) (s : CallSite) : StateM σ (Bool × List Arity) := do
  let (calls, arities) := found
  if s.frequency.isNone then return found
  else if as.has s.receiver && blockInvokers.contains s.method then
    let a := g.callArity s
    return (true, if arities.contains a then arities else arities ++ [a])
  else if s.block.any as.has then
    let passedOn ← anyCallsBlock source s.methods
    return (calls || passedOn, arities)
  else return found

def blockCalls {σ : Type} (source : Summaries σ) (g : FlowGraph) :
    StateM σ (Bool × List Arity) :=
  g.executedCalls.foldlM (addBlockCall source g (blockAliases c g)) (false, [])

def failsWithoutBlock : Bool :=
  g.isExecuted yieldFail ||
    let as := blockAliases c g
    g.executedCalls.any fun s => as.has s.receiver && s.frequency == some .always

end FlowGraph

namespace Propagation

variable {σ : Type} (p : Propagation σ)

def opaqueBlock : Value := .proc ⟨4294967295, none, false⟩

/-- Propagates through a copy of the graph. -/
def analyzeCopy (s : Specialization) : EStateM Error (FlowGraph × σ) FlowGraph := fun (g, source) =>
  match { p with specialization := s }.analyze (g.duplicate, source) with
  | .ok _ (copy, source) => .ok copy (g, source)
  | .error e (_, source) => .error e (g, source)

def recordBlockUse (use : BlockUse) (arities : List Arity) : EStateM Error (FlowGraph × σ) Unit :=
  modify fun (g, source) =>
    ({ g with summary := { g.summary with blockUse := some use, blockArities := arities } }, source)

/-- A program, which has no block, ignores it. -/
def analyzeBlockUse : EStateM Error (FlowGraph × σ) BlockUse := do
  if (← get).1.blockRegister.isNone then
    recordBlockUse .ignored []
    return .ignored
  else
    let without ← p.analyzeCopy { p.specialization with block := some .nil }
    let with_ ← p.analyzeCopy (p.specialization.withBlockValue p.table opaqueBlock)
    let (calls, arities) ← modifyGet fun (g, source) =>
      let (found, source) := (with_.blockCalls p.table p.source).run source
      (found, (g, source))
    let use := BlockUse.classify calls (without.failsWithoutBlock p.table)
    recordBlockUse use arities
    return use

end Propagation

end ScriptFlow
