import ScriptFlow.Core.Evaluate
import ScriptFlow.Dispatch.Aggregate
import ScriptFlow.Propagation.Run

/-! Evaluation of calls. A call is decided by the first of these that applies: core methods whose
meaning depends on the body they are called in, folds over types, running a pure method on known
operands, and the joint summary of all methods it may reach. -/

namespace ScriptFlow.Propagation

variable {σ : Type}

structure Evaluation where
  cell : Cell
  ty : Ty
  raises : Ty
  frequency : Frequency
  decision : Decision
  methods : List MethodId
  callsBlock : Bool
  arityMismatch : Bool
deriving Inhabited

/-- Some types have one value only. -/
def cellOf (t : Ty) : Cell :=
  if t.isEmpty then .undefined
  else if t = .nil then .known .nil
  else if t = .exact CoreClass.trueClass then .known (.bool true)
  else if t = .exact CoreClass.falseClass then .known (.bool false)
  else .varying

namespace Evaluation

def folded (x : Component) (decision : Decision) (methods : List MethodId) : Evaluation :=
  { cell := x.cell, ty := x.ty, raises := .empty, frequency := .never, decision, methods,
    callsBlock := false, arityMismatch := false }

def raised (t : Ty) (decision : Decision) (methods : List MethodId) : Evaluation :=
  { cell := .undefined, ty := .empty, raises := t, frequency := .always, decision, methods,
    callsBlock := false, arityMismatch := false }

def ofDispatch (d : DispatchResult) : Evaluation :=
  { cell := cellOf d.returns, ty := d.returns, raises := d.raises, frequency := d.frequency,
    decision := d.decision, methods := d.methods, callsBlock := d.callsBlock,
    arityMismatch := d.arityMismatch }

end Evaluation

/-- A call with its operands. The arguments are missing when they are not known one by one. -/
structure Call where
  instr : InstrId
  isSuper : Bool
  ignoreVisibility : Bool
  receiver : Component
  name : String
  args : Option (List Component)
  block : Option Component

/-- Core methods that are decided by the body around the call. -/
inductive Contextual where
  | blockGiven
  | newProc
  | getVariable
  | setVariable
  | send (isPublic : Bool)
  | raise

def Contextual.ofMethod? (c : ClassTable) (m : MethodRecord) : Option Contextual :=
  if !m.builtin then none
  else if m.owner = CoreClass.kernel then
    match m.name with
    | "block_given?" => some .blockGiven
    | "instance_variable_get" => some .getVariable
    | "instance_variable_set" => some .setVariable
    | "send" | "__send__" => some (.send false)
    | "public_send" => some (.send true)
    | "raise" => some .raise
    | _ => none
  else if m.owner = c.singletonOf CoreClass.proc ∧ m.name = "new" then some .newProc
  else none

variable (p : Propagation σ)

/-- The class that `raise` raises, given its arguments. -/
def raisedBy : List Component → Ty
  | [] => .exact CoreClass.runtimeError
  | first :: _ =>
    if p.table.isSubtype first.ty (.exact CoreClass.string) then .exact CoreClass.runtimeError
    else
      let instances := p.table.instancesOf first.ty
      let exception := Ty.orBelow CoreClass.exception
      if !instances.isEmpty && p.table.isSubtype instances exception then instances
      else exception.join (.exact CoreClass.typeError)

def nameOf? (x : Component) : Option String := x.cell.value?.bind (·.asName?)

/-- An instance variable has its declared type, or else nil and what this graph assigns to it. -/
def variableType (r : Run σ) (name : String) (k : ModuleId) : Ty :=
  match p.table.variableType? k name with
  | some t => t
  | none => Ty.nil.join (r.variableType (k, name))

def readVariable (call : Call) (name : String) (methods : List MethodId) :
    StateM (Run σ) Evaluation := do
  if call.receiver.ty.isTop then return .folded (.varying .top) .special methods
  else
    let classes := p.table.possibleClasses call.receiver.ty
    let r ← get
    let t := classes.foldl (fun t k => t.join (p.variableType r name k)) .empty
    set (classes.foldl (fun r k => r.addReader call.instr (k, name)) r)
    let cell := if t.isEmpty then .varying else cellOf t
    return .folded ⟨cell, t⟩ .special methods

def writeVariable (call : Call) (name : String) (value : Component) (methods : List MethodId) :
    StateM (Run σ) Evaluation := do
  if !call.receiver.ty.isTop then
    modify fun r => (p.table.possibleClasses call.receiver.ty).foldl
      (fun r k => r.assignVariable value.ty (k, name)) r
  return .folded value .special methods

def procOfBlock (methods : List MethodId) : Option Evaluation :=
  match p.specialization.block, p.specialization.blockValue with
  | some t, v =>
    if t = .nil then some (.raised (.exact CoreClass.argumentError) .special methods)
    else v.map fun v => .folded ⟨.known v, t⟩ .special methods
  | none, _ => none

/-- Decides a contextual core method. `again` makes a call by another name with the arguments after
the first. -/
def decideContextual (call : Call) (methods : List MethodId)
    (again : String → Bool → StateM (Run σ) Evaluation) (m : Contextual) :
    StateM (Run σ) (Option Evaluation) := do
  match m, call.args with
  | .blockGiven, some [] =>
    return (p.specialization.blockGiven? p.table).map fun given =>
      .folded (.known p.table (.bool given)) .special methods
  | .newProc, some [] => return if call.block.isNone then p.procOfBlock methods else none
  | .getVariable, some [name] =>
    match nameOf? name with
    | some name => some <$> p.readVariable call name methods
    | none => return none
  | .setVariable, some [name, value] =>
    match nameOf? name with
    | some name => some <$> p.writeVariable call name value methods
    | none => return none
  | .send isPublic, some (selector :: _) =>
    match nameOf? selector with
    | some name => some <$> again name (!isPublic)
    | none => return some (.ofDispatch .unknown)
  | .raise, some args => return some (.raised (p.raisedBy args) .special methods)
  | _, _ => return none

def simulateCall (r : Resolver) (res : Resolution) (call : Call) : Option Evaluation := do
  guard p.config.simulate
  guard (call.block.all fun b => b.cell = .known .nil)
  let id ← res.soleMethod?
  let m := p.table.method id
  guard (m.pure || m.name == "const_get")
  let args ← call.args
  guard (r.fits id args.length)
  let receiver ← call.receiver.cell.value?
  let values ← args.mapM (·.cell.value?)
  match p.table.simulate id receiver values with
  | .value v => some (.folded (.known p.table v) .simulated res.methods)
  | .raised t => some (.raised t .simulated res.methods)
  | .unavailable => none

def summarized (r : Resolver) (res : Resolution) (call : Call) : StateM (Run σ) Evaluation := do
  let block := (call.block.map (·.ty)).getD .nil
  let args := call.args.map fun xs => xs.map (·.ty)
  modifyGet fun run =>
    let (d, source) := (r.aggregate p.source res args block).run run.source
    (.ofDispatch d, { run with source })

def resolver (g : FlowGraph) : Resolver :=
  { (Resolver.ofTable p.table).withCaller (p.selfType g) with
    refinePrivacy := p.config.refinePrivacy }

def resolveCall (g : FlowGraph) (call : Call) : Resolution :=
  let r := p.resolver g
  if call.isSuper then r.resolveSuper call.receiver.ty g.scope.lexical call.name
  else r.resolve call.receiver.ty call.name call.ignoreVisibility

def dispatchOnce (call : Call) (again : String → Bool → StateM (Run σ) Evaluation) :
    StateM (Run σ) Evaluation := do
  let g := (← get).graph
  let res := p.resolveCall g call
  let contextual := res.soleMethod?.bind fun id => Contextual.ofMethod? p.table (p.table.method id)
  let decided ←
    match contextual with
    | some m => p.decideContextual call res.methods again m
    | none => pure none
  match decided with
  | some e => return e
  | none =>
    match call.args.bind (foldSpecial p.table res call.name call.receiver) with
    | some x => return .folded x .special res.methods
    | none =>
      match p.simulateCall (p.resolver g) res call with
      | some e => return e
      | none => p.summarized (p.resolver g) res call

/-- A call with known arguments. `send` calls again with one argument less. -/
def dispatchKnown : List Component → Call → StateM (Run σ) Evaluation
  | [], call => p.dispatchOnce { call with args := some [] } fun _ _ => pure default
  | x :: xs, call =>
    p.dispatchOnce { call with args := some (x :: xs) } fun name ignoreVisibility =>
      dispatchKnown xs { call with name, ignoreVisibility }

def dispatch (call : Call) : StateM (Run σ) Evaluation :=
  match call.args with
  | some args => p.dispatchKnown args call
  | none => p.dispatchOnce call fun _ _ => pure default

/-- The items of an array passed as arguments, when their number is known. -/
def unpack? (x : Component) : Option (List Component) :=
  match x.cell with
  | .known (.array items) => some (items.map (.known p.table))
  | _ => x.ty.asTuple?.map fun ts => ts.map .varying

def mismatchMessage (method : String) : String :=
  "no candidate of `" ++ method ++ "` accepts the given arguments"

/-- Records what was found out about a call. The frequency replaces the one found before: a call
that seemed to raise always may turn out to raise only now and then. Edges taken for the earlier
frequency stay taken. -/
def record (i : InstrId) (block : BlockId) (site : CallSite) (e : Evaluation) (r : Run σ) : Run σ :=
  let s := (r.graph.instr i).site?.getD site
  let (grew, raises) := s.raises.extend e.raises
  let changed := grew || s.frequency != some e.frequency
  let s := { s with
    raises, frequency := some e.frequency, decision := e.decision
    methods := e.methods.foldl (fun ms m => insertNat m ms) s.methods }
  let r := { r with
    graph := r.graph.setInstr i (.call s)
    blockCallers := if e.callsBlock then insertNat i r.blockCallers else r.blockCallers }
  let r :=
    if e.arityMismatch then
      r.report ⟨.noMatchingSignature, some block, some i, mismatchMessage site.method⟩
    else r
  let r :=
    match site.target with
    | some t => r.learn t e.cell e.ty
    | none => r
  if changed then r.notifyRaise block else r

/-- A call waits until something is known of all its operands. -/
def evaluateCall (i : InstrId) (block : BlockId) (site : CallSite) : StateM (Run σ) Unit := do
  let g := (← get).graph
  let receiver := p.operand g site.receiver
  let args := site.args.map (p.operand g)
  let passed := site.block.map (p.operand g)
  if (receiver :: args ++ passed.toList).any (·.cell.isUndefined) then return
  let e ← p.dispatch
    { instr := i, isSuper := site.kind.isSuper, ignoreVisibility := site.ignoreVisibility,
      receiver, name := site.method,
      args := if site.kind.isVararg then args.head?.bind p.unpack? else some args,
      block := passed }
  modify (record i block site e)

end ScriptFlow.Propagation
