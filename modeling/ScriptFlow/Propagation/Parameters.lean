import ScriptFlow.Propagation.Run

/-! What is known of the things that a body gets from its caller. -/

namespace ScriptFlow.Propagation

variable {σ : Type} (p : Propagation σ)
variable (g : FlowGraph)

/-- A procedure or nothing. -/
def anyBlock : Ty := (Ty.exact CoreClass.proc).join .nil

/-- The types thrown into a block by the calls and raises that lead to it, also through blocks
without instructions. Every step takes one block off the stack. -/
def raisedInto (g : FlowGraph) : (fuel : Nat) → List BlockId → List BlockId → Ty → Ty
  | 0, _, _, raised => raised
  | _, [], _, raised => raised
  | fuel + 1, b :: stack, seen, raised =>
    if seen.contains b then raisedInto g fuel stack seen raised
    else
      let sources := (g.block b).preds.filter fun a =>
        (g.edge? a b).any fun f => f.executable && f.isException
      let thrown (a : BlockId) : Ty :=
        match (g.block a).instrs.getLast?.map g.instr with
        | some (.call s) => s.raises
        | some (.raise v) => (p.operand g v).ty
        | _ => .empty
      let passing := sources.filter fun a => (g.block a).instrs.isEmpty
      raisedInto g fuel (passing.reverse ++ stack) (b :: seen)
        (sources.foldl (fun t a => t.join (thrown a)) raised)

/-- The exceptions that a landing block may read. -/
def justRaised (b : BlockId) : Ty :=
  p.raisedInto g (Run.edgeCount g + 1) [b] [] .empty

/-- The receiver is known when its type is that of one class or module itself. -/
def knownSelf (t : Ty) : Cell :=
  match t.members with
  | [.cls m .exact] =>
    match p.table.kind m with
    | .singleton attached => .known (.moduleRef attached)
    | _ => .varying
  | _ => .varying

/-- Whether values of a type have a public method, when all or none of them do. -/
def responds? (t : Ty) (method : String) : Option Bool :=
  if t.isTop || t.isEmpty then none
  else
    let answers := (p.table.possibleClasses t).map fun k =>
      (p.table.instanceMethod? k method).isSome && p.table.visibilityOf k method == .anyone
    if answers.all id then some true else if answers.all not then some false else none

/-- A count or place that is known. -/
def index? (o : Operand) : Option Nat :=
  ((g.operandCell o).value?.bind (·.asInt?)).bind fun n => n.toInt.toNat?

def argument (index : Operand) : Component :=
  match index? g index, p.specialization.arguments with
  | some i, some ts => .varying (ts[i]?.getD .top)
  | _, _ => .varying .top

def argumentRange (start count : Operand) : Component :=
  match index? g start, index? g count, p.specialization.arguments with
  | some s, some n, some ts =>
    if s + n ≤ ts.length then .varying (.tuple ((ts.drop s).take n))
    else .varying (.exact CoreClass.array)
  | _, _, _ => .varying (.exact CoreClass.array)

def argumentCount : Component :=
  match p.specialization.arguments with
  | some ts => ⟨.known (.int (.ofNat ts.length)), .exact CoreClass.integer⟩
  | none => .varying (.exact CoreClass.integer)

def passedBlock : Component :=
  match p.specialization.block, p.specialization.blockValue with
  | none, _ => .varying anyBlock
  | some t, v =>
    if t = .nil then ⟨.known .nil, .nil⟩
    else
      match v with
      | some v => ⟨.known v, t⟩
      | none => .varying t

def respondsTo (value : Operand) (method : String) : Component :=
  let x := p.operand g value
  if x.cell.isUndefined then ⟨.undefined, .empty⟩
  else
    match p.responds? x.ty method with
    | some answer => .known p.table (.bool answer)
    | none => .varying .boolean

def methodParameter (b : BlockId) : Param → Component
  | .receiver => ⟨p.knownSelf (p.selfType g), p.selfType g⟩
  | .argument i => p.argument g i
  | .argumentRange s n => p.argumentRange g s n
  | .arity => p.argumentCount
  | .block => p.passedBlock
  | .currentException => .varying .empty
  | .justRaised => .varying (p.justRaised g b)
  | .global _ => .varying .top
  | .responds v m => p.respondsTo g v m

/-- A parameter read in block `b`. Block literals are called with anything. -/
def parameter (b : BlockId) (frame : Frame) (param : Param) : Component :=
  match frame, param with
  | .block _, .argument _ => .varying .top
  | .block _, .argumentRange _ _ => .varying (.exact CoreClass.array)
  | .block _, .arity => .varying (.exact CoreClass.integer)
  | .block _, .block => .varying anyBlock
  | _, param => p.methodParameter g b param

end ScriptFlow.Propagation
