import ScriptFlow.Findings.All
import ScriptFlow.Lowering.Walk
import ScriptFlow.SingleAssignment

/-! Summaries of methods by analysing their bodies, on demand and with a cache. A query that comes
up again while it is being answered, and one that is nested too deep, is answered by the summary
about which nothing is known. -/

namespace ScriptFlow

structure SummaryKey where
  method : MethodId
  receiver : Ty
  /-- Missing when the arguments are not known. -/
  arguments : Option (List Ty)
  block : Ty
deriving DecidableEq, Inhabited

namespace SummaryKey

/-- A call with any arguments, with or without a block. -/
def ofReceiver (method : MethodId) (receiver : Ty) : SummaryKey :=
  ⟨method, receiver, none, Propagation.anyBlock⟩

def specialization (k : SummaryKey) : Specialization :=
  { selfType := some k.receiver, arguments := k.arguments, block := some k.block,
    blockValue := none }

end SummaryKey

inductive CacheEntry where
  | inProgress
  | done (s : MethodSummary)
  | failed (e : Error)

structure Analyzer where
  table : ClassTable
  config : Config

namespace Analyzer

structure Cache where
  /-- Graphs of method bodies before propagation. -/
  bases : List (MethodId × FlowGraph)
  entries : List (SummaryKey × CacheEntry)
  nextProc : Serial
  /-- How many queries are being answered. -/
  nesting : Nat

namespace Cache

def ofNextProc (nextProc : Serial) : Cache := ⟨[], [], nextProc, 0⟩

def get? (c : Cache) (k : SummaryKey) : Option CacheEntry := c.entries.lookup k

def put (c : Cache) (k : SummaryKey) (e : CacheEntry) : Cache :=
  { c with entries := (k, e) :: c.entries.filter (·.1 ≠ k) }

def remove (c : Cache) (k : SummaryKey) : Cache :=
  { c with entries := c.entries.filter (·.1 ≠ k) }

def failures (c : Cache) : List (SummaryKey × Error) :=
  c.entries.filterMap fun (k, e) =>
    match e with
    | .failed err => some (k, err)
    | _ => none

end Cache

/-- An analysis that may fail; the cache is kept when it does. -/
abbrev Analysis := EStateM Error Cache

variable (a : Analyzer)

def lowering (scope : Scope) (methodName : Option String) (isProgram : Bool) : Lowering :=
  { maxDepth := a.config.maxDepth, scope, methodName, isProgram }

def buildGraph (l : Lowering) (body : Tree) (formals : List Formal) : Analysis FlowGraph :=
  fun c =>
    match l.build body formals c.nextProc with
    | .error e nextProc => .error e { c with nextProc }
    | .ok g nextProc =>
      match FlowGraph.toSingleAssignment g with
      | .ok _ g => .ok g { c with nextProc }
      | .error e _ => .error e { c with nextProc }

/-- The graph of a method body, built once. -/
def baseGraph (m : MethodId) : Analysis FlowGraph := do
  match (← get).bases.lookup m with
  | some g => return g
  | none =>
    let r := a.table.method m
    let some body := r.body | throw (.graph (.noBody r.name))
    let g ← buildGraph (a.lowering body.scope (some r.name) false) body.body body.formals
    modify fun c => { c with bases := (m, g) :: c.bases }
    return g

def propagate (source : Summaries Cache) (s : Specialization) (g : FlowGraph) :
    Analysis FlowGraph := fun c =>
  let p : Propagation Cache := ⟨a.table, a.config, source, s⟩
  match (do let _ ← p.analyze; p.inspect : EStateM Error (FlowGraph × Cache) Unit) (g, c) with
  | .ok _ (g, c) => .ok g c
  | .error e (_, c) => .error e c

def analyzeKey (source : Summaries Cache) (k : SummaryKey) : Analysis FlowGraph := do
  let base ← a.baseGraph k.method
  a.propagate source k.specialization base.duplicate

def summaryOf (g : FlowGraph) : MethodSummary :=
  { returns := g.summary.returns, raises := g.summary.raises
    frequency := g.summary.frequency.getD .maybe, blockUse := g.summary.blockUse }

/-- Analyses a body, one level deeper, and keeps the answer or the error. -/
def answer (source : Summaries Cache) (k : SummaryKey) : StateM Cache MethodSummary := fun c =>
  match a.analyzeKey source k { c with nesting := c.nesting + 1 } with
  | .ok g after => (summaryOf g, { after with nesting := c.nesting }.put k (.done (summaryOf g)))
  | .error e after => (.unknown, { after with nesting := c.nesting }.put k (.failed e))

/-- Gives up on a query that is nested too deep. It may be asked again. -/
def cutOff (k : SummaryKey) : StateM Cache MethodSummary := do
  modify (·.remove k)
  return .unknown

def isAnalyzed (m : MethodId) : Bool :=
  a.config.specializeBodies && (a.table.method m).body.isSome

def sourceOf (summary : SummaryKey → StateM Cache MethodSummary) : Summaries Cache where
  summarize m receiver args block := summary ⟨m, receiver, args, block⟩
  blockUse m := do
    let r := a.table.method m
    if r.blockUse.isSome || !a.isAnalyzed m then return r.blockUse
    else return (← summary (.ofReceiver m (.orBelow r.owner))).blockUse

/-- Answers a query from the cache. One that is not there is in progress until the given computation
has answered it. -/
def cached (k : SummaryKey) (fresh : StateM Cache MethodSummary) : StateM Cache MethodSummary := do
  if !a.isAnalyzed k.method then return a.table.declaredSummary k.method k.receiver
  else
    match (← get).get? k with
    | some (.done s) => return s
    | some _ => return .unknown
    | none =>
      modify (·.put k .inProgress)
      fresh

def maxNesting : Nat := 64

/-- The summary of a call, with so many levels of nested queries left. -/
def summaryWithin : (levels : Nat) → SummaryKey → StateM Cache MethodSummary
  | 0, k => a.cached k (cutOff k)
  | levels + 1, k => a.cached k do
    if maxNesting ≤ (← get).nesting then cutOff k
    else a.answer (a.sourceOf (summaryWithin levels)) k

def summary (k : SummaryKey) : StateM Cache MethodSummary := a.summaryWithin maxNesting k

def source : Summaries Cache := a.sourceOf a.summary

def summaries (ks : List SummaryKey) : StateM Cache (List MethodSummary) := ks.mapM a.summary

def analyze (k : SummaryKey) : Analysis FlowGraph := a.analyzeKey a.source k

def failureFinding (k : SummaryKey) (e : Error) : Finding :=
  ⟨.analysisFailed, none, none,
    "analysis of " ++ (a.table.method k.method).name ++ " failed: " ++ e.message⟩

/-- The analysed program, with findings about all methods whose analysis failed so far. -/
def analyzeProgram (t : Tree) : Analysis FlowGraph := do
  let g ← buildGraph (a.lowering .topLevel none true) t []
  let g ← a.propagate a.source .none g
  let findings := (← get).failures.map fun (k, e) => a.failureFinding k e
  return { g with findings := g.findings ++ findings }

end Analyzer

end ScriptFlow
