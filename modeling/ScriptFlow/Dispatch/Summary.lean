import ScriptFlow.ClassTable.Typing

/-! What is known of a method as a whole: its result, what it raises and how it uses its block. -/

namespace ScriptFlow

structure MethodSummary where
  returns : Ty
  raises : Ty
  frequency : Frequency
  blockUse : Option BlockUse
deriving DecidableEq, Inhabited

def MethodSummary.unknown : MethodSummary where
  returns := .top
  raises := .orBelow CoreClass.standardError
  frequency := .maybe
  blockUse := none

/-- The summary that a method's declaration gives; without one it may raise any `StandardError`. -/
def ClassTable.declaredSummary (c : ClassTable) (id : MethodId) (receiver : Ty) : MethodSummary :=
  let r := c.method id
  let returns :=
    match r.returns with
    | .unknown => .top
    | .fixed t => t
    | .receiver => receiver
    | .newInstance => c.instancesOf receiver
  let (raises, frequency) :=
    match r.raises with
    | some (_, .never) => (.empty, .never)
    | some (t, f) => (t, f)
    | none => (.orBelow CoreClass.standardError, .maybe)
  { returns, raises, frequency, blockUse := r.blockUse }

/-- Where summaries come from. A source may keep a state of type `σ`, such as a cache. -/
structure Summaries (σ : Type) where
  /-- The summary of a method called on a receiver type with argument types, which are missing
  when their number is not known, and a block type. -/
  summarize : MethodId → Ty → Option (List Ty) → Ty → StateM σ MethodSummary
  /-- How a method uses its block, when that is known. -/
  blockUse : MethodId → StateM σ (Option BlockUse)

def Summaries.declared (c : ClassTable) {σ : Type} : Summaries σ where
  summarize id receiver _ _ := pure (c.declaredSummary id receiver)
  blockUse id := pure (c.method id).blockUse

end ScriptFlow
