import ScriptFlow.Dispatch.Decision
import ScriptFlow.Dispatch.Resolution
import ScriptFlow.Dispatch.Summary

/-! One result for a call from all the methods it may reach. Each method is asked once for every
combination of argument alternatives, and the answers are joined; lookups that fail, hidden methods
and wrong argument counts add to what the call may raise. -/

namespace ScriptFlow

structure DispatchResult where
  returns : Ty
  raises : Ty
  frequency : Frequency
  decision : Decision
  methods : List MethodId
  /-- Some method reached may run the block passed to it. -/
  callsBlock : Bool
  /-- No method reached accepts the number of arguments. -/
  arityMismatch : Bool
deriving DecidableEq, Inhabited

namespace DispatchResult

def unknown : DispatchResult where
  returns := MethodSummary.unknown.returns
  raises := MethodSummary.unknown.raises
  frequency := MethodSummary.unknown.frequency
  decision := .resolved
  methods := []
  callsBlock := true
  arityMismatch := false

def noMethod (d : Decision) : DispatchResult where
  returns := .empty
  raises := .exact CoreClass.noMethodError
  frequency := .always
  decision := d
  methods := []
  callsBlock := false
  arityMismatch := false

end DispatchResult

structure Samples where
  wrongCount : Bool
  rightCount : Bool
  raised : Bool
  succeeded : Bool
  returns : Ty
  raises : Ty
  callsBlock : Bool
deriving DecidableEq, Inhabited

namespace Samples

def none : Samples := ⟨false, false, false, false, .empty, .empty, false⟩

def record (s : Samples) (m : MethodSummary) : Samples :=
  let raises := m.frequency != .never
  let returns := m.frequency != .always
  { s with
    raised := s.raised || raises
    raises := if raises then s.raises.join m.raises else s.raises
    succeeded := s.succeeded || returns
    returns := if returns then s.returns.join m.returns else s.returns
    callsBlock := s.callsBlock || m.blockUse.all (·.mayCall) }

def lookupFrequency (r : Resolution) : Frequency := if r.missing.isEmpty then .never else .maybe

def privacyFrequency (r : Resolution) : Frequency :=
  if r.concealed.isEmpty then .never else .ofSamples true !r.accessible.isEmpty

def finish (s : Samples) (r : Resolution) (refinePrivacy : Bool) : DispatchResult :=
  let lookup := lookupFrequency r
  let privacy := privacyFrequency r
  if privacy = .always then
    .noMethod (if refinePrivacy then .privacyViolation else .noMatch)
  else
    let arity := Frequency.ofSamples s.wrongCount s.rightCount
    let raised := if s.raised || s.succeeded then .ofSamples s.raised s.succeeded else .never
    let raises :=
      if arity = .always ∧ lookup = .never ∧ privacy = .never then .exact CoreClass.argumentError
      else
        let t := s.raises
        let t := if lookup ≠ .never ∨ privacy ≠ .never then
          t.join (.exact CoreClass.noMethodError) else t
        if arity ≠ .never then t.join (.exact CoreClass.argumentError) else t
    { returns := s.returns
      raises := raises
      frequency := ((lookup.join privacy).join arity).join raised
      decision := .resolved
      methods := r.methods
      callsBlock := s.callsBlock
      arityMismatch := arity = .always }

end Samples

/-- More combinations of argument alternatives than this are not told apart. -/
def maxArgumentTuples : Nat := 16

/-- The alternatives of an argument; an empty type stands for itself. -/
def argumentChoices (t : Ty) : List Ty := if t.isEmpty then [.empty] else t.memberTypes

/-- The number of combinations, unless there are too many. -/
def countChoices (ts : List Ty) : Option Nat :=
  ts.foldlM (fun n t => (some (n * Nat.max t.size 1)).filter (· ≤ maxArgumentTuples)) 1

/-- One choice for each argument, in every combination; the last argument varies fastest. -/
def choices (ts : List Ty) : List (List Ty) :=
  ts.foldl (fun tuples t => tuples.flatMap fun us => (argumentChoices t).map (us ++ [·])) [[]]

/-- The combinations of argument alternatives, or the argument types whole when there are too many
of them or nothing is known of one. -/
def argumentTuples (args : Option (List Ty)) : List (Option (List Ty)) :=
  match args with
  | none => [none]
  | some ts =>
    if (countChoices ts).isNone || ts.any (·.isTop) then [some ts] else (choices ts).map some

namespace Resolver

/-- Adds what the summaries of one target say. -/
def sample {σ : Type} (r : Resolver) (source : Summaries σ) (args : Option (List Ty)) (block : Ty)
    (s : Samples) (t : Target) : StateM σ Samples :=
  if args.all fun ts => r.fits t.method ts.length then
    (argumentTuples args).foldlM
      (fun s tuple => do return s.record (← source.summarize t.method t.receiver tuple block))
      { s with rightCount := true }
  else pure { s with wrongCount := true }

/-- The joint result of all targets of a call. Without argument types their number is unknown, and
no count is wrong. -/
def aggregate {σ : Type} (r : Resolver) (source : Summaries σ) (res : Resolution)
    (args : Option (List Ty)) (block : Ty) : StateM σ DispatchResult :=
  if res.unknown then pure .unknown
  else if res.isUnresolved then pure (.noMethod .noMatch)
  else do
    let s ← res.accessible.foldlM (r.sample source args block) .none
    return s.finish res r.refinePrivacy

end Resolver

end ScriptFlow
