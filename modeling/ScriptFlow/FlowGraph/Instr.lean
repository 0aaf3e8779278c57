import ScriptFlow.Cell
import ScriptFlow.ClassTable.Basic
import ScriptFlow.Dispatch.Decision
import ScriptFlow.FlowGraph.Finding

/-! Instructions of a flow graph. They name bindings and blocks by number. -/

namespace ScriptFlow

inductive Operand where
  | binding (b : BindingId)
  | const (v : Value)
deriving DecidableEq, Inhabited

namespace Operand

def binding? : Operand → Option BindingId
  | .binding b => some b
  | .const _ => none

def nil : Operand := .const .nil

end Operand

/-- Whose parameters are read: those of the method, or of one of its block literals. -/
inductive Frame where
  | method
  | block (index : UInt32)
deriving DecidableEq, Inhabited

/-- What a `param` instruction asks of the caller. -/
inductive Param where
  | receiver
  | argument (index : Operand)
  | argumentRange (start count : Operand)
  | arity
  | block
  | currentException
  | justRaised
  | global (name : String)
  | responds (value : Operand) (method : String)
deriving DecidableEq, Inhabited

/-- A call passes its arguments one by one, or as the items of one array. -/
structure CallKind where
  isSuper : Bool
  isVararg : Bool
deriving DecidableEq, Inhabited

/-- A call, with what propagation has found out about it. -/
structure CallSite where
  kind : CallKind
  target : Option BindingId
  receiver : Operand
  method : String
  args : List Operand
  block : Option Operand
  /-- The receiver is not written out, so hidden methods may be called. -/
  ignoreVisibility : Bool
  /-- The call ends its block, and an exception leaves it by an edge of its own. -/
  mayRaise : Bool
  frequency : Option Frequency
  raises : Ty
  decision : Decision
  /-- The methods reached so far, ascending. -/
  methods : List MethodId
deriving DecidableEq, Inhabited

namespace CallSite

def plain (kind : CallKind) (target : Option BindingId) (receiver : Operand) (method : String) :
    CallSite where
  kind := kind
  target := target
  receiver := receiver
  method := method
  args := []
  block := none
  ignoreVisibility := false
  mayRaise := false
  frequency := none
  raises := .empty
  decision := .pending
  methods := []

/-- One letter for each flag that is set. -/
def letters (s : CallSite) : String :=
  (if s.ignoreVisibility then "P" else "") ++ (if s.mayRaise then "R" else "")

def reset (s : CallSite) : CallSite :=
  { s with frequency := none, raises := .empty, decision := .pending, methods := [] }

def operands (s : CallSite) : List Operand := s.receiver :: s.args ++ s.block.toList

end CallSite

inductive SizeTest where
  | equal
  | greater
  | less
deriving DecidableEq, Inhabited

/-- Remarks of the lowering for later analyses. -/
inductive Declaration where
  /-- The array should have a size that passes the test. -/
  | expectSize (test : SizeTest) (size : Nat) (array : Operand)
  | alias (name value : Operand)
deriving DecidableEq, Inhabited

inductive Instr where
  | assign (target : BindingId) (source : Operand)
  | phi (target : BindingId) (operands : List (BlockId × BindingId))
  | call (site : CallSite)
  | jump (target : BlockId)
  | branch (condition : Operand) (yes no : BlockId)
  | param (target : BindingId) (param : Param) (frame : Frame)
  | returnWith (value : Operand)
  | raise (value : Operand)
  | declare (d : Declaration)
  | storeGlobal (name : String) (value : Operand)
deriving DecidableEq, Inhabited

namespace Param

def operands : Param → List Operand
  | .argument i => [i]
  | .argumentRange s n => [s, n]
  | .responds v _ => [v]
  | _ => []

def mapOperands (f : Operand → Operand) : Param → Param
  | .argument i => .argument (f i)
  | .argumentRange s n => .argumentRange (f s) (f n)
  | .responds v m => .responds (f v) m
  | p => p

end Param

namespace Instr

def target? : Instr → Option BindingId
  | .assign t _ | .phi t _ | .param t _ _ => some t
  | .call s => s.target
  | _ => none

/-- The operands read when the instruction runs. Those of a phi belong to the edges instead. -/
def slots : Instr → List Operand
  | .assign _ s => [s]
  | .call s => s.operands
  | .branch c _ _ => [c]
  | .param _ p _ => p.operands
  | .returnWith v | .raise v | .storeGlobal _ v => [v]
  | .declare (.expectSize _ _ a) => [a]
  | .declare (.alias a v) => [a, v]
  | .phi _ _ | .jump _ => []

def operands : Instr → List BindingId
  | .phi _ os => os.map (·.2)
  | i => i.slots.filterMap (·.binding?)

def mapSlots (f : Operand → Operand) : Instr → Instr
  | .assign t s => .assign t (f s)
  | .call s =>
    .call { s with receiver := f s.receiver, args := s.args.map f, block := s.block.map f }
  | .branch c y n => .branch (f c) y n
  | .param t p fr => .param t (p.mapOperands f) fr
  | .returnWith v => .returnWith (f v)
  | .raise v => .raise (f v)
  | .storeGlobal g v => .storeGlobal g (f v)
  | .declare (.expectSize o n a) => .declare (.expectSize o n (f a))
  | .declare (.alias a v) => .declare (.alias (f a) (f v))
  | .phi t os => .phi t os
  | .jump b => .jump b

def mapTarget (f : BindingId → BindingId) : Instr → Instr
  | .assign t s => .assign (f t) s
  | .phi t os => .phi (f t) os
  | .param t p fr => .param (f t) p fr
  | .call s => .call { s with target := s.target.map f }
  | i => i

def mapPhiValues (f : BindingId → BindingId) : Instr → Instr
  | .phi t os => .phi t (os.map fun o => (o.1, f o.2))
  | i => i

def mapBlocks (f : BlockId → BlockId) : Instr → Instr
  | .jump b => .jump (f b)
  | .branch c y n => .branch c (f y) (f n)
  | .phi t os => .phi t (os.map fun o => (f o.1, o.2))
  | i => i

def site? : Instr → Option CallSite
  | .call s => some s
  | _ => none

def isPhi : Instr → Bool
  | .phi _ _ => true
  | _ => false

def isTerminator : Instr → Bool
  | .jump _ | .branch _ _ _ | .returnWith _ | .raise _ => true
  | _ => false

end Instr

end ScriptFlow
