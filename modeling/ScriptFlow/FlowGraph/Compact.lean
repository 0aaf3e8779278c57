import ScriptFlow.FlowGraph.Basic

/-! Copying a graph without its removed blocks and without bindings that nothing refers to. -/

namespace ScriptFlow.FlowGraph

def nextNumber (state : Array (Option Nat) × Nat) (keep : Bool) : Array (Option Nat) × Nat :=
  if keep then (state.1.push (some state.2), state.2 + 1) else (state.1.push none, state.2)

/-- New numbers for the marked ones among `0 … marks.size - 1`, keeping their order. -/
def renumber (marks : Array Bool) : Array (Option Nat) := (marks.foldl nextNumber (#[], 0)).1

def mark (marks : Array Bool) (ids : List Nat) : Array Bool :=
  ids.foldl (fun m i => m.setIfInBounds i true) marks

structure Renumbering where
  blocks : Array (Option BlockId)
  instrs : Array (Option InstrId)
  bindings : Array (Option BindingId)

def lookupId (ids : Array (Option Nat)) (i : Nat) : Option Nat := ids.getD i none

variable (g : FlowGraph)

/-- The six blocks that every graph has stay even when removed. -/
def keptBlocks : List BlockId :=
  (List.range g.blocks.size).filter fun b => !(g.block b).removed || isDistinguished b

def keptInstrs : List InstrId := g.keptBlocks.flatMap fun b => (g.block b).instrs

/-- The bindings that instructions, registers, formals or results refer to. -/
def referenced : List BindingId :=
  g.keptInstrs.flatMap (fun i => (g.instr i).operands ++ (g.instr i).target?.toList) ++
    g.selfRegister.toList ++ g.blockRegister.toList ++ g.finalReturn.toList ++
    g.finalException.toList ++ g.formals.map (·.1) ++ g.constants.keys ++ g.live.keys

/-- Instructions are numbered block by block. -/
def renumbering : Renumbering where
  blocks := renumber (mark (Array.replicate g.blocks.size false) g.keptBlocks)
  instrs := (g.keptInstrs.zip (List.range g.keptInstrs.length)).foldl
    (fun ids (i, n) => ids.setIfInBounds i (some n)) (Array.replicate g.instrs.size none)
  bindings := renumber (mark (Array.replicate g.bindings.size false) g.referenced)

namespace Renumbering

variable (r : Renumbering)

def block? (b : BlockId) : Option BlockId := lookupId r.blocks b

def instr? (i : InstrId) : Option InstrId := lookupId r.instrs i

def binding? (b : BindingId) : Option BindingId := lookupId r.bindings b

/-- A number that is not kept stays as it is. -/
def blockOr (b : BlockId) : BlockId := (r.block? b).getD b

def bindingOr (b : BindingId) : BindingId := (r.binding? b).getD b

def operand : Operand → Operand
  | .binding b => .binding (r.bindingOr b)
  | .const v => .const v

def instr (i : Instr) : Instr :=
  (((i.mapTarget r.bindingOr).mapSlots r.operand).mapPhiValues r.bindingOr).mapBlocks r.blockOr

def copyBlock (b : Block) : Block :=
  { b with
    instrs := b.instrs.filterMap r.instr?
    succs := b.succs.filterMap fun e => (r.block? e.1).map (·, e.2)
    preds := b.preds.filterMap r.block? }

def copyBinding (b : Binding) : Binding :=
  { b with
    definition := b.definition.bind r.instr?
    uses := (b.uses.filterMap r.instr?).foldl (fun us i => insertNat i us) [] }

def copyFinding (f : Finding) : Finding :=
  { f with block := f.block.bind r.block?, instr := f.instr.bind r.instr? }

end Renumbering

/-- Looks the kept ones up by their numbers, in the order of the numbers. -/
def duplicate : FlowGraph :=
  let r := g.renumbering
  let bindings := g.bindingIds.filter fun b => (r.binding? b).isSome
  { g with
    blocks := (g.keptBlocks.map fun b => r.copyBlock (g.block b)).toArray
    names := (g.keptBlocks.map fun b => ((g.block b).name, r.blockOr b)).reverse
    instrs := (g.keptBlocks.flatMap fun b =>
      (g.block b).instrs.map fun i => ⟨r.instr (g.instr i), r.blockOr b⟩).toArray
    bindings := (bindings.map fun b => r.copyBinding (g.binding b)).toArray
    selfRegister := g.selfRegister.bind r.binding?
    blockRegister := g.blockRegister.bind r.binding?
    finalReturn := g.finalReturn.bind r.binding?
    finalException := g.finalException.bind r.binding?
    formals := g.formals.filterMap fun f => (r.binding? f.1).map (·, f.2)
    live := ⟨g.live.entries.filterMap fun e =>
      (r.binding? e.1).map (·, (e.2.filterMap r.block?))⟩
    constants := ⟨g.constants.entries.filterMap fun e => (r.binding? e.1).map (·, e.2)⟩
    findings := g.findings.map r.copyFinding }

end ScriptFlow.FlowGraph
