import ScriptFlow.BitSet
import ScriptFlow.Digraph.Search
import ScriptFlow.FlowGraph.Basic

/-! Liveness: a binding is live where its present value may still be read. -/

namespace ScriptFlow

/-- What the instructions of one block do: the bindings they read before writing them, and those
they write. -/
structure BlockAccess where
  exposed : BitSet
  written : BitSet
deriving Inhabited

namespace BlockAccess

def none (room : Nat) : BlockAccess := ⟨.empty room, .empty room⟩

/-- The operands of a phi are read on the edges and not in its block. -/
def add (a : BlockAccess) (i : Instr) : BlockAccess :=
  let reads := if i.isPhi then [] else i.operands.filter fun v => !a.written.contains v
  { exposed := reads.foldl BitSet.add a.exposed
    written := i.target?.toList.foldl BitSet.add a.written }

end BlockAccess

abbrev BindingSets := Array BitSet

def BindingSets.of (s : BindingSets) (b : BlockId) : BitSet := s.getD b default

structure Liveness where
  accesses : Array BlockAccess
  entry : BindingSets
  exit : BindingSets
  /-- Read in a block that does not write them first. -/
  crossing : BitSet

namespace Liveness

variable (l : Liveness)

def access (b : BlockId) : BlockAccess := l.accesses.getD b default

def isLiveIn (v : BindingId) (b : BlockId) : Bool := (l.entry.of b).contains v

def globals : List BindingId := l.crossing.toList

def liveBlocks : Dict BindingId (List BlockId) :=
  ⟨((List.range l.crossing.capacity).map fun v =>
    (v, (List.range l.entry.size).filter (l.isLiveIn v))).filter (!·.2.isEmpty)⟩

end Liveness

/-- The search for live bindings: what is known to be live on entry and on exit, and the blocks that
wait for a visit, the next one first. -/
structure LivenessSearch where
  entry : BindingSets
  exit : BindingSets
  pending : List BlockId
  queued : BitSet

def LivenessSearch.enqueue (s : LivenessSearch) (b : BlockId) : LivenessSearch :=
  match s.queued.insert? b with
  | some (true, queued) => { s with pending := s.pending ++ [b], queued }
  | _ => s

/-- Records what is live in a block. The blocks before it wait for a visit if more is live on entry than
was known. -/
def LivenessSearch.record (s : LivenessSearch) (b : BlockId) (before : List BlockId) (exit : BitSet)
    (entry : Bool × BitSet) : LivenessSearch :=
  let next := { s with
    entry := s.entry.setIfInBounds b entry.2
    exit := s.exit.setIfInBounds b exit }
  if entry.1 then before.foldl LivenessSearch.enqueue next else next

namespace FlowGraph

variable (g : FlowGraph)

def access (b : BlockId) : BlockAccess :=
  if (g.block b).removed then .none g.bindings.size
  else (g.block b).instrs.foldl (fun a i => a.add (g.instr i)) (.none g.bindings.size)

def accesses : Array BlockAccess := ((List.range g.blocks.size).map g.access).toArray

def phiReads : List (BlockId × BindingId) :=
  g.allInstrs.flatMap fun i =>
    match g.instr i with
    | .phi _ operands => operands
    | _ => []

/-- Computes what is live in a block from what is live in its successors. -/
def visitLive (access : BlockAccess) (s : LivenessSearch) (b : BlockId) : LivenessSearch :=
  let exit := (g.successors b .all).foldl (fun out c => out.union (s.entry.of c)) (s.exit.of b)
  s.record b (g.block b).preds exit
    ((s.entry.of b).unionWith ((exit.diff access.written).union access.exposed))

/-- Visits the blocks that wait, with enough fuel until none does. -/
def settleLive (accesses : Array BlockAccess) : Nat → LivenessSearch → LivenessSearch
  | 0, s => s
  | fuel + 1, s =>
    match s.pending with
    | [] => s
    | b :: pending => settleLive accesses fuel
      (g.visitLive (accesses.getD b default) { s with pending, queued := s.queued.erase b } b)

def noneLive : BindingSets := Array.replicate g.blocks.size (.empty g.bindings.size)

/-- A value that is needed at the end of a block is live on entry unless the block writes it. -/
def startEntry (accesses : Array BlockAccess) (exit : BindingSets) : BindingSets :=
  g.liveBlocks.foldl (fun (s : BindingSets) b =>
    let access := accesses.getD b default
    s.setIfInBounds b (access.exposed.union ((exit.of b).diff access.written))) g.noneLive

/-- Blocks wait in postorder, so that most of them come after the blocks they lead to. -/
def startLive (accesses : Array BlockAccess) : LivenessSearch :=
  let exit : BindingSets := g.phiReads.foldl (fun s (b, v) => s.modify b (·.add v)) g.noneLive
  ((g.view .all).postorder enter ++ g.liveBlocks).foldl LivenessSearch.enqueue
    { entry := g.startEntry accesses exit, exit, pending := [], queued := .empty g.blocks.size }

def liveness : Liveness :=
  let accesses := g.accesses
  -- a visit after which more blocks wait has added a binding to the sets of the blocks
  let visits := g.blocks.size * (g.blocks.size * g.bindings.size + 1)
  let s := g.settleLive accesses visits (g.startLive accesses)
  { accesses
    entry := s.entry
    exit := s.exit
    crossing := g.liveBlocks.foldl (fun s b => s.union (accesses.getD b default).exposed)
      (.empty g.bindings.size) }

def annotateLiveness : FlowGraph := { g with live := g.liveness.liveBlocks }

end FlowGraph

end ScriptFlow
