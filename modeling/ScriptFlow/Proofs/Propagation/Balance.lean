import ScriptFlow.Proofs.Propagation.Exceptions
import ScriptFlow.Proofs.Propagation.Progress

/-! The balance that propagation keeps: what an instruction would find out anew is known already, or
the instruction is waiting to be evaluated. When nothing waits, everything is settled. -/

namespace ScriptFlow

variable {b : BlockId} {i : InstrId}

/-- The second component allows for all that the first does. -/
structure Component.Below (x y : Component) : Prop where
  cell : x.cell.le y.cell = true
  ty : x.ty.members ⊆ y.ty.members

theorem Component.Below.refl (x : Component) : x.Below x := ⟨Cell.le_refl _, List.Subset.refl _⟩

theorem Component.Below.trans {x y z : Component} (first : x.Below y) (second : y.Below z) :
    x.Below z :=
  ⟨Cell.le_trans first.cell second.cell, List.Subset.trans first.ty second.ty⟩

namespace FlowGraph

variable {g h : FlowGraph}

def component (g : FlowGraph) (v : BindingId) : Component := ⟨(g.binding v).cell, (g.binding v).ty⟩

theorem Grows.component (grows : g.Grows h) (v : BindingId) :
    (g.component v).Below (h.component v) := ⟨grows.cell v, grows.ty v⟩

def Listed (g : FlowGraph) (i : InstrId) : Prop := i ∈ (g.block (g.blockOf i)).instrs

def last? (g : FlowGraph) (b : BlockId) : Option InstrId := (g.block b).instrs.getLast?

theorem listed_of_last (closed : g.Closed) (last : g.last? b = some i) :
    g.Listed i ∧ g.blockOf i = b := by
  have member : i ∈ (g.block b).instrs := List.mem_of_getLast? last
  have place := (closed.placed b i member).2
  rw [Listed, place]
  exact ⟨member, rfl⟩

namespace SameOutline

variable (same : g.SameOutline h)
include same

theorem listed (i : InstrId) : h.Listed i ↔ g.Listed i := by
  rw [Listed, Listed, same.blockOf, same.block_instrs]

theorem last (b : BlockId) : h.last? b = g.last? b := by
  rw [last?, last?, same.block_instrs]

theorem mem_succs {a : Nat} {e : Nat × EdgeFlags} (edge : e ∈ (h.block a).succs) :
    ∃ e' ∈ (g.block a).succs, e'.1 = e.1 ∧ e'.2.bare = e.2.bare := by
  have bare := List.mem_map_of_mem (f := fun e : Nat × EdgeFlags => (e.1, e.2.bare)) edge
  rw [same.succs] at bare
  obtain ⟨e', edge', eq⟩ := List.mem_map.mp bare
  exact ⟨e', edge', Prod.mk.inj eq⟩

/-- Instructions other than calls are as they were. -/
theorem instr_eq_iff {x : Instr} (plain : x.site? = none) : h.instr i = x ↔ g.instr i = x := by
  have outline := same.instr i
  constructor
  · intro is
    rw [is] at outline
    rcases Instr.eq_of_outline outline with eq | ⟨s, s', is_call, -⟩
    · exact eq.symm
    · rw [is_call] at plain
      cases plain
  · intro is
    rw [is] at outline
    rcases Instr.eq_of_outline outline with eq | ⟨s, s', -, is_call, -⟩
    · exact eq
    · rw [is_call] at plain
      cases plain

theorem operable (operable : g.Operable) : h.Operable where
  toClosed := same.closed operable.toClosed
  reads b i member v operand := by
    rw [same.block_instrs] at member
    rw [same.operands] at operand
    rw [same.uses]
    exact operable.reads b i member v operand
  uses v i used := by
    rw [same.uses] at used
    exact (same.listed i).mpr (operable.uses v i used)
  single a b i i_in j j_in v i_target j_target := by
    rw [same.block_instrs] at i_in j_in
    rw [same.target] at i_target j_target
    exact operable.single a b i i_in j j_in v i_target j_target
  real a e edge := by
    obtain ⟨e', edge', -, bare⟩ := same.mem_succs edge
    have flags := operable.real a e' edge'
    exact (congrArg EdgeFlags.fake bare).symm.trans flags
  guarded a e edge exceptional := by
    obtain ⟨e', edge', target, bare⟩ := same.mem_succs edge
    have exceptional' : e'.2.isException = true :=
      (congrArg EdgeFlags.isException bare).trans exceptional
    rw [same.block_instrs, same.block_instrs, ← target]
    exact operable.guarded a e' edge' exceptional'

end SameOutline

end FlowGraph

namespace Propagation

variable {σ : Type} (p : Propagation σ)

/-! What an instruction finds out. -/

/-- What an instruction gives its target, as far as that hangs on its operands and the ways into its
block. Calls and landings are a matter of their own. -/
def value? (g : FlowGraph) (i : InstrId) : Option Component :=
  match g.instr i with
  | .assign _ s => some (p.operand g s)
  | .phi _ os => some (phiValue g (g.blockOf i) os)
  | .param _ .justRaised _ => none
  | .param _ q frame => some (p.parameter g (g.blockOf i) frame q)
  | _ => none

section Congruence

variable {g h : FlowGraph}

theorem operand_congr {o : Operand}
    (same : ∀ v, o.binding? = some v → h.component v = g.component v) :
    p.operand h o = p.operand g o := by
  cases o with
  | binding v => exact same v rfl
  | const v => rfl

theorem operandCell_eq (o : Operand) : g.operandCell o = (p.operand g o).cell := by
  cases o <;> rfl

theorem index?_congr {o : Operand} (same : p.operand h o = p.operand g o) :
    index? h o = index? g o := by
  rw [index?, index?, operandCell_eq p, operandCell_eq p, same]

theorem parameter_congr {q : Param} (scope : h.scope = g.scope) (other : q ≠ .justRaised)
    (same : ∀ o ∈ q.operands, p.operand h o = p.operand g o) (b : BlockId) (frame : Frame) :
    p.parameter h b frame q = p.parameter g b frame q := by
  have self : p.selfType h = p.selfType g := by rw [selfType, selfType, scope]
  have method : p.methodParameter h b q = p.methodParameter g b q := by
    cases q with
    | receiver => simp only [methodParameter, self]
    | argument i =>
      simp only [methodParameter, argument, p.index?_congr (same i (by simp [Param.operands]))]
    | argumentRange s n =>
      simp only [methodParameter, argumentRange, p.index?_congr (same s (by simp [Param.operands])),
        p.index?_congr (same n (by simp [Param.operands]))]
    | justRaised => exact absurd rfl other
    | responds v m =>
      simp only [methodParameter, respondsTo, same v (by simp [Param.operands])]
    | _ => rfl
  cases frame with
  | method => exact method
  | block index =>
    cases q with
    | argument _ => rfl
    | argumentRange _ _ => rfl
    | arity => rfl
    | block => rfl
    | _ => exact method

theorem phiValue_congr {os : List (BlockId × BindingId)} (taken : ∀ a, h.Taken a b ↔ g.Taken a b)
    (same : ∀ o ∈ os, h.component o.2 = g.component o.2) : phiValue h b os = phiValue g b os := by
  unfold phiValue
  apply List.foldl_ext
  intro x o member
  have flag : (h.edge? o.1 b).any (·.executable) = (g.edge? o.1 b).any (·.executable) :=
    Bool.eq_iff_iff.mpr (taken o.1)
  have cell : (h.binding o.2).cell = (g.binding o.2).cell :=
    congrArg Component.cell (same o member)
  have ty : (h.binding o.2).ty = (g.binding o.2).ty := congrArg Component.ty (same o member)
  simp only [flag, cell, ty]

def phiStep (g : FlowGraph) (b : BlockId) (x : Component) (o : BlockId × BindingId) : Component :=
  if (g.edge? o.1 b).any (·.executable) then
    ⟨x.cell.join (g.binding o.2).cell, x.ty.join (g.binding o.2).ty⟩
  else x

theorem phiValue_eq (g : FlowGraph) (b : BlockId) (os : List (BlockId × BindingId)) :
    phiValue g b os = os.foldl (phiStep g b) ⟨.undefined, .empty⟩ := rfl

theorem below_phiStep (g : FlowGraph) (b : BlockId) (x : Component) (o : BlockId × BindingId) :
    x.Below (phiStep g b x o) ∧ (g.Taken o.1 b → (g.component o.2).Below (phiStep g b x o)) := by
  unfold phiStep
  split
  · refine ⟨⟨Cell.le_join_left _ _, fun m member => Ty.mem_join.mpr (.inl member)⟩, fun _ => ?_⟩
    exact ⟨Cell.le_join_right _ _, fun m member => Ty.mem_join.mpr (.inr member)⟩
  · rename_i other
    exact ⟨.refl x, fun taken => absurd taken other⟩

/-- A phi allows for what comes in over the edges that were found to be taken, and for no more. -/
theorem phiValue_below_iff {os : List (BlockId × BindingId)} {x : Component} :
    (phiValue g b os).Below x ↔ ∀ o ∈ os, g.Taken o.1 b → (g.component o.2).Below x := by
  have folded : ∀ y : Component, (os.foldl (phiStep g b) y).Below x ↔
      y.Below x ∧ ∀ o ∈ os, g.Taken o.1 b → (g.component o.2).Below x := by
    induction os with
    | nil => simp
    | cons o os ih =>
      intro y
      rw [List.foldl_cons, ih, List.forall_mem_cons, ← and_assoc]
      refine and_congr_left fun _ => ⟨fun below => ?_, fun below => ?_⟩
      · obtain ⟨old, new⟩ := below_phiStep g b y o
        exact ⟨old.trans below, fun taken => (new taken).trans below⟩
      · unfold phiStep
        split
        · rename_i taken
          obtain ⟨old, new⟩ := below
          refine ⟨Cell.join_le old.cell (new taken).cell, fun m member => ?_⟩
          exact (Ty.mem_join.mp member).elim (fun h => old.ty h) fun h => (new taken).ty h
        · exact below.1
  rw [phiValue_eq, folded]
  exact and_iff_right ⟨rfl, List.nil_subset _⟩

theorem value?_congr (instr : h.instr i = g.instr i) (place : h.blockOf i = g.blockOf i)
    (scope : h.scope = g.scope)
    (operands : ∀ v ∈ (g.instr i).operands, h.component v = g.component v)
    (phi : ∀ t os, g.instr i = .phi t os → ∀ a, h.Taken a (g.blockOf i) ↔ g.Taken a (g.blockOf i)) :
    p.value? h i = p.value? g i := by
  have slots : ∀ o, (∀ v, o.binding? = some v → v ∈ (g.instr i).operands) →
      p.operand h o = p.operand g o :=
    fun o read => p.operand_congr fun v is_v => operands v (read v is_v)
  unfold value?
  rw [instr, place]
  cases is_i : g.instr i with
  | assign t s =>
    simp only
    rw [slots s fun v is_v => by simp [is_i, Instr.operands, Instr.slots, is_v]]
  | phi t os =>
    simp only
    rw [phiValue_congr (phi t os is_i)]
    intro o member
    apply operands
    rw [is_i]
    exact List.mem_map_of_mem member
  | param t q frame =>
    by_cases landing : q = .justRaised
    · rw [landing]
    · have same : ∀ o ∈ q.operands, p.operand h o = p.operand g o := by
        intro o member
        apply slots
        intro v is_v
        rw [is_i]
        exact List.mem_filterMap.mpr ⟨o, member, is_v⟩
      have found := p.parameter_congr scope landing same (g.blockOf i) frame
      cases q <;> first | exact absurd rfl landing | exact congrArg some found
  | _ => rfl

end Congruence

/-! Balance. -/

/-- The instructions that are evaluated again when an instance variable grows. -/
def Run.readersOf (r : Run σ) (key : VariableKey) : List InstrId := (r.readers.lookup key).getD []

/-- A raise at the end of the block waits to be evaluated again. -/
def Run.Roused (r : Run σ) (a : BlockId) : Prop :=
  ∃ l v, r.graph.last? a = some l ∧ r.graph.instr l = .raise v ∧ l ∈ r.instrs

/-- The instruction and its operands are as they were. -/
structure Untouched (r r' : Run σ) (i : InstrId) : Prop where
  site : r'.graph.instr i = r.graph.instr i
  operands : ∀ v ∈ (r.graph.instr i).operands, r'.graph.component v = r.graph.component v

theorem Untouched.operand {r r' : Run σ} (untouched : Untouched r r' i) {o : Operand}
    (slot : o ∈ (r.graph.instr i).slots) (other : (r.graph.instr i).isPhi = false) :
    p.operand r'.graph o = p.operand r.graph o := by
  apply p.operand_congr
  intro v is_v
  apply untouched.operands
  cases is_i : r.graph.instr i with
  | phi t os =>
    rw [is_i] at other
    cases other
  | _ =>
    rw [is_i] at slot
    exact List.mem_filterMap.mpr ⟨o, slot, is_v⟩

/-- Nothing that instruction `i` reads has changed. -/
structure Steady (r r' : Run σ) (i : InstrId) : Prop extends Untouched r r' i where
  grows : r.graph.Grows r'.graph
  callers : i ∈ r.blockCallers → i ∈ r'.blockCallers
  readers : ∀ key, i ∈ r.readersOf key → i ∈ r'.readersOf key
  assigned : ∀ key t, r.graph.variableTypes.lookup key = some t →
    ∃ t', r'.graph.variableTypes.lookup key = some t' ∧ t.members ⊆ t'.members
  read : ∀ key, i ∈ r.readersOf key → r'.variableType key = r.variableType key

/-- A condition on evaluated calls that lasts as long as nothing changes that the call reads. -/
def Lasts (K : Run σ → InstrId → CallSite → Prop) : Prop :=
  ∀ r r' i s, r.graph.instr i = .call s → K r i s → Steady r r' i → K r' i s

/-- What is left out of account in the midst of a step. -/
structure Slack where
  /-- Instructions that are about to be evaluated. -/
  instr : InstrId → Prop
  /-- Blocks whose edges are about to be marked. -/
  block : BlockId → Prop
  /-- Blocks that throw something new, of which the landing blocks have not heard. -/
  thrower : BlockId → Prop
  /-- Blocks whose exception edges are about to be marked. -/
  exit : BlockId → Prop

def Slack.none : Slack := ⟨fun _ => False, fun _ => False, fun _ => False, fun _ => False⟩

section Balance

variable (K : Run σ → InstrId → CallSite → Prop)

/-- An evaluation of the instruction would find out nothing new. -/
structure Stable (N : BlockId → Prop) (r : Run σ) (i : InstrId) : Prop where
  value : ∀ x t, p.value? r.graph i = some x → (r.graph.instr i).target? = some t →
    x.Below (r.graph.component t)
  landing : ∀ t frame, r.graph.instr i = .param t .justRaised frame →
    (Cell.varying.le (r.graph.component t).cell = true) ∧ ∀ a, Throws r.graph a (r.graph.blockOf i) →
      N a ∨ r.Roused a ∨ (p.thrown r.graph a).members ⊆ (r.graph.component t).ty.members
  call : ∀ s, r.graph.instr i = .call s →
    (∃ o ∈ s.operands, r.graph.operandCell o = .undefined) ∨ K r i s

def Run.Pending (r : Run σ) (i : InstrId) : Prop :=
  i ∈ r.instrs ∨ dependsOnEntry (r.graph.instr i) = true ∧ r.graph.blockOf i ∈ r.blocks

/-- All edges that control may take from the block are marked. -/
def Run.Marked (r : Run σ) (b : BlockId) : Prop :=
  ∀ c ∈ r.targets b, (r.graph.edge? b c).isSome = true → r.graph.Taken b c

/-- The edges of the block are going to be marked. -/
def Run.Unmarked (r : Run σ) (b : BlockId) : Prop :=
  b ∈ r.blocks ∨ ∃ l ∈ r.instrs, r.graph.last? b = some l

/-- The block was found to leave by an exception. -/
inductive Run.Raising (r : Run σ) (a : BlockId) : Prop
  | call {l s f} (last : r.graph.last? a = some l) (is_call : r.graph.instr l = .call s)
    (mayRaise : s.mayRaise = true) (frequency : s.frequency = some f) (raises : f ≠ .never)
  | raise {l v} (last : r.graph.last? a = some l) (is_raise : r.graph.instr l = .raise v)
    (visited : a ∈ r.visited)

def Run.Landed (r : Run σ) (a : BlockId) : Prop :=
  r.Raising a → ∀ c, Excepts r.graph a c → r.graph.Taken a c

structure Balanced (e : Slack) (r : Run σ) : Prop where
  operable : r.graph.Operable
  tracked : Tracked r
  queued : ∀ i ∈ r.instrs, r.graph.Listed i
  readers : ∀ key, ∀ i ∈ r.readersOf key, r.graph.Listed i
  instr : ∀ i, r.graph.Listed i → r.graph.blockOf i ∈ r.visited →
    e.instr i ∨ p.Stable K e.thrower r i ∨ r.Pending i
  edges : ∀ b ∈ r.visited, e.block b ∨ r.Marked b ∨ r.Unmarked b
  landed : ∀ a, e.exit a ∨ r.Landed a

end Balance

theorem dependsOnEntry_outline (x : Instr) : dependsOnEntry x.outline = dependsOnEntry x := by
  cases x <;> rfl

section Transfer

variable {r r' : Run σ} (same : r.graph.SameOutline r'.graph)
include same

theorem Excepts.iff_of_outline (a b : Nat) : Excepts r'.graph a b ↔ Excepts r.graph a b := by
  rw [Excepts, Excepts, same.successors a (by decide)]

theorem Run.Roused.mono {a : BlockId} (queue : r.instrs ⊆ r'.instrs) (roused : r.Roused a) :
    r'.Roused a := by
  obtain ⟨l, v, last, is_raise, queued⟩ := roused
  refine ⟨l, v, ?_, (same.instr_eq_iff rfl).mpr is_raise, queue queued⟩
  rw [same.last, last]

theorem Run.Pending.mono (queue : r.instrs ⊆ r'.instrs) (blocks : r.blocks ⊆ r'.blocks)
    (pending : r.Pending i) : r'.Pending i := by
  refine pending.imp (fun queued => queue queued) fun waiting => ?_
  rw [same.blockOf, ← dependsOnEntry_outline, same.instr, dependsOnEntry_outline]
  exact ⟨waiting.1, blocks waiting.2⟩

theorem Run.Unmarked.mono (queue : r.instrs ⊆ r'.instrs)
    (blocks : r.blocks ⊆ r'.blocks) (unmarked : r.Unmarked b) : r'.Unmarked b := by
  refine unmarked.imp (fun queued => blocks queued) ?_
  rintro ⟨l, queued, last⟩
  refine ⟨l, queue queued, ?_⟩
  rw [same.last, last]

/-- The same ways into a block have the same flags. -/
theorem edge_eq_of_taken {a b : Nat} (taken : r'.graph.Taken a b ↔ r.graph.Taken a b) :
    r'.graph.edge? a b = r.graph.edge? a b := by
  have bare := same.edge a b
  unfold FlowGraph.Taken at taken
  cases now : r'.graph.edge? a b with
  | none =>
    cases before : r.graph.edge? a b with
    | none => rfl
    | some f =>
      rw [now, before] at bare
      cases bare
  | some f' =>
    cases before : r.graph.edge? a b with
    | none =>
      rw [now, before] at bare
      cases bare
    | some f =>
      rw [now, before, Option.any_some, Option.any_some] at taken
      rw [now, before, Option.map_some, Option.map_some, Option.some.injEq] at bare
      have flag : f'.executable = f.executable := Bool.eq_iff_iff.mpr taken
      cases f
      cases f'
      simp only [EdgeFlags.bare, EdgeFlags.mk.injEq] at bare flag ⊢
      simp [bare, flag]

theorem emptyBlockTargets_congr (taken : ∀ a, r'.graph.Taken a b ↔ r.graph.Taken a b) :
    Run.emptyBlockTargets r'.graph b = Run.emptyBlockTargets r.graph b := by
  have edge : ∀ a, r'.graph.edge? a b = r.graph.edge? a b :=
    fun a => edge_eq_of_taken same (taken a)
  unfold Run.emptyBlockTargets FlowGraph.isExecuted
  have normal : r'.graph.successors b .normal = _ := same.successors b (by decide)
  have exception : r'.graph.successors b .exception = _ := same.successors b (by decide)
  have blockTaken : r'.graph.successors b .blockTaken = _ := same.successors b (by decide)
  simp only [same.preds, edge, normal, exception, blockTaken]

theorem targets_congr
    (taken : r.graph.last? b = none → ∀ a, r'.graph.Taken a b ↔ r.graph.Taken a b)
    (last : ∀ l, r.graph.last? b = some l →
      Untouched r r' l ∧ (l ∈ r'.blockCallers ↔ l ∈ r.blockCallers)) :
    r'.targets b = r.targets b := by
  have normal : r'.graph.successors b .normal = _ := same.successors b (by decide)
  have exception : r'.graph.successors b .exception = _ := same.successors b (by decide)
  have blockTaken : r'.graph.successors b .blockTaken = _ := same.successors b (by decide)
  unfold Run.targets
  simp only [same.block_instrs]
  cases is_last : (r.graph.block b).instrs.getLast? with
  | none => exact emptyBlockTargets_congr same (taken is_last)
  | some l =>
    obtain ⟨untouched, callers⟩ := last l is_last
    have noted : r'.blockCallers.contains l = r.blockCallers.contains l := by
      rw [Bool.eq_iff_iff, List.contains_iff_mem, List.contains_iff_mem]
      exact callers
    simp only [untouched.site]
    cases is_l : r.graph.instr l with
    | branch c yes no =>
      have cell : r'.graph.operandCell c = r.graph.operandCell c := by
        cases c with
        | const v => rfl
        | binding v =>
          have read : v ∈ (r.graph.instr l).operands := by
            rw [is_l]
            exact List.mem_singleton.mpr rfl
          exact congrArg Component.cell (untouched.operands v read)
      simp only [cell]
    | call s => simp only [Run.callTargets, normal, exception, blockTaken, noted]
    | returnWith v => exact normal
    | raise v => exact exception
    | jump t => rfl
    | _ => exact normal

end Transfer

theorem thrown_congr {r r' : Run σ} (same : r.graph.SameOutline r'.graph) {a : BlockId}
    (site : ∀ l, r.graph.last? a = some l → r'.graph.instr l = r.graph.instr l)
    (raise : ∀ l v, r.graph.last? a = some l → r.graph.instr l = .raise v → Untouched r r' l) :
    p.thrown r'.graph a = p.thrown r.graph a := by
  unfold thrown
  rw [same.block_instrs]
  cases is_last : (r.graph.block a).instrs.getLast? with
  | none => rfl
  | some l =>
    rw [Option.map_some, Option.map_some, site l is_last]
    cases is_l : r.graph.instr l with
    | raise v =>
      have slot : v ∈ (r.graph.instr l).slots := by
        rw [is_l]
        exact List.mem_singleton.mpr rfl
      exact congrArg Component.ty ((raise l v is_last is_l).operand p slot (by rw [is_l]; rfl))
    | _ => rfl

section Steps

variable {p} {K : Run σ → InstrId → CallSite → Prop} {r r' : Run σ}

/-- What stays stable: nothing that the instruction reads has changed, and no exception comes to it
that was not there before. -/
theorem Stable.step {N : BlockId → Prop} (lasts : Lasts K)
    (stable : p.Stable K N r i) (steady : Steady r r' i) (queue : r.instrs ⊆ r'.instrs)
    (phi : ∀ t os, r.graph.instr i = .phi t os →
      ∀ a, r'.graph.Taken a (r.graph.blockOf i) ↔ r.graph.Taken a (r.graph.blockOf i))
    (landing : ∀ t frame, r.graph.instr i = .param t .justRaised frame →
      ∀ a, Throws r'.graph a (r.graph.blockOf i) → N a ∨ r'.Roused a ∨
        ∀ m ∈ (p.thrown r'.graph a).members,
          Throws r.graph a (r.graph.blockOf i) ∧ m ∈ (p.thrown r.graph a).members) :
    p.Stable K N r' i := by
  have grows := steady.grows
  have place := grows.blockOf i
  constructor
  · intro x t found target
    rw [p.value?_congr steady.site place grows.scope steady.operands phi] at found
    rw [steady.site] at target
    exact (stable.value x t found target).trans (grows.component t)
  · intro t frame is_landing
    rw [steady.site] at is_landing
    obtain ⟨cell, heard⟩ := stable.landing t frame is_landing
    refine ⟨Cell.le_trans cell (grows.cell t), fun a throws => ?_⟩
    rw [place] at throws
    rcases landing t frame is_landing a throws with slack | roused | old
    · exact .inl slack
    · exact .inr (.inl roused)
    · by_cases known : Throws r.graph a (r.graph.blockOf i)
      · rcases heard a known with slack | roused | covered
        · exact .inl slack
        · exact .inr (.inl (roused.mono grows.toSameOutline queue))
        · exact .inr (.inr fun m thrown => grows.ty t (covered (old m thrown).2))
      · exact .inr (.inr fun m thrown => absurd (old m thrown).1 known)
  · intro s is_call
    rw [steady.site] at is_call
    rcases stable.call s is_call with ⟨o, member, undefined⟩ | holds
    · refine .inl ⟨o, member, ?_⟩
      cases o with
      | const v => exact undefined
      | binding v =>
        have read : v ∈ (r.graph.instr i).operands := by
          rw [is_call]
          exact List.mem_filterMap.mpr ⟨.binding v, member, rfl⟩
        exact (congrArg Component.cell (steady.operands v read)).trans undefined
    · exact .inr (lasts r r' i s is_call holds steady)

theorem Balanced.step {e : Slack} (balanced : p.Balanced K e r) (tracked : Tracked r')
    (grows : r.graph.Grows r'.graph) (visited : r'.visited = r.visited) (queue : r.instrs ⊆ r'.instrs)
    (blocks : r.blocks ⊆ r'.blocks) (queued : ∀ i ∈ r'.instrs, r.graph.Listed i)
    (readers : ∀ key, ∀ i ∈ r'.readersOf key, r.graph.Listed i)
    (stable : ∀ i, r.graph.Listed i → r.graph.blockOf i ∈ r.visited → ¬e.instr i →
      p.Stable K e.thrower r i → p.Stable K e.thrower r' i ∨ r'.Pending i)
    (marked : ∀ b ∈ r.visited, ¬e.block b → r.Marked b → r'.Marked b ∨ r'.Unmarked b)
    (raising : ∀ a, ¬e.exit a → r'.Raising a → r.Raising a) :
    p.Balanced K e r' := by
  have same := grows.toSameOutline
  constructor
  · exact same.operable balanced.operable
  · exact tracked
  · exact fun i member => (same.listed i).mpr (queued i member)
  · exact fun key i member => (same.listed i).mpr (readers key i member)
  · intro i listed at_visited
    rw [same.listed] at listed
    rw [same.blockOf, visited] at at_visited
    by_cases slack : e.instr i
    · exact .inl slack
    · rcases (balanced.instr i listed at_visited).resolve_left slack with settled | pending
      · exact .inr (stable i listed at_visited slack settled)
      · exact .inr (.inr (pending.mono same queue blocks))
  · intro b at_visited
    rw [visited] at at_visited
    by_cases slack : e.block b
    · exact .inl slack
    · rcases (balanced.edges b at_visited).resolve_left slack with settled | unmarked
      · exact .inr (marked b at_visited slack settled)
      · exact .inr (.inr (unmarked.mono same queue blocks))
  · intro a
    by_cases slack : e.exit a
    · exact .inl slack
    · refine .inr fun raises c excepts => grows.taken a c ?_
      exact (balanced.landed a).resolve_left slack (raising a slack raises) c
        ((Excepts.iff_of_outline same a c).mp excepts)

/-- A step that takes no edge. What it touches has to wait, or is left out of account. -/
theorem Balanced.still {e : Slack} (lasts : Lasts K) (balanced : p.Balanced K e r)
    (tracked : Tracked r') (grows : r.graph.Grows r'.graph)
    (edges : r'.graph.blocks = r.graph.blocks) (visited : r'.visited = r.visited)
    (queue : r.instrs ⊆ r'.instrs)
    (blocks : r.blocks ⊆ r'.blocks) (queued : ∀ i ∈ r'.instrs, r.graph.Listed i)
    (readers : ∀ key, ∀ i ∈ r'.readersOf key, r.graph.Listed i)
    (steady : ∀ i, r.graph.Listed i → ¬e.instr i → i ∈ r'.instrs ∨ Steady r r' i)
    (thrown : ∀ a, e.thrower a ∨ r'.Roused a ∨
      (p.thrown r'.graph a).members ⊆ (p.thrown r.graph a).members)
    (exits : ∀ b l, r.graph.last? b = some l → ¬e.block b →
      l ∈ r'.instrs ∨ Untouched r r' l ∧ (l ∈ r'.blockCallers ↔ l ∈ r.blockCallers))
    (raising : ∀ a, ¬e.exit a → r'.Raising a → r.Raising a) :
    p.Balanced K e r' := by
  have edge : r'.graph.edge? = r.graph.edge? := by
    funext a b
    rw [FlowGraph.edge?, FlowGraph.edge?, FlowGraph.block_congr edges]
  have taken : r'.graph.Taken = r.graph.Taken := by
    funext a b
    rw [FlowGraph.Taken, FlowGraph.Taken, edge]
  have throws : ∀ a b, Throws r'.graph a b ↔ Throws r.graph a b := by
    intro a b
    simp only [Throws, Raised, Passes, edge, FlowGraph.block_congr edges]
  apply balanced.step tracked grows visited queue blocks queued readers
  · intro i listed _ slack stable
    rcases steady i listed slack with waits | steady
    · exact .inr (.inl waits)
    · refine .inl (stable.step lasts steady queue ?_ ?_)
      · intro t os is_phi a
        rw [taken]
      · intro t frame is_landing a throws'
        rcases thrown a with slack | roused | fewer
        · exact .inl slack
        · exact .inr (.inl roused)
        · exact .inr (.inr fun m thrown => ⟨(throws a _).mp throws', fewer thrown⟩)
  · intro b _ slack marked
    by_cases waits : ∃ l ∈ r'.instrs, r.graph.last? b = some l
    · obtain ⟨l, waits, last⟩ := waits
      refine .inr (.inr ⟨l, waits, ?_⟩)
      rw [grows.toSameOutline.last, last]
    · refine .inl fun c target edge' => ?_
      have same : r'.targets b = r.targets b := by
        apply targets_congr grows.toSameOutline
        · intro _ a
          rw [taken]
        · intro l last
          exact (exits b l last slack).resolve_left fun queued => waits ⟨l, queued, last⟩
      rw [same] at target
      rw [edge] at edge'
      rw [taken]
      exact marked c target edge'
  · exact raising

end Steps

end Propagation

end ScriptFlow
