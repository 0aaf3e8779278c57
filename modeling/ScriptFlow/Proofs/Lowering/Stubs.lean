import Mathlib.Data.Set.Insert
import ScriptFlow.Proofs.Lowering.Logic

/-! Blocks under construction. A lowering writes only to blocks that it holds as stubs. A stub is
sealed when its last instruction and its edges are there, and is not touched again. So a property
of graphs and stubs holds all along when the elementary changes of stubs keep it. -/

namespace ScriptFlow

/-- Instructions that come last in their block, because control leaves it there. -/
def Instr.leaves : Instr → Bool
  | .call s => s.mayRaise
  | x => x.isTerminator

namespace FlowGraph

/-- The edges out of a block when one more is added. -/
def link (es : List (Nat × EdgeFlags)) (t : Nat) (f : EdgeFlags) : List (Nat × EdgeFlags) :=
  if (es.lookup t).isSome then es.map fun e => if e.1 = t then (e.1, e.2.union f) else e
  else es ++ [(t, f)]

theorem succs_addEdge (g : FlowGraph) {a : Nat} (inside : a < g.blocks.size) (t c : Nat)
    (f : EdgeFlags) :
    ((g.addEdge a t f).block c).succs =
      if a = c then link (g.block a).succs t f else (g.block c).succs := by
  unfold addEdge link edge?
  split
  · rw [modifyEdge, block_modifyBlock]
    split <;> grind
  · rw [block_field_modifyBlock _ (·.succs) t c (fun blk => { blk with preds := blk.preds ++ [a] })
      fun _ => rfl, block_modifyBlock]
    split <;> grind

theorem link_new {es : List (Nat × EdgeFlags)} {t : Nat} (absent : t ∉ es.map (·.1))
    (f : EdgeFlags) : link es t f = es ++ [(t, f)] := by
  unfold link
  rw [if_neg fun known => absent ((lookup_isSome_iff es t).mp known)]

end FlowGraph

namespace Lowering

/-- A block under construction, with its last instruction once control leaves it, and its edges so
far. The end of the body of a block literal has no instructions. -/
inductive Stub where
  | code (block : Nat) (last : Option Instr) (succs : List (Nat × EdgeFlags))
  | exit (block : Nat) (succs : List (Nat × EdgeFlags))

namespace Stub

/-- A block that more instructions may be put into. -/
abbrev opened (b : Nat) : Stub := .code b none []

def block : Stub → Nat
  | .code b _ _ | .exit b _ => b

@[simp] theorem block_code (b : Nat) (last : Option Instr) (es : List (Nat × EdgeFlags)) :
    (Stub.code b last es).block = b := rfl

@[simp] theorem block_exit (b : Nat) (es : List (Nat × EdgeFlags)) : (Stub.exit b es).block = b := rfl

def link (t : Nat) (f : EdgeFlags) : Stub → Stub
  | .code b last es => .code b last (FlowGraph.link es t f)
  | .exit b es => .exit b (FlowGraph.link es t f)

/-- The edges fit the last instruction. -/
inductive Complete : Stub → Prop where
  | jump (b t : Nat) (f : EdgeFlags) : Complete (.code b (some (.jump t)) [(t, f)])
  | branch (b : Nat) (c : Operand) (yes no : Nat) :
    Complete (.code b (some (.branch c yes no)) (FlowGraph.link [(yes, .none)] no .none))
  | returnWith (b : Nat) (v : Operand) (t : Nat) :
    Complete (.code b (some (.returnWith v)) [(t, .none)])
  | raise (b : Nat) (v : Operand) (t : Nat) : Complete (.code b (some (.raise v)) [(t, abnormal)])
  | call (b : Nat) (s : CallSite) (raises : s.mayRaise = true) (landing after : Nat) :
    Complete (.code b (some (.call s)) [(landing, abnormal), (after, .none)])
  | callBlock (b : Nat) (s : CallSite) (raises : s.mayRaise = true) (landing after body : Nat) :
    Complete (.code b (some (.call s)) [(landing, abnormal), (after, .none), (body, blockTaken)])
  | exit (b body after landing : Nat) :
    Complete (.exit b [(body, blockTaken), (after, .none), (landing, abnormal)])

end Stub

/-- The methods that are called without being named in the tree. -/
def builtinCalls : List String :=
  ["===", "[]", "[]=", "+", "-", ">", "<=", "!", "size", "new", "call", "to_a", "to_ary", "to_proc",
    "to_s", "define_method", "const_get", "const_set", "const_defined?", "instance_variable_get",
    "instance_variable_set", "instance_variable_defined?", "respond_to?"]

/-- What a lowering may do, and a property of its graph and stubs. The property also speaks of a set
of blocks that edges may lead to. -/
structure Policy where
  /-- The method that `super` calls. -/
  methodName : Option String
  calls : String → Prop
  invariant : Set Nat → FlowGraph → List Stub → Prop

/-- The elementary changes keep the property. -/
class Policy.Stable (P : Policy) : Prop where
  builtin : ∀ name ∈ builtinCalls, P.calls name
  inside {L : Set Nat} {g : FlowGraph} {O : List Stub} {t : Nat} : P.invariant L g O → t ∈ L →
    t < g.blocks.size
  mono {L L' : Set Nat} {g : FlowGraph} {O : List Stub} : P.invariant L g O → L' ⊆ L →
    P.invariant L' g O
  perm {L : Set Nat} {g : FlowGraph} {O O' : List Stub} : P.invariant L g O → O.Perm O' →
    P.invariant L g O'
  same {L : Set Nat} {g h : FlowGraph} {O : List Stub} : P.invariant L g O →
    h.blocks = g.blocks → h.instrs = g.instrs → P.invariant L h O
  pushBlock {L : Set Nat} {g : FlowGraph} {O : List Stub} (name : String) : P.invariant L g O →
    P.invariant (insert g.blocks.size L) (g.pushBlock name).2 (.opened g.blocks.size :: O)
  pushExit {L : Set Nat} {g : FlowGraph} {O : List Stub} (name : String) : P.invariant L g O →
    P.invariant (insert g.blocks.size L) (g.pushBlock (name ++ "-Exit")).2
      (.exit g.blocks.size [] :: O)
  /-- A block that is never used. -/
  waste {L : Set Nat} {g : FlowGraph} {O : List Stub} (name : String) : P.invariant L g O →
    P.invariant L (g.pushBlock name).2 O
  emit {L : Set Nat} {g : FlowGraph} {O : List Stub} {b : Nat} {x : Instr} : x.leaves = false →
    (∀ s, x.site? = some s → P.calls s.method) → P.invariant L g (.opened b :: O) →
    P.invariant L (g.pushInstr b x) (.opened b :: O)
  finish {L : Set Nat} {g : FlowGraph} {O : List Stub} {b : Nat} {x : Instr} : x.leaves = true →
    (∀ s, x.site? = some s → P.calls s.method) → P.invariant L g (.opened b :: O) →
    P.invariant L (g.pushInstr b x) (.code b (some x) [] :: O)
  link {L : Set Nat} {g : FlowGraph} {O : List Stub} {x : Stub} {t : Nat} (f : EdgeFlags) : t ∈ L →
    P.invariant L g (x :: O) → P.invariant L (g.addEdge x.block t f) (x.link t f :: O)
  close {L : Set Nat} {g : FlowGraph} {O : List Stub} {x : Stub} : x.Complete →
    P.invariant L g (x :: O) → P.invariant L g O

structure Targets.Obey (L : Set Nat) (t : Targets) : Prop where
  breakTo : ∀ b, t.breakTo = some b → b ∈ L
  nextTo : ∀ b, t.nextTo = some b → b ∈ L
  redoTo : ∀ b, t.redoTo = some b → b ∈ L
  returnTo : t.returnTo ∈ L
  rescueTo : t.rescueTo ∈ L
  yieldFailTo : t.yieldFailTo ∈ L

structure Context.Obeys (P : Policy) (L : Set Nat) (c : Context) : Prop where
  methodName : c.methodName = P.methodName
  targets : c.targets.Obey L

theorem Targets.Obey.mono {L L' : Set Nat} {t : Targets} (obey : t.Obey L) (le : L ⊆ L') :
    t.Obey L' where
  breakTo b h := le (obey.breakTo b h)
  nextTo b h := le (obey.nextTo b h)
  redoTo b h := le (obey.redoTo b h)
  returnTo := le obey.returnTo
  rescueTo := le obey.rescueTo
  yieldFailTo := le obey.yieldFailTo

theorem Context.Obeys.mono {P : Policy} {L L' : Set Nat} {c : Context} (obeys : c.Obeys P L)
    (le : L ⊆ L') : c.Obeys P L' :=
  ⟨obeys.methodName, obeys.targets.mono le⟩

/-- Run with the given current block and stubs, the step leaves such a block and such stubs as `Q`
says, and keeps the invariant. -/
def Moves (P : Policy) {α : Type} (L : Set Nat) (here : Nat) (O : List Stub) (act : Lower α)
    (Q : α → Nat → List Stub → Prop) : Prop :=
  ∀ (c : Context) (s : State), c.Obeys P L → s.current = here → P.invariant L s.graph O →
    ∀ (a : α) (s' : State), act c s = .ok a s' →
      ∃ O', Q a s'.current O' ∧ P.invariant L s'.graph O'

/-- Control flows through the step: it goes in at an open block and comes out at one, and leaves all
other stubs as they are. -/
def Flows (P : Policy) {α : Type} (act : Lower α) (Q : α → Prop) : Prop :=
  ∀ (L : Set Nat) (here : Nat) (O : List Stub),
    Moves P L here (.opened here :: O) act fun a here' O' => O' = .opened here' :: O ∧ Q a

abbrev Whatever {α : Type} : α → Prop := fun _ => True

variable {P : Policy} {α β : Type} {L : Set Nat} {here : Nat} {O : List Stub}

namespace Moves

variable {Q : α → Nat → List Stub → Prop} {R : β → Nat → List Stub → Prop}

theorem pure {a : α} (holds : Q a here O) : Moves P L here O (Pure.pure a) Q := by
  intro c s _ at_here inv b s' run
  cases run
  exact ⟨O, at_here ▸ holds, inv⟩

theorem bind {act : Lower α} {f : α → Lower β} (first : Moves P L here O act Q)
    (second : ∀ a here' O', Q a here' O' → Moves P L here' O' (f a) R) :
    Moves P L here O (act >>= f) R := by
  intro c s obeys at_here inv b s' run
  obtain ⟨a, s₁, run₁, run₂⟩ := run_bind run
  obtain ⟨O₁, post₁, inv₁⟩ := first c s obeys at_here inv a s₁ run₁
  exact second a _ O₁ post₁ c s₁ obeys rfl inv₁ b s' run₂

theorem weaken {act : Lower α} {Q' : α → Nat → List Stub → Prop} (moves : Moves P L here O act Q)
    (weaker : ∀ a here' O', Q a here' O' → Q' a here' O') : Moves P L here O act Q' := by
  intro c s obeys at_here inv a s' run
  obtain ⟨O', post, inv'⟩ := moves c s obeys at_here inv a s' run
  exact ⟨O', weaker _ _ _ post, inv'⟩

theorem throw {e : Error} : Moves P L here O (MonadExcept.throw e) Q := by
  intro c s _ _ _ a s' run
  cases run

/-- The result of a successful check, or of a look at the context, is used at once. -/
theorem check {x : Except Error α} {f : α → Lower β}
    (rest : ∀ a, x = .ok a → Moves P L here O (f a) R) :
    Moves P L here O ((liftM x : Lower α) >>= f) R := by
  cases x with
  | error e =>
    intro c s _ _ _ a s' run
    cases run
  | ok a => exact rest a rfl

theorem read {f : Context → Lower β} (rest : ∀ c : Context, c.Obeys P L → Moves P L here O (f c) R) :
    Moves P L here O (MonadReader.read >>= f) R :=
  fun c s obeys => rest c obeys c s obeys

theorem get {f : State → Lower β} (rest : ∀ s, Moves P L here O (f s) R) :
    Moves P L here O (MonadState.get >>= f) R :=
  fun c s => rest s c s

theorem currentBlock {f : BlockId → Lower β} (rest : Moves P L here O (f here) R) :
    Moves P L here O (Lowering.currentBlock >>= f) R := by
  intro c s obeys at_here inv a s' run
  subst at_here
  exact rest c s obeys rfl inv a s' run

theorem withTargets {act : Lower α} {targets : Targets} (obey : targets.Obey L)
    (moves : Moves P L here O act Q) : Moves P L here O (Lowering.withTargets targets act) Q :=
  fun c s obeys => moves { c with targets } s ⟨obeys.methodName, obey⟩

end Moves

namespace Flows

variable {Q : α → Prop} {R : β → Prop}

theorem pure {a : α} (holds : Q a) : Flows P (Pure.pure a) Q :=
  fun _ _ _ => .pure ⟨rfl, holds⟩

theorem bind {act : Lower α} {f : α → Lower β} (first : Flows P act Q)
    (second : ∀ a, Q a → Flows P (f a) R) : Flows P (act >>= f) R :=
  fun L here O => (first L here O).bind fun a here' O' ⟨same, q⟩ => by
    subst same
    exact second a q L here' O

/-- Control flows on into steps that open and seal blocks. -/
theorem into {act : Lower α} {f : α → Lower β} {R : β → Nat → List Stub → Prop}
    (first : Flows P act Q) (rest : ∀ a here', Q a → Moves P L here' (.opened here' :: O) (f a) R) :
    Moves P L here (.opened here :: O) (act >>= f) R :=
  (first L here O).bind fun a here' O' ⟨same, q⟩ => by
    subst same
    exact rest a here' q

theorem weaken {act : Lower α} {Q' : α → Prop} (flows : Flows P act Q) (weaker : ∀ a, Q a → Q' a) :
    Flows P act Q' :=
  fun L here O => (flows L here O).weaken fun a _ _ ⟨same, q⟩ => ⟨same, weaker a q⟩

theorem any {act : Lower α} (flows : Flows P act Q) : Flows P act Whatever :=
  flows.weaken fun _ _ => trivial

theorem map {act : Lower α} {f : α → β} (flows : Flows P act Q) (post : ∀ a, Q a → R (f a)) :
    Flows P (f <$> act) R := by
  rw [map_eq_pure_bind]
  exact flows.bind fun a q => .pure (post a q)

theorem throw {e : Error} : Flows P (MonadExcept.throw e) Q := fun _ _ _ => .throw

theorem check {x : Except Error α} {f : α → Lower β} (rest : ∀ a, x = .ok a → Flows P (f a) R) :
    Flows P ((liftM x : Lower α) >>= f) R :=
  fun L here O => .check fun a ok => rest a ok L here O

theorem read {f : Context → Lower β}
    (rest : ∀ c : Context, c.methodName = P.methodName → Flows P (f c) R) :
    Flows P (MonadReader.read >>= f) R :=
  fun L here O => .read fun c obeys => rest c obeys.methodName L here O

theorem get {f : State → Lower β} (rest : ∀ s, Flows P (f s) R) :
    Flows P (MonadState.get >>= f) R :=
  fun L here O => .get fun s => rest s L here O

theorem currentBlock {f : BlockId → Lower β} (rest : ∀ b, Flows P (f b) R) :
    Flows P (Lowering.currentBlock >>= f) R :=
  fun L here O => .currentBlock (rest here L here O)

theorem mapM {f : α → Lower β} {R : β → Prop} {l : List α} (step : ∀ a ∈ l, Flows P (f a) R) :
    Flows P (l.mapM f) fun bs => ∀ b ∈ bs, R b := by
  induction l with
  | nil => exact .pure (by simp)
  | cons a l ih =>
    rw [List.mapM_cons]
    refine (step a (by simp)).bind fun b holds => ?_
    refine (ih fun a member => step a (by simp [member])).bind fun bs rest => .pure ?_
    simpa using ⟨holds, rest⟩

theorem forM {f : α → Lower PUnit} {l : List α} (step : ∀ a ∈ l, Flows P (f a) Whatever) :
    Flows P (l.forM f) Whatever := by
  induction l with
  | nil => exact .pure trivial
  | cons a l ih =>
    change Flows P (f a >>= fun _ => l.forM f) Whatever
    exact (step a (by simp)).bind fun _ _ => ih fun b member => step b (by simp [member])

theorem foldlM {f : β → α → Lower β} {l : List α} {b : β}
    (step : ∀ b, ∀ a ∈ l, Flows P (f b a) Whatever) : Flows P (l.foldlM f b) Whatever := by
  induction l generalizing b with
  | nil => exact .pure trivial
  | cons a l ih =>
    rw [List.foldlM_cons]
    exact (step b a (by simp)).bind fun b' _ => ih fun b a member => step b a (by simp [member])

end Flows

end Lowering

end ScriptFlow
