import Mathlib.Logic.Relation
import ScriptFlow.Proofs.FlowGraph.Outline
import ScriptFlow.Proofs.Dict
import ScriptFlow.Proofs.Stateful
import ScriptFlow.Propagation.Evaluate

/-! What the evaluation of an instruction can do to a run, said once. Everything that holds of all
runs is derived from these changes. -/

namespace ScriptFlow.Propagation

variable {σ : Type}

open Relation (ReflTransGen)

theorem chains_of_steps {α : Type} (R : α → α → Prop) : Chains (ReflTransGen R) :=
  ⟨fun _ => .refl, fun first second => first.trans second⟩

/-- One question to the source of summaries. -/
inductive Query (source : Summaries σ) : σ → σ → Prop
  | summarize (a : σ) (m : MethodId) (receiver : Ty) (args : Option (List Ty)) (block : Ty) :
    Query source a ((source.summarize m receiver args block).run a).2
  | blockUse (a : σ) (m : MethodId) : Query source a ((source.blockUse m).run a).2

/-- What the dispatch of a call does: it asks for summaries, and reads or writes variables. -/
inductive Look (p : Propagation σ) (i : InstrId) : Run σ → Run σ → Prop
  | ask (r : Run σ) {a : σ} (query : Query p.source r.source a) : Look p i r { r with source := a }
  | read (r : Run σ) (key : VariableKey) : Look p i r (r.addReader i key)
  | write (r : Run σ) (ty : Ty) (key : VariableKey) : Look p i r (r.assignVariable ty key)

/-- What the evaluation of instruction `i` of block `b` does. -/
inductive Change (p : Propagation σ) (i : InstrId) (b : BlockId) : Run σ → Run σ → Prop
  | look {r r' : Run σ} (look : Look p i r r') : Change p i b r r'
  | count (r : Run σ) : Change p i b r { r with evaluations := r.evaluations + 1 }
  | learn (r : Run σ) (t : BindingId) (cell : Cell) (ty : Ty)
    (target : (r.graph.instr i).target? = some t)
    (phi : ∀ t os, r.graph.instr i = .phi t os → ⟨cell, ty⟩ = phiValue r.graph b os) :
    Change p i b r (r.learn t cell ty)
  | store (r : Run σ) (name : String) (value : Operand) : Change p i b r (p.storeGlobal name value r)
  | report (r : Run σ) (f : Finding) : Change p i b r (r.report f)
  | record (r : Run σ) (s s' : CallSite) (is_call : r.graph.instr i = .call s)
    (same : s'.reset = s.reset) (raises : s.raises.members ⊆ s'.raises.members)
    (methods : s.methods ⊆ s'.methods) (frequency : s'.frequency.isSome = true) :
    Change p i b r { r with graph := r.graph.setInstr i (.call s') }
  | caller (r : Run σ) : Change p i b r { r with blockCallers := insertNat i r.blockCallers }
  | notify (r : Run σ) : Change p i b r (r.notifyRaise b)
  | mark (r : Run σ) (c : BlockId) (last : (r.graph.block b).instrs.getLast? = some i) :
    Change p i b r (r.markEdge b c)

/-! Dispatch only looks. -/

section Dispatch

variable (p : Propagation σ)

theorem along_aggregate (r : Resolver) (res : Resolution) (args : Option (List Ty)) (block : Ty) :
    Along (ReflTransGen (Query p.source)) (r.aggregate p.source res args block) := by
  have chains := chains_of_steps (Query p.source)
  unfold Resolver.aggregate
  refine .ite (fun _ => .pure chains _) fun _ => .ite (fun _ => .pure chains _) fun _ => ?_
  refine .bind chains (.foldlM chains ?_ _ _) fun _ => .pure chains _
  intro s t
  unfold Resolver.sample
  refine .ite (fun _ => .foldlM chains ?_ _ _) fun _ => .pure chains _
  intro s tuple
  exact .bind chains (fun a => .single (.summarize a _ _ _ _)) fun _ => .pure chains _

theorem along_summarized (i : InstrId) (r : Resolver) (res : Resolution) (call : Call) :
    Along (ReflTransGen (Look p i)) (p.summarized r res call) := by
  intro run
  have lift : ∀ a, ReflTransGen (Query p.source) run.source a →
      ReflTransGen (Look p i) run { run with source := a } := by
    intro a queries
    induction queries with
    | refl => exact .refl
    | tail _ query ih => exact ih.tail (.ask _ query)
  exact lift _ (p.along_aggregate r res _ _ run.source)

theorem along_readVariable (call : Call) (name : String) (methods : List MethodId) :
    Along (ReflTransGen (Look p call.instr)) (p.readVariable call name methods) := by
  intro r
  unfold readVariable
  split
  · exact .refl
  · have lift : ∀ (ks : List ModuleId) (r : Run σ), ReflTransGen (Look p call.instr) r
        (ks.foldl (fun r k => r.addReader call.instr (k, name)) r) := by
      intro ks
      induction ks with
      | nil => exact fun r => .refl
      | cons k ks ih => exact fun r => (ih _).head (.read r (k, name))
    exact lift _ r

theorem along_writeVariable (i : InstrId) (call : Call) (name : String) (value : Component)
    (methods : List MethodId) :
    Along (ReflTransGen (Look p i)) (p.writeVariable call name value methods) := by
  intro r
  unfold writeVariable
  split
  · have lift : ∀ (ks : List ModuleId) (r : Run σ), ReflTransGen (Look p i) r
        (ks.foldl (fun r k => r.assignVariable value.ty (k, name)) r) := by
      intro ks
      induction ks with
      | nil => exact fun r => .refl
      | cons k ks ih => exact fun r => (ih _).head (.write r value.ty (k, name))
    exact lift _ r
  · exact .refl

theorem along_decideContextual (call : Call) (methods : List MethodId)
    {again : String → Bool → StateM (Run σ) Evaluation}
    (looks : ∀ name ignore, Along (ReflTransGen (Look p call.instr)) (again name ignore))
    (m : Contextual) :
    Along (ReflTransGen (Look p call.instr)) (p.decideContextual call methods again m) := by
  have chains := chains_of_steps (Look p call.instr)
  unfold decideContextual
  split
  · exact .pure chains _
  · exact .pure chains _
  · split
    · exact .map _ (p.along_readVariable call _ methods)
    · exact .pure chains _
  · split
    · exact .map _ (p.along_writeVariable call.instr call _ _ methods)
    · exact .pure chains _
  · split
    · exact .map _ (looks _ _)
    · exact .pure chains _
  · exact .pure chains _
  · exact .pure chains _

theorem along_dispatchOnce (call : Call) {again : String → Bool → StateM (Run σ) Evaluation}
    (looks : ∀ name ignore, Along (ReflTransGen (Look p call.instr)) (again name ignore)) :
    Along (ReflTransGen (Look p call.instr)) (p.dispatchOnce call again) := by
  have chains := chains_of_steps (Look p call.instr)
  unfold dispatchOnce
  refine .bind chains (fun r => chains.refl r) fun r => ?_
  extract_lets g res contextual finish
  have finishes : ∀ decided, Along (ReflTransGen (Look p call.instr)) (finish decided) := by
    intro decided
    dsimp only [finish]
    split
    · exact .pure chains _
    · split
      · exact .pure chains _
      · split
        · exact .pure chains _
        · exact p.along_summarized call.instr _ _ call
  clear_value finish contextual
  cases contextual with
  | some m => exact .bind chains (p.along_decideContextual call _ looks m) finishes
  | none => exact .bind chains (.pure chains _) finishes

theorem along_dispatchKnown (args : List Component) (call : Call) :
    Along (ReflTransGen (Look p call.instr)) (p.dispatchKnown args call) := by
  induction args generalizing call with
  | nil =>
    rw [dispatchKnown]
    exact p.along_dispatchOnce { call with args := some [] } fun _ _ => .pure (chains_of_steps _) _
  | cons x xs ih =>
    rw [dispatchKnown]
    exact p.along_dispatchOnce { call with args := some (x :: xs) } fun name ignore =>
      ih { call with name, ignoreVisibility := ignore }

theorem along_dispatch (call : Call) : Along (ReflTransGen (Look p call.instr)) (p.dispatch call) := by
  unfold dispatch
  split
  · exact p.along_dispatchKnown _ call
  · exact p.along_dispatchOnce call fun _ _ => .pure (chains_of_steps _) _

end Dispatch

/-! What dispatch leaves alone. -/

/-- Only the queue of instructions gets longer. -/
theorem Run.enqueueAll_eq (r : Run σ) (is : List InstrId) :
    ∃ queue, r.enqueueAll is = { r with instrs := queue } := by
  induction is generalizing r with
  | nil => exact ⟨r.instrs, rfl⟩
  | cons i is ih =>
    have first : ∃ queue, r.enqueue i = { r with instrs := queue } := by
      unfold Run.enqueue
      split
      · exact ⟨r.instrs, rfl⟩
      · exact ⟨_, rfl⟩
    obtain ⟨queue, enqueued⟩ := first
    obtain ⟨queue', enqueued'⟩ := ih (r.enqueue i)
    refine ⟨queue', ?_⟩
    change (r.enqueue i).enqueueAll is = _
    rw [enqueued', enqueued]

/-- A run in which only instance variables, queued instructions and summaries may have changed. -/
structure Aside (r r' : Run σ) : Prop where
  blocks : r'.graph.blocks = r.graph.blocks
  instrs : r'.graph.instrs = r.graph.instrs
  bindings : r'.graph.bindings = r.graph.bindings
  scope : r'.graph.scope = r.graph.scope
  queue : r'.blocks = r.blocks
  visited : r'.visited = r.visited
  blockCallers : r'.blockCallers = r.blockCallers

namespace Aside

theorem refl (r : Run σ) : Aside r r := ⟨rfl, rfl, rfl, rfl, rfl, rfl, rfl⟩

theorem trans {r r' r'' : Run σ} (first : Aside r r') (second : Aside r' r'') : Aside r r'' :=
  ⟨second.blocks.trans first.blocks, second.instrs.trans first.instrs,
    second.bindings.trans first.bindings, second.scope.trans first.scope,
    second.queue.trans first.queue, second.visited.trans first.visited,
    second.blockCallers.trans first.blockCallers⟩

theorem enqueueAll (r : Run σ) (is : List InstrId) : Aside r (r.enqueueAll is) := by
  obtain ⟨queue, enqueued⟩ := Run.enqueueAll_eq r is
  rw [enqueued]
  exact ⟨rfl, rfl, rfl, rfl, rfl, rfl, rfl⟩

theorem assignVariable (r : Run σ) (ty : Ty) (key : VariableKey) :
    Aside r (r.assignVariable ty key) := by
  unfold Run.assignVariable
  generalize (r.variableType key).extend ty = extended
  obtain ⟨grew, joined⟩ := extended
  cases grew with
  | true =>
    simp only [↓reduceIte]
    apply trans _ (enqueueAll _ _)
    exact ⟨rfl, rfl, rfl, rfl, rfl, rfl, rfl⟩
  | false => exact ⟨rfl, rfl, rfl, rfl, rfl, rfl, rfl⟩

theorem of_look {p : Propagation σ} {i : InstrId} {r r' : Run σ} (look : Look p i r r') :
    Aside r r' := by
  cases look with
  | ask _ => exact ⟨rfl, rfl, rfl, rfl, rfl, rfl, rfl⟩
  | read key => exact ⟨rfl, rfl, rfl, rfl, rfl, rfl, rfl⟩
  | write ty key => exact assignVariable r ty key

theorem of_looks {p : Propagation σ} {i : InstrId} {r r' : Run σ}
    (looks : ReflTransGen (Look p i) r r') : Aside r r' := by
  induction looks with
  | refl => exact refl r
  | tail _ look ih => exact ih.trans (of_look look)

end Aside

/-! Evaluation. -/

/-- A call site with the outcome of one more evaluation. -/
def Evaluation.joinTo (e : Evaluation) (s : CallSite) : CallSite :=
  { s with
    raises := s.raises.join e.raises, frequency := some e.frequency, decision := e.decision
    methods := e.methods.foldl (fun ms m => insertNat m ms) s.methods }

/-- Whether the outcome tells something new about what is raised. -/
def Evaluation.isNews (e : Evaluation) (s : CallSite) : Bool :=
  (s.raises.extend e.raises).1 || s.frequency != some e.frequency

def written (i : InstrId) (site : CallSite) (e : Evaluation) (r : Run σ) : Run σ :=
  { r with graph := r.graph.setInstr i (.call (e.joinTo site)) }

/-- The block passed to the call may run. -/
def blockNoted (i : InstrId) (e : Evaluation) (r : Run σ) : Run σ :=
  if e.callsBlock then { r with blockCallers := insertNat i r.blockCallers } else r

def arityNoted (i : InstrId) (b : BlockId) (site : CallSite) (e : Evaluation) (r : Run σ) : Run σ :=
  if e.arityMismatch then
    r.report ⟨.noMatchingSignature, some b, some i, mismatchMessage site.method⟩
  else r

def targetLearned (site : CallSite) (e : Evaluation) (r : Run σ) : Run σ :=
  site.target.elim r fun t => r.learn t e.cell e.ty

def raiseNoted (b : BlockId) (site : CallSite) (e : Evaluation) (r : Run σ) : Run σ :=
  if e.isNews site then r.notifyRaise b else r

/-- Recording the outcome of a call, step by step. -/
theorem record_eq {i : InstrId} {b : BlockId} {r : Run σ} {site : CallSite}
    (is_call : r.graph.instr i = .call site) (e : Evaluation) :
    record i b site e r = raiseNoted b site e (targetLearned site e
      (arityNoted i b site e (blockNoted i e (written i site e r)))) := by
  have noted : blockNoted i e (written i site e r) =
      { r with
        graph := r.graph.setInstr i (.call (e.joinTo site))
        blockCallers := if e.callsBlock then insertNat i r.blockCallers else r.blockCallers } := by
    unfold blockNoted written
    split <;> rfl
  rw [noted]
  unfold record
  rw [is_call, Instr.site?, Option.getD_some]
  obtain ⟨kind, target, receiver, method, args, block, ignore, mayRaise, found⟩ := site
  cases target with
  | none => rfl
  | some t => rfl

theorem grows_enqueueAll (r : Run σ) (is : List InstrId) :
    r.graph.Grows (r.enqueueAll is).graph := by
  have aside := Aside.enqueueAll r is
  exact .of_same aside.blocks aside.instrs aside.bindings aside.scope

/-- What is found out is joined to a binding. -/
def Run.joined (r : Run σ) (t : BindingId) (cell : Cell) (ty : Ty) : Run σ :=
  { r with graph := r.graph.modifyBinding t fun x =>
      { x with cell := (r.graph.binding t).cell.join cell, ty := (r.graph.binding t).ty.join ty } }

theorem learn_eq (r : Run σ) (t : BindingId) (cell : Cell) (ty : Ty) :
    r.learn t cell ty =
      if (r.graph.binding t).cell.join cell ≠ (r.graph.binding t).cell ∨
          ((r.graph.binding t).ty.extend ty).1 = true then
        (r.joined t cell ty).enqueueAll (r.graph.binding t).uses
      else r := rfl

theorem grows_learn (r : Run σ) (t : BindingId) (cell : Cell) (ty : Ty) :
    r.graph.Grows (r.learn t cell ty).graph := by
  rw [learn_eq]
  split
  · exact (FlowGraph.grows_learn r.graph t cell ty).trans (grows_enqueueAll (r.joined t cell ty) _)
  · exact .refl _

theorem grows_report (r : Run σ) (f : Finding) : r.graph.Grows (r.report f).graph := by
  unfold Run.report
  split
  · exact .refl _
  · exact .of_same rfl rfl rfl rfl

theorem grows_markEdge (r : Run σ) (a b : BlockId) : r.graph.Grows (r.markEdge a b).graph := by
  unfold Run.markEdge
  split
  · split
    · exact FlowGraph.grows_modifyEdge _ _ _
    · exact .refl _
  · exact .refl _

theorem Change.grows {p : Propagation σ} {i : InstrId} {b : BlockId} {r r' : Run σ}
    (change : Change p i b r r') : r.graph.Grows r'.graph := by
  cases change with
  | look look =>
    have aside := Aside.of_look look
    exact .of_same aside.blocks aside.instrs aside.bindings aside.scope
  | count => exact .refl _
  | learn t cell ty target phi => exact grows_learn r t cell ty
  | store name value => exact .of_same rfl rfl rfl rfl
  | report f => exact grows_report r f
  | record s s' is_call same raises methods frequency =>
    exact FlowGraph.grows_setInstr is_call same raises methods frequency
  | caller => exact .refl _
  | notify => exact .refl _
  | mark c last => exact grows_markEdge r b c

theorem grows_of_changes {p : Propagation σ} {i : InstrId} {b : BlockId} {r r' : Run σ}
    (changes : ReflTransGen (Change p i b) r r') : r.graph.Grows r'.graph := by
  induction changes with
  | refl => exact .refl _
  | tail _ change ih => exact ih.trans change.grows

section Evaluate

variable (p : Propagation σ) {i : InstrId} {b : BlockId}

theorem changes_of_looks {r r' : Run σ} (looks : ReflTransGen (Look p i) r r') :
    ReflTransGen (Change p i b) r r' :=
  looks.lift id fun _ _ look => .look look

theorem changes_ite (c : Bool) {r r' : Run σ} (change : Change p i b r r') :
    ReflTransGen (Change p i b) r (if c then r' else r) := by
  cases c with
  | true => exact .single change
  | false => exact .refl

theorem changes_updateEdges {r : Run σ} (last : (r.graph.block b).instrs.getLast? = some i) :
    ReflTransGen (Change p i b) r (r.updateEdges b) := by
  unfold Run.updateEdges
  generalize r.targets b = ts
  induction ts generalizing r with
  | nil => exact .refl
  | cons t ts ih =>
    have last' : ((r.markEdge b t).graph.block b).instrs.getLast? = some i := by
      rw [(grows_markEdge r b t).block_instrs, last]
    exact (ih last').head (.mark r t last)

theorem changes_record {r : Run σ} {site : CallSite} (is_call : r.graph.instr i = .call site)
    (e : Evaluation) : ReflTransGen (Change p i b) r (record i b site e r) := by
  rw [record_eq is_call]
  have wrote : ReflTransGen (Change p i b) r (written i site e r) := by
    apply ReflTransGen.single
    apply Change.record r site (e.joinTo site) is_call rfl
    · exact fun m m_in => Ty.mem_join.mpr (.inl m_in)
    · exact fun m m_in => mem_foldl_insertNat.mpr (.inr m_in)
    · rfl
  have noted := wrote.trans (changes_ite p e.callsBlock (.caller _))
  have reported := noted.trans (changes_ite p e.arityMismatch
    (.report _ ⟨.noMatchingSignature, some b, some i, mismatchMessage site.method⟩))
  have learned : ReflTransGen (Change p i b) r (targetLearned site e
      (arityNoted i b site e (blockNoted i e (written i site e r)))) := by
    apply reported.trans
    unfold targetLearned
    cases target : site.target with
    | none => exact .refl
    | some t =>
      have same := (grows_of_changes reported).toSameOutline
      apply ReflTransGen.single
      apply Change.learn
      · rw [same.target i, is_call]
        exact target
      · intro t' os is_phi
        have outline := same.instr i
        change (FlowGraph.instr _ i) = _ at is_phi
        rw [is_phi, is_call] at outline
        cases outline
  exact learned.trans (changes_ite p (e.isNews site) (.notify _))

theorem changes_evaluateCall {r : Run σ} {site : CallSite} (is_call : r.graph.instr i = .call site) :
    ReflTransGen (Change p i b) r ((p.evaluateCall i b site).run r).2 := by
  unfold evaluateCall
  rw [run_get_bind]
  extract_lets g receiver args passed
  split
  · exact .refl
  · rw [StateT.run_bind]
    have looks := p.along_dispatch
      { instr := i, isSuper := site.kind.isSuper, ignoreVisibility := site.ignoreVisibility,
        receiver, name := site.method,
        args := if site.kind.isVararg then args.head?.bind p.unpack? else some args,
        block := passed } r
    apply (changes_of_looks p looks).trans
    apply changes_record p
    rw [FlowGraph.instr_congr (Aside.of_looks looks).instrs, is_call]

theorem changes_evaluateInstr {r : Run σ} {x : Instr} (is_x : r.graph.instr i = x) :
    ReflTransGen (Change p i b) r ((p.evaluateInstr i b x).run r).2 := by
  cases x with
  | assign t s =>
    apply ReflTransGen.single
    apply Change.learn r t _ _ (by rw [is_x]; rfl)
    intro t' os is_phi
    rw [is_x] at is_phi
    cases is_phi
  | phi t os =>
    apply ReflTransGen.single
    apply Change.learn r t _ _ (by rw [is_x]; rfl)
    intro t' os' is_phi
    rw [is_x] at is_phi
    cases is_phi
    rfl
  | call site => exact changes_evaluateCall p is_x
  | param t param frame =>
    apply ReflTransGen.single
    apply Change.learn r t _ _ (by rw [is_x]; rfl)
    intro t' os is_phi
    rw [is_x] at is_phi
    cases is_phi
  | raise v => exact .single (.notify r)
  | storeGlobal name v => exact .single (.store r name v)
  | declare d =>
    cases d with
    | expectSize test size array =>
      change ReflTransGen (Change p i b) r (p.evaluateSize i b test size array r)
      unfold evaluateSize
      split
      · split
        · exact .single (.report r _)
        · exact .refl
      · exact .refl
    | «alias» a v => exact .refl
  | jump t => exact .refl
  | branch c yes no => exact .refl
  | returnWith v => exact .refl

/-- The last instruction of a block decides where control goes on. -/
def Run.concluded (i : InstrId) (b : BlockId) (r : Run σ) : Run σ :=
  if (r.graph.block b).instrs.getLast? = some i then r.updateEdges b else r

theorem evaluate_run (i : InstrId) (r : Run σ) :
    ((p.evaluate i).run r).2 = Run.concluded i (r.graph.blockOf i)
      ((p.evaluateInstr i (r.graph.blockOf i) (r.graph.instr i)).run
        { r with evaluations := r.evaluations + 1 }).2 := rfl

theorem changes_evaluate (i : InstrId) (r : Run σ) :
    ReflTransGen (Change p i (r.graph.blockOf i)) r ((p.evaluate i).run r).2 := by
  rw [evaluate_run]
  apply ReflTransGen.head (.count r)
  apply ReflTransGen.trans (changes_evaluateInstr p (r := { r with evaluations := _ }) rfl)
  unfold Run.concluded
  split
  · exact changes_updateEdges p ‹_›
  · exact .refl

end Evaluate

/-! Visits and steps. -/

section Steps

variable (p : Propagation σ)

def Run.entered (b : BlockId) (r : Run σ) : Run σ :=
  { r with visited := insertNat b r.visited, visits := r.visits + 1 }

/-- On the first visit every instruction is evaluated. -/
def revisit (isFirst : Bool) (i : InstrId) : StateM (Run σ) Unit := do
  if isFirst || dependsOnEntry ((← get).graph.instr i) then p.evaluate i

theorem visit_run (b : BlockId) (r : Run σ) :
    ((p.visit b).run r).2 = Run.updateEdges (((r.graph.block b).instrs.forM
      (p.revisit (!r.visited.contains b))).run (r.entered b)).2 b := rfl

/-- What a step does: it takes up a block, or an instruction, or has nothing to do. -/
theorem step_run (r : Run σ) :
    (∃ b rest, r.blocks = b :: rest ∧ (p.step.run r).2 =
      ((p.visit b).run { r with blocks := rest, steps := r.steps + 1 }).2) ∨
    (∃ i rest, r.blocks = [] ∧ r.instrs = i :: rest ∧ (p.step.run r).2 =
      if r.visited.contains (r.graph.blockOf i) then
        ((p.evaluate i).run { r with instrs := rest, steps := r.steps + 1 }).2
      else { r with instrs := rest, steps := r.steps + 1 }) ∨
    r.isDone = true ∧ (p.step.run r).2 = r := by
  unfold step
  rw [run_get_bind]
  cases blocks : r.blocks with
  | cons b rest => exact .inl ⟨b, rest, rfl, rfl⟩
  | nil =>
    cases instrs : r.instrs with
    | cons i rest =>
      refine .inr (.inl ⟨i, rest, rfl, rfl, ?_⟩)
      dsimp only
      rw [run_set_bind]
      split <;> rfl
    | nil => exact .inr (.inr ⟨by simp [Run.isDone, blocks, instrs], rfl⟩)

end Steps

end ScriptFlow.Propagation
