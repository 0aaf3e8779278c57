import ScriptFlow.Proofs.Propagation.Settled

/-! Runs of a body with values, and what they say about a propagation that has come to its end: it
has marked every edge that a run takes, and every binding holds a value that its cell allows for. -/

namespace ScriptFlow

open Relation (ReflTransGen)

/-- The value is one that the cell allows for. -/
def Cell.Agrees (c : Cell) (w : Value) : Prop := c ≠ .undefined ∧ ∀ v, c = .known v → w = v

theorem Cell.agrees_iff {c : Cell} {w : Value} : c.Agrees w ↔ (known w).le c = true := by
  cases c with
  | undefined => simp [Agrees, le]
  | known v => simp [Agrees, le]
  | varying => simp [Agrees, le]

theorem Cell.Agrees.mono {c d : Cell} {w : Value} (agrees : c.Agrees w) (le : c.le d = true) :
    d.Agrees w :=
  agrees_iff.mpr (le_trans (agrees_iff.mp agrees) le)

def Env := BindingId → Option Value

namespace Env

def empty : Env := fun _ => none

def put (env : Env) (t : BindingId) (w : Value) : Env := fun v => if v = t then some w else env v

def read (env : Env) : Operand → Option Value
  | .binding v => env v
  | .const w => some w

def Reads (env : Env) (os : List Operand) : Prop := ∀ o ∈ os, (env.read o).isSome = true

end Env

structure Point where
  block : BlockId
  /-- The instructions of the block that have not been executed yet. -/
  rest : List InstrId
  /-- The block was entered by an exception. -/
  raised : Bool
  env : Env
  /-- The edges taken so far. -/
  path : List (BlockId × BlockId)

/-- Control goes on from the instruction by a normal edge, if it goes on at all. -/
def Instr.goesOn : Instr → Bool
  | .jump _ | .branch _ _ _ | .raise _ => false
  | .call s => !s.mayRaise
  | _ => true

namespace FlowGraph

variable (g : FlowGraph)

/-- What an instruction does. The values of parameters and calls come from outside, and are such as
the cells of their targets allow for. Phis have been taken when their block was entered. -/
inductive Executes : Instr → Env → Env → Prop
  | assign {t s env w} (read : env.read s = some w) : Executes (.assign t s) env (env.put t w)
  | phi {t os env} : Executes (.phi t os) env env
  | param {t q frame env w} (reads : env.Reads q.operands) (agrees : (g.binding t).cell.Agrees w) :
    Executes (.param t q frame) env (env.put t w)
  | answer {s t env w} (reads : env.Reads s.operands) (target : s.target = some t)
    (agrees : (g.binding t).cell.Agrees w) : Executes (.call s) env (env.put t w)
  | finish {s env} (reads : env.Reads s.operands) (target : s.target = none) :
    Executes (.call s) env env
  | declare {d env} : Executes (.declare d) env env
  | plain {x env} (target : x.target? = none) (no_call : x.site? = none) (reads : env.Reads x.slots) :
    Executes x env env

/-- Where control goes from the last instruction of a block. -/
inductive Follows (b : BlockId) (env : Env) : Instr → BlockId → Prop
  | jump {c} : Follows b env (.jump c) c
  | yes {o yes no w} (read : env.read o = some w) (truthy : w.truthy = true) :
    Follows b env (.branch o yes no) yes
  | no {o yes no w} (read : env.read o = some w) (falsy : w.truthy = false) :
    Follows b env (.branch o yes no) no
  | raise {v c} (edge : c ∈ g.successors b .exception) : Follows b env (.raise v) c
  | returns {s c} (mayRaise : s.mayRaise = true) (allowed : s.frequency ≠ some .always)
    (edge : c ∈ g.successors b .normal) : Follows b env (.call s) c
  | onward {x c} (goesOn : x.goesOn = true) (edge : c ∈ g.successors b .normal) :
    Follows b env x c

/-- The phis of block `b` take, all at once, what they have for block `a`. -/
structure Enters (a b : BlockId) (env env' : Env) : Prop where
  phi : ∀ i ∈ (g.block b).instrs, ∀ t os, g.instr i = .phi t os → env' t = (os.lookup a).bind env
  other : ∀ t, (∀ i ∈ (g.block b).instrs, ∀ os, g.instr i ≠ .phi t os) → env' t = env t

theorem Enters.of_no_phi {g : FlowGraph} {a b : BlockId} {env : Env}
    (none : ∀ i ∈ (g.block b).instrs, (g.instr i).isPhi = false) : g.Enters a b env env where
  phi i listed t os is_phi := by
    have other := none i listed
    rw [is_phi] at other
    cases other
  other _ _ := rfl

theorem Enters.of_phi {g : FlowGraph} {a b : BlockId} {env : Env} {i : InstrId} {is : List InstrId}
    {t : BindingId} {os : List (BlockId × BindingId)} {w : Value} (code : (g.block b).instrs = i :: is)
    (is_phi : g.instr i = .phi t os) (none : ∀ j ∈ is, (g.instr j).isPhi = false)
    (taken : (os.lookup a).bind env = some w) : g.Enters a b env (env.put t w) where
  phi j listed t' os' is_phi' := by
    rw [code] at listed
    rcases List.mem_cons.mp listed with rfl | later
    · cases is_phi.symm.trans is_phi'
      rw [taken, Env.put, if_pos rfl]
    · have other := none j later
      rw [is_phi'] at other
      cases other
  other v free := by
    rw [Env.put, if_neg]
    rintro rfl
    exact free i (by rw [code]; exact List.mem_cons_self) os is_phi

def start : Point := ⟨enter, (g.block enter).instrs, false, .empty, []⟩

def arrival (k : Point) (c : BlockId) (raised : Bool) (env : Env) : Point :=
  ⟨c, (g.block c).instrs, raised, env, k.path ++ [(k.block, c)]⟩

inductive Step (k : Point) : Point → Prop
  | execute {i rest env} (next : k.rest = i :: rest) (more : rest ≠ [])
    (executes : g.Executes (g.instr i) k.env env) : Step k { k with rest, env }
  | leave {l c f env env'} (last : k.rest = [l]) (executes : g.Executes (g.instr l) k.env env)
    (follows : g.Follows k.block k.env (g.instr l) c) (edge : g.edge? k.block c = some f)
    (enters : g.Enters k.block c env env') : Step k (g.arrival k c f.isException env')
  /-- A call raises, and its target is not set. -/
  | throw {l s c env} (last : k.rest = [l]) (is_call : g.instr l = .call s)
    (mayRaise : s.mayRaise = true) (reads : k.env.Reads s.operands)
    (allowed : s.frequency ≠ some .never) (edge : c ∈ g.successors k.block .exception)
    (enters : g.Enters k.block c k.env env) : Step k (g.arrival k c true env)
  /-- A block without instructions is left the way it was entered. -/
  | pass {c env} (none : k.rest = [])
    (edge : c ∈ g.successors k.block (if k.raised then .exception else .normal))
    (enters : g.Enters k.block c k.env env) : Step k (g.arrival k c k.raised env)

end FlowGraph

namespace Propagation

variable {σ : Type} {p : Propagation σ} {r : Run σ}

/-! Evaluated calls have a frequency. -/

def Recorded (_ : Run σ) (_ : InstrId) (s : CallSite) : Prop := s.frequency.isSome = true

theorem lasts_recorded : Lasts (Recorded (σ := σ)) := fun _ _ _ _ _ recorded _ => recorded

theorem instr_record {i : Nat} {s : CallSite} (is_call : r.graph.instr i = .call s)
    (inside : i < r.graph.instrs.size) (b : BlockId) (x : Evaluation) :
    (record i b s x r).graph.instr i = .call (x.joinTo s) := by
  have wrote : (written i s x r).graph.instr i = .call (x.joinTo s) :=
    FlowGraph.instr_setInstr_self _ _ inside
  have noted : (blockNoted i x (written i s x r)).graph.instrs = (written i s x r).graph.instrs := by
    unfold blockNoted
    split <;> rfl
  have reported : (arityNoted i b s x (blockNoted i x (written i s x r))).graph.instrs =
      (blockNoted i x (written i s x r)).graph.instrs := by
    unfold arityNoted Run.report
    split
    · split <;> rfl
    · rfl
  have learned : (targetLearned s x
      (arityNoted i b s x (blockNoted i x (written i s x r)))).graph.instrs =
      (arityNoted i b s x (blockNoted i x (written i s x r))).graph.instrs := by
    unfold targetLearned
    cases s.target with
    | none => rfl
    | some t =>
      obtain ⟨bindings, queue, learned, -⟩ := exists_learn_eq
        (arityNoted i b s x (blockNoted i x (written i s x r))) t x.cell x.ty
      rw [Option.elim_some, learned]
  have told : (record i b s x r).graph.instrs = (targetLearned s x
      (arityNoted i b s x (blockNoted i x (written i s x r)))).graph.instrs := by
    rw [record_eq is_call, raiseNoted]
    split <;> rfl
  rw [FlowGraph.instr_congr (told.trans (learned.trans (reported.trans noted))), wrote]

theorem upholds_recorded (p : Propagation σ) : p.Upholds Recorded := by
  intro r i s operable listed is_call defined r' ran s' is_call'
  refine .inr ?_
  rcases evaluateCall_cases p i (r.graph.blockOf i) s r with ⟨waits, -⟩ | ⟨-, evaluated⟩
  · exact absurd waits defined
  · have aside := Aside.of_looks (p.along_dispatch (p.callOf r.graph i s) r)
    have inside := (operable.placed _ i listed).1
    rw [ran, evaluated, instr_record] at is_call'
    · cases is_call'
      rfl
    · rw [FlowGraph.instr_congr aside.instrs, is_call]
    · exact Nat.lt_of_lt_of_eq inside (congrArg Array.size aside.instrs).symm

/-! Soundness. -/

/-- What a settled propagation knows of a point in a run. -/
structure Faithful (r : Run σ) (k : Point) : Prop where
  visited : k.block ∈ r.visited
  rest : k.rest <:+ (r.graph.block k.block).instrs
  unfinished : k.rest = [] → (r.graph.block k.block).instrs = []
  entered : k.block = FlowGraph.enter ∧ k.raised = false ∨ ∃ a f,
    r.graph.edge? a k.block = some f ∧ f.executable = true ∧ f.isException = k.raised
  agrees : ∀ v w, k.env v = some w → (r.graph.binding v).cell.Agrees w
  path : ∀ e ∈ k.path, r.graph.Taken e.1 e.2

section Soundness

variable {g : FlowGraph} {k k' : Point} {env env' : Env}

theorem agrees_read (agrees : ∀ v w, env v = some w → (g.binding v).cell.Agrees w) {o : Operand}
    {w : Value} (read : env.read o = some w) : (g.operandCell o).Agrees w := by
  cases o with
  | binding v => exact agrees v w read
  | const v =>
    cases read
    exact Cell.agrees_iff.mpr (Cell.le_refl _)

theorem agrees_put (agrees : ∀ v w, env v = some w → (g.binding v).cell.Agrees w) {t : BindingId}
    {x : Value} (put : (g.binding t).cell.Agrees x) (v : BindingId) (w : Value)
    (holds : env.put t x v = some w) : (g.binding v).cell.Agrees w := by
  unfold Env.put at holds
  split at holds
  · rename_i here
    cases holds
    rw [here]
    exact put
  · exact agrees v w holds

theorem not_waiting (agrees : ∀ v w, env v = some w → (g.binding v).cell.Agrees w) {s : CallSite}
    (reads : env.Reads s.operands) : ¬Waiting g s := by
  rintro ⟨o, operand, undefined⟩
  obtain ⟨w, read⟩ := Option.isSome_iff_exists.mp (reads o operand)
  exact (agrees_read agrees read).1 undefined

variable (settled : p.Settled Recorded r)
include settled

theorem agrees_executes {b : BlockId} (visited : b ∈ r.visited) {i : InstrId}
    (listed : i ∈ (r.graph.block b).instrs)
    (agrees : ∀ v w, env v = some w → (r.graph.binding v).cell.Agrees w)
    (executes : r.graph.Executes (r.graph.instr i) env env') (v : BindingId) (w : Value)
    (holds : env' v = some w) : (r.graph.binding v).cell.Agrees w := by
  generalize is_i : r.graph.instr i = x at executes
  cases executes with
  | @assign t s _ u read =>
    have below := (settled.stable b visited i listed).value (p.operand r.graph s) t
      (by simp [value?, is_i]) (by rw [is_i]; rfl)
    have source := agrees_read agrees read
    rw [operandCell_eq p] at source
    exact agrees_put agrees (source.mono below.cell) v w holds
  | param reads allowed => exact agrees_put agrees allowed v w holds
  | answer reads target allowed => exact agrees_put agrees allowed v w holds
  | _ => exact agrees v w holds

/-- The last instruction of a block leads to its targets. -/
theorem mem_targets_follows {b c : BlockId} (visited : b ∈ r.visited) {l : InstrId}
    (last : r.graph.last? b = some l)
    (agrees : ∀ v w, env v = some w → (r.graph.binding v).cell.Agrees w)
    (executes : r.graph.Executes (r.graph.instr l) env env')
    (follows : r.graph.Follows b env (r.graph.instr l) c) : c ∈ r.targets b := by
  rw [targets_of_last last]
  have stable := settled.stable b visited l (List.mem_of_getLast? last)
  generalize is_l : r.graph.instr l = x at executes follows
  cases follows with
  | jump => exact List.mem_singleton.mpr rfl
  | @yes o yes no w read truthy =>
    have value := agrees_read agrees read
    rw [Run.exits]
    cases cell : r.graph.operandCell o with
    | undefined => exact absurd cell value.1
    | known v =>
      rw [Run.branchTargets, ← value.2 v cell, if_pos truthy]
      exact List.mem_singleton.mpr rfl
    | varying => exact List.mem_cons_self
  | @no o yes no w read falsy =>
    have value := agrees_read agrees read
    rw [Run.exits]
    cases cell : r.graph.operandCell o with
    | undefined => exact absurd cell value.1
    | known v =>
      rw [Run.branchTargets, ← value.2 v cell, if_neg (by rw [falsy]; exact Bool.false_ne_true)]
      exact List.mem_singleton.mpr rfl
    | varying => exact List.mem_cons_of_mem _ (List.mem_singleton.mpr rfl)
  | raise edge => exact edge
  | @returns s c mayRaise allowed edge =>
    have reads : env.Reads s.operands := by
      cases executes with
      | answer reads => exact reads
      | finish reads => exact reads
      | plain target no_call => cases no_call
    have recorded := (stable.call s is_l).resolve_left (not_waiting agrees reads)
    obtain ⟨f, frequency⟩ := Option.isSome_iff_exists.mp recorded
    rw [Run.exits, if_pos mayRaise, frequency]
    cases f with
    | never => exact List.mem_append_left _ edge
    | always => exact absurd frequency allowed
    | maybe => exact List.mem_append_left _ (List.mem_append_left _ edge)
  | onward goesOn edge =>
    cases x with
    | jump _ => cases goesOn
    | branch _ _ _ => cases goesOn
    | raise _ => cases goesOn
    | call s =>
      rw [Run.exits, if_neg]
      · exact edge
      · intro mayRaise
        rw [Instr.goesOn, mayRaise] at goesOn
        cases goesOn
    | _ => exact edge

/-- So do calls that raise. -/
theorem mem_targets_throw {b c : BlockId} (visited : b ∈ r.visited) {l : InstrId} {s : CallSite}
    (last : r.graph.last? b = some l) (is_call : r.graph.instr l = .call s)
    (mayRaise : s.mayRaise = true)
    (agrees : ∀ v w, env v = some w → (r.graph.binding v).cell.Agrees w)
    (reads : env.Reads s.operands) (allowed : s.frequency ≠ some .never)
    (edge : c ∈ r.graph.successors b .exception) : c ∈ r.targets b := by
  have stable := settled.stable b visited l (List.mem_of_getLast? last)
  have recorded := (stable.call s is_call).resolve_left (not_waiting agrees reads)
  obtain ⟨f, frequency⟩ := Option.isSome_iff_exists.mp recorded
  rw [targets_of_last last, is_call, Run.exits, if_pos mayRaise, frequency]
  cases f with
  | never => exact absurd frequency allowed
  | always => exact List.mem_append_left _ edge
  | maybe => exact List.mem_append_left _ (List.mem_append_right _ edge)

theorem mem_targets_pass {c : BlockId} (faithful : Faithful r k)
    (none : (r.graph.block k.block).instrs = [])
    (edge : c ∈ r.graph.successors k.block (if k.raised then .exception else .normal)) :
    c ∈ r.targets k.block := by
  have linked := settled.operable.toLinked
  have targets : r.targets k.block = Run.emptyBlockTargets r.graph k.block := by
    simp only [Run.targets, none, List.getLast?_nil]
  rw [targets]
  unfold Run.emptyBlockTargets
  have executed : r.graph.isExecuted k.block = true := by
    rcases faithful.entered with ⟨here, -⟩ | ⟨a, f, found, executable, -⟩
    · rw [here]
      rfl
    · apply isExecuted_of_taken linked (a := a)
      rw [FlowGraph.Taken, found]
      exact executable
  rw [if_pos executed]
  extract_lets entered normal exceptional
  have by_edge : ∀ a f, r.graph.edge? a k.block = some f → f.executable = true → f ∈ entered := by
    intro a f found executable
    refine List.mem_filterMap.mpr ⟨a, ?_, ?_⟩
    · apply (linked.symm a k.block).mp
      exact r.graph.edge_isSome_iff.mp (by rw [found]; rfl)
    · rw [found, Option.filter_some, if_pos executable]
  cases raised : k.raised with
  | true =>
    rw [raised, if_pos rfl] at edge
    rcases faithful.entered with ⟨-, normally⟩ | ⟨a, f, found, executable, kind⟩
    · rw [raised] at normally
      cases normally
    · have way : exceptional = true :=
        List.any_eq_true.mpr ⟨f, by_edge a f found executable, kind.trans raised⟩
      rw [if_pos way]
      exact List.mem_append_right _ edge
  | false =>
    rw [raised, if_neg Bool.false_ne_true] at edge
    have way : normal := by
      rcases faithful.entered with ⟨here, -⟩ | ⟨a, f, found, executable, kind⟩
      · exact .inl here
      · refine .inr (List.any_eq_true.mpr ⟨f, by_edge a f found executable, ?_⟩)
        rw [kind, raised]
        rfl
    rw [if_pos way]
    exact List.mem_append_left _ (List.mem_append_right _ edge)

/-- A run stays within what is known when it goes over to the next block. -/
theorem Faithful.arrival (faithful : Faithful r k) {c : BlockId} {f : EdgeFlags}
    (target : c ∈ r.targets k.block) (edge : r.graph.edge? k.block c = some f)
    (agrees : ∀ v w, env v = some w → (r.graph.binding v).cell.Agrees w)
    (enters : r.graph.Enters k.block c env env') :
    Faithful r (r.graph.arrival k c f.isException env') := by
  have taken : r.graph.Taken k.block c :=
    settled.marked k.block faithful.visited c target (by rw [edge]; rfl)
  have visited : c ∈ r.visited := by
    rcases settled.tracked.noted k.block c taken with visited | queued
    · exact visited
    · have empty := List.isEmpty_iff.mp (Bool.and_eq_true_iff.mp settled.done).1
      rw [empty] at queued
      cases queued
  constructor
  · exact visited
  · exact List.suffix_refl _
  · exact id
  · refine .inr ⟨k.block, f, edge, ?_, rfl⟩
    rw [FlowGraph.Taken, edge] at taken
    exact taken
  · intro v w holds
    by_cases phi : ∃ i ∈ (r.graph.block c).instrs, ∃ os, r.graph.instr i = .phi v os
    · obtain ⟨i, listed, os, is_phi⟩ := phi
      have taken_in := enters.phi i listed v os is_phi
      change env' v = some w at holds
      rw [holds] at taken_in
      obtain ⟨u, operand, value⟩ := Option.bind_eq_some_iff.mp taken_in.symm
      have below := (settled.stable c visited i listed).value
        (phiValue r.graph c os) v (by
          rw [value?, is_phi, (settled.operable.placed c i listed).2]) (by rw [is_phi]; rfl)
      apply (agrees u w value).mono
      exact (phiValue_below_iff.mp below (k.block, u) (FlowGraph.mem_of_lookup operand) taken).cell
    · have kept := enters.other v fun i listed os is_phi => phi ⟨i, listed, os, is_phi⟩
      exact agrees v w (kept.symm.trans holds)
  · intro e member
    rcases List.mem_append.mp member with old | new
    · exact faithful.path e old
    · rw [List.mem_singleton.mp new]
      exact taken

theorem Faithful.step (faithful : Faithful r k) (step : r.graph.Step k k') : Faithful r k' := by
  have closing : ∀ l, k.rest = [l] → r.graph.last? k.block = some l := by
    intro l last
    obtain ⟨before, whole⟩ := faithful.rest
    rw [last] at whole
    rw [FlowGraph.last?, ← whole]
    exact List.getLast?_concat
  have listed : ∀ i, i ∈ k.rest → i ∈ (r.graph.block k.block).instrs :=
    fun i member => faithful.rest.subset member
  cases step with
  | @execute i rest env next more executes =>
    refine ⟨faithful.visited, ?_, fun finished => absurd finished more, faithful.entered, ?_,
      faithful.path⟩
    · apply List.IsSuffix.trans _ faithful.rest
      rw [next]
      exact List.suffix_cons i rest
    · exact agrees_executes settled faithful.visited
        (listed i (by rw [next]; exact List.mem_cons_self)) faithful.agrees executes
  | @leave l c f env env' last executes follows edge enters =>
    apply faithful.arrival settled _ edge _ enters
    · exact mem_targets_follows settled faithful.visited (closing l last) faithful.agrees executes
        follows
    · exact agrees_executes settled faithful.visited
        (listed l (by rw [last]; exact List.mem_cons_self)) faithful.agrees executes
  | @throw l s c env last is_call mayRaise reads allowed edge enters =>
    obtain ⟨f, found, exceptional⟩ := (mem_successors_iff settled.operable.toLinked).mp edge
    have target := mem_targets_throw settled faithful.visited (closing l last) is_call mayRaise
      faithful.agrees reads allowed edge
    have arrived := faithful.arrival settled target found faithful.agrees enters
    rwa [show f.isException = true from exceptional] at arrived
  | @pass c env none edge enters =>
    have empty := faithful.unfinished none
    obtain ⟨f, found, kind⟩ := (mem_successors_iff settled.operable.toLinked).mp edge
    have target := mem_targets_pass settled faithful empty edge
    have arrived := faithful.arrival settled target found faithful.agrees enters
    have same : f.isException = k.raised := by
      cases raised : k.raised with
      | true =>
        rw [raised] at kind
        exact kind
      | false =>
        rw [raised] at kind
        have normal : f.isNormal = true := kind
        simp_all [EdgeFlags.isNormal, EdgeFlags.isException]
    rwa [same] at arrived

theorem faithful_start : Faithful r r.graph.start := by
  constructor
  · rcases settled.tracked.start with visited | queued
    · exact visited
    · have empty := List.isEmpty_iff.mp (Bool.and_eq_true_iff.mp settled.done).1
      rw [empty] at queued
      cases queued
  · exact List.suffix_refl _
  · exact id
  · exact .inl ⟨rfl, rfl⟩
  · intro v w holds
    cases holds
  · intro e member
    cases member

theorem Faithful.run (run : ReflTransGen r.graph.Step r.graph.start k) : Faithful r k := by
  induction run with
  | refl => exact faithful_start settled
  | tail _ step ih => exact ih.step settled step

end Soundness

/-- Whatever a run does, a propagation that has come to its end has foreseen. -/
theorem runs_foreseen (p : Propagation σ) {l : Lowering} {body : Tree} {formals : List Formal}
    {next next' : Serial} {g g' h : FlowGraph} (built : l.build body formals next = .ok g next')
    (converted : g.toSingleAssignment = .ok () g') {source source' : σ} {stats : Stats}
    (analyzed : p.analyze (g', source) = .ok stats (h, source')) {k : Point}
    (run : ReflTransGen h.Step h.start k) :
    (∀ e ∈ k.path, h.Taken e.1 e.2) ∧ ∀ v w, k.env v = some w → (h.binding v).cell.Agrees w := by
  have operable := (Lowering.build_wellFormed built).operable converted
  obtain ⟨r, rfl, settled⟩ := settled_of_analyze lasts_recorded (upholds_recorded p) operable analyzed
  have faithful := Faithful.run settled run
  exact ⟨faithful.path, faithful.agrees⟩

/-- `y = true; while y; y = nil; end; y`. -/
def singleRound : Tree :=
  .sequence [.assign (.localVar "y") (.bool true),
    .whileLoop (.localVar "y") (.assign (.localVar "y") .nil), .localVar "y"]

/-- The graph converts, and the outcome of its analysis is as described. -/
def finds (p : Propagation σ) (g : FlowGraph) (source : σ) (described : FlowGraph → Bool) : Bool :=
  match g.toSingleAssignment with
  | .ok _ g' =>
    match p.analyze (g', source) with
    | .ok _ (h, _) => described h
    | .error _ _ => false
  | .error _ _ => false

theorem exists_found {g : FlowGraph} {source : σ} {described : FlowGraph → Bool}
    (found : p.finds g source described = true) :
    ∃ g' stats h source', g.toSingleAssignment = .ok () g' ∧
      p.analyze (g', source) = .ok stats (h, source') ∧ described h = true := by
  unfold finds at found
  cases converted : g.toSingleAssignment with
  | error e g' =>
    rw [converted] at found
    cases found
  | ok u g' =>
    rw [converted] at found
    cases analyzed : p.analyze (g', source) with
    | error e out =>
      simp only [analyzed] at found
      cases found
    | ok stats out =>
      simp only [analyzed] at found
      exact ⟨g', stats, out.1, out.2, rfl, analyzed, found⟩

/-- The loop after the first round: its phi has passed on two different values. -/
theorem runs_foreseen_loop :
    ∃ g next g' stats h source' k,
      Lowering.build ⟨20, .topLevel, some "f", false⟩ singleRound [] 0 = .ok g next ∧
      g.toSingleAssignment = .ok () g' ∧
      analyze ⟨.core, .standard, .declared .core, .none⟩ (g', ()) = .ok stats (h, source') ∧
      ReflTransGen h.Step h.start k ∧ k.path = [(0, 6), (6, 7), (7, 8), (8, 7)] ∧
      k.env 3 = some (.bool true) ∧ k.env 4 = some .nil ∧
      (∀ e ∈ k.path, h.Taken e.1 e.2) ∧ ∀ v w, k.env v = some w → (h.binding v).cell.Agrees w := by
  obtain ⟨g, next, built, found⟩ :
      ∃ g next, Lowering.build ⟨20, .topLevel, some "f", false⟩ singleRound [] 0 = .ok g next ∧
        finds ⟨.core, .standard, .declared .core, .none⟩ g () (fun h => decide (
          ((h.block 0).instrs = [0] ∧ (h.block 6).instrs = [7, 8, 9, 10, 11] ∧
            (h.block 7).instrs = [12, 13] ∧ (h.block 8).instrs = [14, 15]) ∧
          (h.instr 0 = .assign 8 .nil ∧ h.instr 7 = .param 0 .receiver .method ∧
            h.instr 8 = .param 1 .block .method ∧ h.instr 9 = .param 2 .currentException .method ∧
            h.instr 10 = .assign 3 (.const (.bool true)) ∧ h.instr 11 = .jump 7 ∧
            h.instr 12 = .phi 4 [(6, 3), (8, 5)] ∧ h.instr 13 = .branch (.binding 4) 8 9 ∧
            h.instr 14 = .assign 5 .nil ∧ h.instr 15 = .jump 7) ∧
          ((h.binding 0).cell = .varying ∧ (h.binding 1).cell = .varying ∧
            (h.binding 2).cell = .varying) ∧
          (h.edge? 0 6 = some ⟨false, false, true, false⟩ ∧
            h.edge? 6 7 = some ⟨false, false, true, false⟩ ∧
            h.edge? 7 8 = some ⟨false, false, true, false⟩ ∧
            h.edge? 8 7 = some ⟨false, false, true, false⟩) ∧ 6 ∈ h.successors 0 .normal)) = true :=
    Lowering.exists_built _ (by decide +kernel)
  obtain ⟨g', stats, h, source', converted, analyzed, described⟩ := exists_found found
  obtain ⟨⟨b0, b6, b7, b8⟩, ⟨i0, i7, i8, i9, i10, i11, i12, i13, i14, i15⟩, ⟨c0, c1, c2⟩,
    ⟨e06, e67, e78, e87⟩, onward⟩ := of_decide_eq_true described
  have receive : ∀ {i t q} env, h.instr i = .param t q .method → q.operands = [] →
      (h.binding t).cell = .varying → h.Executes (h.instr i) env (env.put t .nil) := by
    intro i t q env is_i no_operands varying
    rw [is_i]
    apply FlowGraph.Executes.param
    · simp [no_operands, Env.Reads]
    · rw [varying, Cell.agrees_iff]
      rfl
  have assign : ∀ {i t w} env, h.instr i = .assign t (.const w) →
      h.Executes (h.instr i) env (env.put t w) := by
    intro i t w env is_i
    rw [is_i]
    exact .assign rfl
  have jump : ∀ {i c} env, h.instr i = .jump c →
      h.Executes (h.instr i) env env ∧ ∀ b, h.Follows b env (h.instr i) c := by
    intro i c env is_i
    rw [is_i]
    exact ⟨.plain rfl rfl (by simp [Env.Reads, Instr.slots]), fun _ => .jump⟩
  have join : ∀ env, h.Executes (h.instr 12) env env := by
    intro env
    rw [i12]
    exact .phi
  have test : ∀ env : Env, env 4 = some (.bool true) →
      h.Executes (h.instr 13) env env ∧ h.Follows 7 env (h.instr 13) 8 := by
    intro env value
    rw [i13]
    exact ⟨.plain rfl rfl (by simp [Env.Reads, Instr.slots, Env.read, value]), .yes value rfl⟩
  -- into the body
  have to_body : ReflTransGen h.Step h.start (h.arrival h.start 6 false _) :=
    .single (.leave (k := h.start) b0 (assign _ i0) (i0 ▸ .onward rfl onward) e06
      (.of_no_phi (by simp [b6, i7, i8, i9, i10, i11, Instr.isPhi])))
  rw [FlowGraph.arrival, b6] at to_body
  have received := ((to_body.tail (.execute rfl (by simp) (receive _ i7 rfl c0))).tail
    (.execute rfl (by simp) (receive _ i8 rfl c1))).tail
    (.execute rfl (by simp) (receive _ i9 rfl c2))
  -- to the loop, through it, and back to its start
  have to_loop := (received.tail (.execute rfl (by simp) (assign _ i10))).tail
    (.leave rfl (jump _ i11).1 ((jump _ i11).2 _) e67
      (.of_phi (w := .bool true) b7 i12 (by simp [i13, Instr.isPhi]) rfl))
  rw [FlowGraph.arrival, b7] at to_loop
  have to_round := (to_loop.tail (.execute rfl (by simp) (join _))).tail
    (.leave rfl (test _ rfl).1 (test _ rfl).2 e78
      (.of_no_phi (by simp [b8, i14, i15, Instr.isPhi])))
  rw [FlowGraph.arrival, b8] at to_round
  have run := (to_round.tail (.execute rfl (by simp) (assign _ i14))).tail
    (.leave rfl (jump _ i15).1 ((jump _ i15).2 _) e87
      (.of_phi (w := .nil) b7 i12 (by simp [i13, Instr.isPhi]) rfl))
  have foreseen := runs_foreseen _ built converted analyzed run
  exact ⟨g, next, g', stats, h, source', _, built, converted, analyzed, run, rfl, rfl, rfl,
    foreseen.1, foreseen.2⟩

end Propagation

end ScriptFlow
