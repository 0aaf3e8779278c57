import ScriptFlow.Proofs.Lowering.Regular

/-! Every register and every formal of a built graph is written in a block that is left. -/

namespace ScriptFlow

namespace FlowGraph

theorem Before.reached {g h : FlowGraph} (grown : g.Before h) {b : Nat}
    (reached : (g.view .all).Reached enter b) : (h.view .all).Reached enter b := by
  have inside {v : Nat} (old : v < (g.view .all).size) : v < (h.view .all).size := by
    rw [size_view] at old ⊢
    exact Nat.lt_of_lt_of_le old grown.blocks
  induction reached with
  | start old => exact .start (inside old)
  | step _ edge old ih =>
    rw [successors_view] at edge
    exact .step ih (by rw [successors_view]; exact grown.edges _ _ edge) (inside old)

theorem reached_addEdge (g : FlowGraph) {a b : Nat} {flags : EdgeFlags} (inside : a < g.blocks.size)
    (target : b < g.blocks.size) (source : (g.view .all).Reached enter a) :
    ((g.addEdge a b flags).view .all).Reached enter b := by
  have grown := Before.addEdge g inside b flags
  refine .step (grown.reached source) ?_ ?_
  · rw [successors_view, succIds_addEdge g inside]
    split
    · exact List.mem_append_right _ List.mem_cons_self
    · rename_i known
      exact not_not.mp fun new => known ⟨rfl, new⟩
  · rw [size_view]
    exact Nat.lt_of_lt_of_le target grown.blocks

/-- An instruction of the block writes the binding. -/
def WrittenIn (g : FlowGraph) (v b : Nat) : Prop :=
  ∃ i : Nat, i < g.instrs.size ∧ i ∈ (g.block b).instrs ∧ (g.instr i).target? = some v

theorem Before.writtenIn {g h : FlowGraph} (grown : g.Before h) {v b : Nat}
    (written : g.WrittenIn v b) : h.WrittenIn v b := by
  obtain ⟨i, inside, member, target⟩ := written
  exact ⟨i, Nat.lt_of_lt_of_le inside grown.instrs, grown.code b i member, by
    rw [grown.instr i inside, target]⟩

theorem writtenIn_pushInstr (g : FlowGraph) {b v : Nat} {x : Instr} (inside : b < g.blocks.size)
    (target : x.target? = some v) : (g.pushInstr b x).WrittenIn v b := by
  refine ⟨g.instrs.size, by simp, ?_, ?_⟩
  · rw [block_pushInstr, if_pos ⟨rfl, inside⟩]
    simp
  · rw [instr_pushInstr, if_pos rfl, target]

end FlowGraph

namespace Lowering

/-! Facts that stay true while a body is lowered. -/

def Lasting (F : State → Prop) : Prop := ∀ s s' : State, s.Before s' → F s → F s'

def Reaches (b : Nat) (s : State) : Prop := (s.graph.view .all).Reached FlowGraph.enter b

/-- The binding is written in a block that is there to stay. -/
def Writes (v : Nat) (s : State) : Prop :=
  ∃ b, (FlowGraph.isDistinguished b = true ∨ Reaches b s) ∧ s.graph.WrittenIn v b

/-- The name stands for a binding that is written. -/
def Binds (name : String) (s : State) : Prop :=
  ∃ v, s.variableIds.get? name = some v ∧ Writes v s

theorem reaches_lasting (b : Nat) : Lasting (Reaches b) := fun _ _ grown => grown.graph.reached

theorem writes_lasting (v : Nat) : Lasting (Writes v) := fun _ _ grown ⟨b, stays, written⟩ =>
  ⟨b, stays.imp_right grown.graph.reached, grown.graph.writtenIn written⟩

theorem binds_lasting (name : String) : Lasting (Binds name) := fun s s' grown ⟨v, known, written⟩ =>
  ⟨v, grown.names name v known, writes_lasting v s s' grown written⟩

theorem Lasting.and {F G : State → Prop} (f : Lasting F) (g : Lasting G) :
    Lasting fun s => F s ∧ G s :=
  fun s s' grown ⟨hf, hg⟩ => ⟨f s s' grown hf, g s s' grown hg⟩

theorem Lasting.all {α : Type} {F : α → State → Prop} (l : List α) (each : ∀ a, Lasting (F a)) :
    Lasting fun s => ∀ a ∈ l, F a s :=
  fun s s' grown holds a member => each a s s' grown (holds a member)

def Here (s : State) : Prop := Reaches s.current s

/-- A step that keeps the state sound, and turns states with `P` into states with `R`. -/
structure Gives {α : Type} (n m : Nat) (P : State → Prop) (act : Lower α) (Q : Nat → Nat → α → Prop)
    (R : α → State → Prop) : Prop where
  keeps : Keeps n m act Q
  post : ∀ (c : Context) (s : State), s.Sound → c.Fits s.graph.bindings.size s.graph.blocks.size →
    n ≤ s.graph.bindings.size → m ≤ s.graph.blocks.size → P s →
    ∀ (a : α) (s' : State), act c s = .ok a s' → R a s'

/-- The step goes on in the block it starts in. -/
def Stays {α : Type} (act : Lower α) : Prop :=
  ∀ (c : Context) (s : State) (a : α) (s' : State), act c s = .ok a s' → s'.current = s.current

theorem Stays.bind {α β : Type} {act : Lower α} {f : α → Lower β} (first : Stays act)
    (second : ∀ a, Stays (f a)) : Stays (act >>= f) := by
  intro c s b s' run
  obtain ⟨a, s₁, run₁, run⟩ := run_bind run
  exact (second a c s₁ b s' run).trans (first c s a s₁ run₁)

namespace Gives

variable {α β : Type} {n m : Nat} {P P' F : State → Prop} {act : Lower α} {f : α → Lower β}
  {Q : Nat → Nat → α → Prop} {Q' : Nat → Nat → β → Prop} {R : α → State → Prop}
  {R' : β → State → Prop}

theorem bind (first : Gives n m P act Q R)
    (second : ∀ n' m' a, n ≤ n' → m ≤ m' → Q n' m' a → Gives n' m' (R a) (f a) Q' R') :
    Gives n m P (act >>= f) Q' R' where
  keeps := first.keeps.bind fun n' m' a hn hm q => (second n' m' a hn hm q).keeps
  post c s sound fits hn hm holds b s' run := by
    obtain ⟨a, s₁, run₁, run⟩ := run_bind run
    obtain ⟨sound₁, grown, q⟩ := first.keeps c s sound fits hn hm a s₁ run₁
    exact (second _ _ a (Nat.le_trans hn grown.graph.bindings) (Nat.le_trans hm grown.graph.blocks)
      q).post c s₁ sound₁ (fits.mono grown.graph.bindings grown.graph.blocks) (Nat.le_refl _)
      (Nat.le_refl _) (first.post c s sound fits hn hm holds a s₁ run₁) b s' run

theorem seq {rest : Lower β} (first : Gives n m P act Q fun _ => P')
    (second : Gives n m P' rest Q' R') : Gives n m P (act >>= fun _ => rest) Q' R' :=
  first.bind fun _ _ _ hn hm _ =>
    ⟨second.keeps.mono hn hm, fun c s sound fits hn' hm' =>
      second.post c s sound fits (Nat.le_trans hn hn') (Nat.le_trans hm hm')⟩

theorem mono {n' m' : Nat} (gives : Gives n m P act Q R) (hn : n ≤ n') (hm : m ≤ m') :
    Gives n' m' P act Q R :=
  ⟨gives.keeps.mono hn hm, fun c s sound fits hn' hm' =>
    gives.post c s sound fits (Nat.le_trans hn hn') (Nat.le_trans hm hm')⟩

theorem weaken (gives : Gives n m P act Q R) (stronger : ∀ s, P' s → P s)
    {R' : α → State → Prop} (weaker : ∀ a s, R a s → R' a s) : Gives n m P' act Q R' :=
  ⟨gives.keeps, fun c s sound fits hn hm holds a s' run =>
    weaker a s' (gives.post c s sound fits hn hm (stronger s holds) a s' run)⟩

/-- Any step keeps a lasting fact. -/
theorem of_keeps (keeps : Keeps n m act Q) (lasting : Lasting F) : Gives n m F act Q fun _ => F :=
  ⟨keeps, fun c s sound fits hn hm holds a s' run =>
    lasting s s' (keeps c s sound fits hn hm a s' run).2.1 holds⟩

theorem frame (gives : Gives n m P act Q R) (lasting : Lasting F) :
    Gives n m (fun s => P s ∧ F s) act Q fun a s => R a s ∧ F s :=
  ⟨gives.keeps, fun c s sound fits hn hm holds a s' run =>
    ⟨gives.post c s sound fits hn hm holds.1 a s' run,
      (of_keeps gives.keeps lasting).post c s sound fits hn hm holds.2 a s' run⟩⟩

theorem of_stays (keeps : Keeps n m act Q) (stays : Stays act) : Gives n m Here act Q fun _ => Here :=
  ⟨keeps, fun c s sound fits hn hm here a s' run => by
    rw [Here, stays c s a s' run]
    exact reaches_lasting _ s s' (keeps c s sound fits hn hm a s' run).2.1 here⟩

theorem pure {a : α} (holds : ∀ n' m', n ≤ n' → m ≤ m' → Q n' m' a) (post : ∀ s, P s → R a s) :
    Gives n m P (Pure.pure a) Q R :=
  ⟨.pure holds, fun c s _ _ _ _ holds b s' run => by
    cases run
    exact post s holds⟩

end Gives

/-! Elementary steps. -/

section Steps

variable {n m : Nat}

theorem emit_stays (x : Instr) : Stays (emit x) := fun _ _ _ _ run => by cases run; rfl

theorem newBlock_stays : Stays newBlock := fun _ _ _ _ run => by cases run; rfl

theorem newTemp_stays : Stays newTemp := fun _ _ _ _ run => by cases run; rfl

theorem variableBinding_stays (name : String) : Stays (variableBinding name) := by
  intro c s v s' run
  cases found : s.variableIds.get? name with
  | some u =>
    rw [run_variableBinding_of_some c found] at run
    cases run
    rfl
  | none =>
    rw [run_variableBinding_of_none c found] at run
    cases run
    rfl

theorem plainCall_stays (receiver : Operand) (method : String) (args : List Operand) :
    Stays (plainCall receiver method args) := by
  intro c s a s' run
  cases run
  rfl

theorem emit_writes {x : Instr} {v : Nat} (keeps : Keeps n m (emit x) Any)
    (target : x.target? = some v) :
    Gives n m Here (emit x) Any fun _ s => Here s ∧ Writes v s where
  keeps := keeps
  post c s sound fits hn hm here a s' run := by
    have still := (Gives.of_stays keeps (emit_stays x)).post c s sound fits hn hm here a s' run
    refine ⟨still, s'.current, .inr still, ?_⟩
    cases run
    exact s.graph.writtenIn_pushInstr sound.current.2 target

def Names (name : String) (v : Nat) (s : State) : Prop := s.variableIds.get? name = some v

theorem names_lasting (name : String) (v : Nat) : Lasting (Names name v) :=
  fun _ _ grown => grown.names name v

theorem variableBinding_names (name : String) :
    Gives n m Here (variableBinding name) Known fun v s => Here s ∧ Names name v s where
  keeps := variableBinding_keeps
  post c s sound fits hn hm here v s' run := by
    refine ⟨(Gives.of_stays variableBinding_keeps (variableBinding_stays name)).post c s sound fits hn
      hm here v s' run, ?_⟩
    cases found : s.variableIds.get? name with
    | some u =>
      rw [run_variableBinding_of_some c found] at run
      cases run
      exact found
    | none =>
      rw [run_variableBinding_of_none c found] at run
      cases run
      exact (Dict.get?_put _ _ _ _).trans (if_pos rfl)

/-- A name is bound by writing to its binding. -/
theorem emit_binds {name : String} {x : Instr} {v : Nat} (keeps : Keeps n m (emit x) Any)
    (target : x.target? = some v) :
    Gives n m (fun s => Here s ∧ Names name v s) (emit x) Any fun _ s => Here s ∧ Binds name s :=
  ((emit_writes keeps target).frame (names_lasting name v)).weaken (fun _ h => h)
    fun _ _ h => ⟨h.1.1, v, h.2, h.1.2⟩

theorem readParam_binds {frame : Frame} {name : String} {p : Param}
    (usable : ∀ o ∈ p.operands, o.extent ≤ n) :
    Gives n m Here (readParam frame name p) Any fun _ s => Here s ∧ Binds name s :=
  (variableBinding_names name).bind fun n m v _ _ _ => emit_binds (paramInto_keeps (by grind)) rfl

theorem startBlock_here {b : Nat} (landing : Landing m b) :
    Gives n m (Reaches b) (startBlock b) Any fun _ => Here :=
  ⟨startBlock_keeps landing, fun _ _ _ _ _ _ reached _ _ run => by cases run; exact reached⟩

theorem jump_reaches {target : Nat} (landing : Landing m target) :
    Gives n m Here (jump target) Any fun _ => Reaches target where
  keeps := jump_keeps landing
  post c s sound fits hn hm here a s' run := by
    cases run
    refine FlowGraph.reached_addEdge _ ?_ ?_
      ((FlowGraph.Before.pushInstr _ (Nat.ne_of_gt sound.current.1) _).reached here)
    · simpa using sound.current.2
    · simpa using (landing.mono hm).2

theorem run_branch {condition : Operand} {yes no : Nat} {c : Context} {s s' : State} {a : Unit}
    (run : branch condition yes no c s = .ok a s') :
    s' = { s with
      graph := ((s.graph.pushInstr s.current (.branch condition yes no)).addEdge s.current yes
        .none).addEdge s.current no .none } :=
  (EStateM.Result.ok.inj run).2.symm

theorem branch_reaches {condition : Operand} {yes no : Nat}
    (fits : condition.extent ≤ n ∧ Landing m yes ∧ Landing m no) :
    Gives n m Here (branch condition yes no) Any fun _ => Reaches no where
  keeps := branch_keeps fits
  post c s sound c_fits hn hm here a s' run := by
    have inside : s.current <
        (s.graph.pushInstr s.current (.branch condition yes no)).blocks.size := by
      simpa using sound.current.2
    rw [Reaches, run_branch run]
    dsimp only
    refine FlowGraph.reached_addEdge _ ?_ ?_
      (((FlowGraph.Before.pushInstr _ (Nat.ne_of_gt sound.current.1) _).trans
        (.addEdge _ inside yes .none)).reached here)
    · simpa using sound.current.2
    · simpa using (fits.2.2.mono hm).2

end Steps

/-! Formals. -/

section Formals

variable {n m : Nat} {F : State → Prop}

theorem readArguments_binds {frame : Frame} {i : Nat} (names : List String) :
    Gives n m Here (readArguments frame i names) Any
      fun _ s => Here s ∧ ∀ name ∈ names, Binds name s := by
  induction names generalizing i with
  | nil => exact .pure (fun _ _ _ _ => trivial) fun s here => ⟨here, by simp⟩
  | cons name names ih =>
    refine (readParam_binds (by grind)).seq ?_
    refine (ih.frame (binds_lasting name)).weaken (fun _ h => h) fun _ s h => ⟨h.1.1, ?_⟩
    exact List.forall_mem_cons.mpr ⟨h.2, h.1.2⟩

theorem bindTrailing_binds {frame : Frame} {arity : Operand} {count i : Nat} (names : List String)
    (usable : arity.extent ≤ n) :
    Gives n m Here (bindTrailing frame arity count i names) Any
      fun _ s => Here s ∧ ∀ name ∈ names, Binds name s := by
  induction names generalizing i n m with
  | nil => exact .pure (fun _ _ _ _ => trivial) fun s here => ⟨here, by simp⟩
  | cons name names ih =>
    refine (Gives.of_stays (plainCall_keeps (by grind)) (plainCall_stays _ _ _)).bind
      fun n m position hn _ _ => ?_
    refine (readParam_binds (by grind)).seq ?_
    refine ((ih (by grind)).frame (binds_lasting name)).weaken (fun _ h => h) fun _ s h => ⟨h.1.1, ?_⟩
    exact List.forall_mem_cons.mpr ⟨h.2, h.1.2⟩

theorem bindBlock_binds {frame : Frame} {name : String} :
    Gives n m Here (bindBlock frame name) Any fun _ s => Here s ∧ Binds name s := by
  refine (variableBinding_names name).bind fun n m v _ _ _ => ?_
  cases frame with
  | method =>
    refine ⟨.bind .read fun n m c _ _ fits => copy_keeps ⟨by grind, extent_valueOf fits.block⟩, ?_⟩
    intro c s sound fits hn hm holds a s' run
    exact (emit_binds (copy_keeps (n := s.graph.bindings.size) (m := m)
      ⟨Nat.lt_of_lt_of_le (by assumption) hn, extent_valueOf fits.block⟩) rfl).post c s sound fits
      (Nat.le_refl _) hm holds a s' run
  | block i => exact emit_binds (paramInto_keeps ⟨by grind, by simp [Param.operands]⟩) rfl

/-- The formals up to the one for all the rest are bound. -/
structure FormalRoles.InFront (r : FormalRoles) (s : State) : Prop where
  leading : ∀ name ∈ r.leading, Binds name s
  optional : ∀ formal ∈ r.optional, Binds formal.1 s
  rest : ∀ name, r.rest = some name → Binds name s

theorem FormalRoles.inFront_lasting (r : FormalRoles) : Lasting r.InFront :=
  fun s s' grown bound =>
    ⟨fun name member => binds_lasting name s s' grown (bound.leading name member),
      fun formal member => binds_lasting formal.1 s s' grown (bound.optional formal member),
      fun name is => binds_lasting name s s' grown (bound.rest name is)⟩

/-- The formal has a place among the roles. -/
def FormalRoles.Covers (r : FormalRoles) : Formal → Prop
  | .required name => name ∈ r.leading ++ r.trailing
  | .optional name default => (name, default) ∈ r.optional
  | .rest name => r.rest = some name
  | .block name => r.block = some name

/-- Only another block formal can take the place of a formal. -/
theorem FormalRoles.covers_add {r r' : FormalRoles} {f : Formal} (added : r.add f = .ok r') :
    r'.Covers f ∧ ∀ f', (f.paramKind = .block → f'.paramKind ≠ .block) → r.Covers f' → r'.Covers f' := by
  cases f with
  | required name =>
    simp only [FormalRoles.add] at added
    split at added <;> cases added <;> refine ⟨by simp [Covers], fun f' _ => ?_⟩ <;>
      cases f' <;> simp only [Covers] <;> grind
  | optional name default =>
    cases added
    refine ⟨by simp [Covers], fun f' _ => ?_⟩
    cases f' <;> simp only [Covers] <;> grind
  | rest name =>
    simp only [FormalRoles.add] at added
    split at added
    · cases added
      refine ⟨rfl, fun f' _ => ?_⟩
      cases f' <;> simp only [Covers] <;> grind
    · cases added
  | block name =>
    cases added
    refine ⟨rfl, fun f' other => ?_⟩
    cases f' <;> simp_all [Covers, Formal.paramKind]

theorem FormalRoles.covers_foldlM {formals : List Formal} {r r' : FormalRoles}
    (run : formals.foldlM FormalRoles.add r = .ok r')
    (single : formals.countP (·.paramKind == .block) ≤ 1) :
    (∀ f ∈ formals, r'.Covers f) ∧
      ∀ f', (f'.paramKind = .block → formals.countP (·.paramKind == .block) = 0) →
        r.Covers f' → r'.Covers f' := by
  induction formals generalizing r with
  | nil =>
    cases run
    exact ⟨by simp, fun _ _ covers => covers⟩
  | cons f formals ih =>
    rw [List.foldlM_cons] at run
    cases added : r.add f with
    | error e =>
      rw [added] at run
      cases run
    | ok r₁ =>
      rw [added] at run
      obtain ⟨here, older⟩ := covers_add added
      rw [List.countP_cons] at single ⊢
      obtain ⟨later, keeps⟩ := ih run (by omega)
      refine ⟨List.forall_mem_cons.mpr ⟨keeps f (fun block => ?_) here, later⟩, fun f' alone covers => ?_⟩
      · simp only [block, beq_self_eq_true, if_true] at single
        omega
      · refine keeps f' (fun block => ?_) (older f' (fun first second => ?_) covers)
        · have := alone block
          omega
        · have := alone second
          simp [first] at this

theorem variableBinding_of_binds (name : String) :
    Gives n m (Binds name) (variableBinding name) Known fun v => Writes v where
  keeps := variableBinding_keeps
  post c s _ _ _ _ binds v s' run := by
    obtain ⟨u, known, written⟩ := binds
    rw [run_variableBinding_of_some c known] at run
    cases run
    exact written

theorem namesOf_writes (formals : List Formal) :
    Gives n m (fun s => ∀ f ∈ formals, Binds f.name s)
      (formals.mapM fun f =>
        (do return (← variableBinding f.name, f.paramKind) : Lower (BindingId × ParamKind)))
      Any fun results s => ∀ e ∈ results, Writes e.1 s := by
  induction formals generalizing n m with
  | nil => exact .pure (fun _ _ _ _ => trivial) fun s _ => by simp
  | cons f formals ih =>
    rw [List.mapM_cons, bind_assoc]
    have others : Lasting fun s => ∀ f ∈ formals, Binds f.name s :=
      .all formals fun f => binds_lasting f.name
    refine ((variableBinding_of_binds f.name).frame others).weaken
      (fun s h => List.forall_mem_cons.mp h) (fun _ _ h => h) |>.bind fun n m v _ _ _ => ?_
    rw [pure_bind]
    refine (ih.frame (writes_lasting v)).weaken (fun s h => h.symm) (fun _ _ h => h) |>.bind
      fun n m results _ _ _ => ?_
    exact .pure (fun _ _ _ _ => trivial) fun s h => List.forall_mem_cons.mpr h.symm

section Walk

variable {walk : Walk} [WalkKeeps walk]
theorem bindOptionals_binds {frame : Frame} {arity : Operand} {required leading k : Nat}
    {previous : Option BlockId} (optional : List (String × Tree)) (usable : arity.extent ≤ n)
    (landing : ∀ b : Nat, previous = some b → Landing m b) :
    Gives n m Here (bindOptionals walk frame arity required leading k previous optional)
      (fun _ m last => ∀ b : Nat, last = some b → Landing m b)
      fun _ s => Here s ∧ ∀ formal ∈ optional, Binds formal.1 s := by
  induction optional generalizing n m k previous with
  | nil => exact .pure (by grind) fun s here => ⟨here, by simp⟩
  | cons formal optional ih =>
    refine (Gives.of_stays (plainCall_keeps (by grind)) (plainCall_stays _ _ _)).bind
      fun n m missing _ _ _ => ?_
    refine (Gives.of_stays newBlock_keeps newBlock_stays).bind fun n m withDefault _ _ _ => ?_
    refine (Gives.of_stays newBlock_keeps newBlock_stays).bind fun n m withArgument _ _ _ => ?_
    refine (branch_reaches (by grind)).seq ?_
    extract_lets goOn
    -- whatever the default does, control comes back to the block for the argument
    have away := reaches_lasting withArgument
    have goOn_binds : Gives n m (Reaches withArgument) (goOn ())
        (fun _ m last => ∀ b : Nat, last = some b → Landing m b)
        fun _ s => Here s ∧ ∀ formal' ∈ formal :: optional, Binds formal'.1 s := by
      refine (Gives.of_keeps (startBlock_keeps (by grind)) away).seq ?_
      refine (Gives.of_keeps walked_keeps away).bind fun n m value _ _ _ => ?_
      refine (Gives.of_keeps variableBinding_keeps away).bind fun n m v _ _ _ => ?_
      refine (Gives.of_keeps (copy_keeps (by grind)) away).seq ?_
      refine (Gives.of_keeps currentBlock_keeps away).bind fun n m last _ _ _ => ?_
      refine (startBlock_here (by grind)).seq ?_
      refine (readParam_binds (by grind)).seq ?_
      refine ((ih (by grind) (by grind)).frame (binds_lasting formal.1)).weaken (fun _ h => h)
        fun _ s h => ⟨h.1.1, ?_⟩
      exact List.forall_mem_cons.mpr ⟨h.2, h.1.2⟩
    split
    · refine (Gives.of_keeps (startBlock_keeps (by grind)) away).seq ?_
      exact (Gives.of_keeps (jump_keeps (by grind)) away).seq goOn_binds
    · exact goOn_binds

theorem bindOpen_binds {frame : Frame} {r : FormalRoles} :
    Gives n m Here (bindOpen walk frame r) Any fun _ s =>
      (Here s ∧ ∀ name ∈ r.trailing, Binds name s) ∧ r.InFront s := by
  refine (Gives.of_stays (newParam_keeps (by simp [Param.operands])) ?_).bind
    fun n m arity _ _ _ => ?_
  · exact newTemp_stays.bind fun t => (emit_stays _).bind fun _ _ _ _ _ run => by cases run; rfl
  refine (readArguments_binds r.leading).seq ?_
  have leading : Lasting fun s => ∀ name ∈ r.leading, Binds name s :=
    .all _ fun name => binds_lasting name
  refine ((Gives.of_stays newBlock_keeps newBlock_stays).frame leading).bind fun n m done _ _ _ => ?_
  refine ((bindOptionals_binds r.optional (by grind) (by grind)).frame leading).bind
    fun n m lastDefault _ _ landing => ?_
  extract_lets last leave finish
  have known : Lasting fun s => (∀ formal ∈ r.optional, Binds formal.1 s) ∧
      ∀ name ∈ r.leading, Binds name s :=
    (Lasting.all r.optional fun formal => binds_lasting formal.1).and leading
  have all := r.inFront_lasting
  have onward := (reaches_lasting done).and all
  have last_binds : Gives n m (fun s => Reaches done s ∧ r.InFront s) (last ()) Any fun _ s =>
      (Here s ∧ ∀ name ∈ r.trailing, Binds name s) ∧ r.InFront s :=
    ((startBlock_here (by grind)).frame all).seq
      ((bindTrailing_binds r.trailing (by grind)).frame all)
  have landing_done : Landing m done := by grind
  have leave_binds := (Gives.of_keeps (jump_keeps landing_done) onward).seq last_binds
  have finish_binds : Gives n m (fun s => Here s ∧ r.InFront s) (finish ()) Any fun _ s =>
      (Here s ∧ ∀ name ∈ r.trailing, Binds name s) ∧ r.InFront s := by
    refine ((jump_reaches (by grind)).frame all).seq ?_
    split
    · refine (Gives.of_keeps (startBlock_keeps (by grind)) onward).seq ?_
      split
      · refine (Gives.of_keeps variableBinding_keeps onward).bind fun n m v hn hm _ => ?_
        exact (Gives.of_keeps (copy_keeps (by grind)) onward).seq (leave_binds.mono hn hm)
      · exact leave_binds
    · exact last_binds
  split
  · rename_i name rest
    refine ((Gives.of_stays (plainCall_keeps (by grind)) (plainCall_stays _ _ _)).frame known).weaken
      (fun s h => ⟨h.1.1, h.1.2, h.2⟩) (fun _ _ h => h) |>.bind fun n m count hn hm _ => ?_
    refine ((readParam_binds (by grind)).frame known).seq ?_
    refine (finish_binds.mono hn hm).weaken (fun s h => ⟨h.1.1, h.2.2, h.2.1, fun other is => ?_⟩)
      fun _ _ h => h
    rw [rest] at is
    exact Option.some.inj is ▸ h.1.2
  · rename_i none
    exact finish_binds.weaken
      (fun s h => ⟨h.1.1, h.2, h.1.2, fun other is => (none other is).elim⟩) fun _ _ h => h

/-- With one formal for a block at most, all formals are bound. -/
theorem bindFormals_writes {formals : List Formal} {frame : Frame}
    (single : formals.countP (·.paramKind == .block) ≤ 1) :
    Gives n m Here (bindFormals walk formals frame) Any
      fun results s => ∀ e ∈ results, Writes e.1 s := by
  refine ⟨bindFormals_keeps, fun c s sound fits hn hm here results s' run => ?_⟩
  obtain ⟨r, s₁, run₁, rest_run⟩ := run_bind run
  obtain ⟨sorted, rfl⟩ : FormalRoles.ofFormals formals = .ok r ∧ s₁ = s := by
    cases sorted : FormalRoles.ofFormals formals with
    | ok r' =>
      rw [sorted] at run₁
      cases run₁
      exact ⟨rfl, rfl⟩
    | error e =>
      rw [sorted] at run₁
      cases run₁
  have covers := (FormalRoles.covers_foldlM sorted single).1
  refine Gives.post (P := Here) (Q := Any) (R := fun results s => ∀ e ∈ results, Writes e.1 s) ?_ c s₁
    sound fits hn hm here results s' rest_run
  extract_lets last rest
  have all := r.inFront_lasting
  have trailing : Lasting fun s => ∀ name ∈ r.trailing, Binds name s :=
    .all _ fun name => binds_lasting name
  have bound (s : State) (front : r.InFront s) (behind : ∀ name ∈ r.trailing, Binds name s)
      (block : ∀ name, r.block = some name → Binds name s) : ∀ f ∈ formals, Binds f.name s := by
    intro f member
    have place := covers f member
    cases f with
    | required name =>
      exact (List.mem_append.mp place).elim (front.leading name) (behind name)
    | optional name default => exact front.optional (name, default) place
    | rest name => exact front.rest name place
    | block name => exact block name place
  have rest_writes : Gives n m (fun s => (Here s ∧ ∀ name ∈ r.trailing, Binds name s) ∧ r.InFront s)
      (rest ()) Any fun results s => ∀ e ∈ results, Writes e.1 s := by
    simp only [rest]
    split
    · rename_i name is
      refine ((bindBlock_binds.frame (trailing.and all)).weaken
        (fun s h => ⟨h.1.1, h.1.2, h.2⟩) fun _ _ h => h).seq ?_
      refine (namesOf_writes formals).weaken (fun s h => bound s h.2.2 h.2.1 fun other is' => ?_)
        fun _ _ h => h
      rw [is] at is'
      exact Option.some.inj is' ▸ h.1.2
    · rename_i none
      exact (namesOf_writes formals).weaken
        (fun s h => bound s h.2 h.1.2 fun other is => (none other is).elim) fun _ _ h => h
  split
  · rename_i fixed
    simp only [FormalRoles.isFixed, Bool.and_eq_true, List.isEmpty_iff, Option.isNone_iff_eq_none]
      at fixed
    refine (readArguments_binds (r.leading ++ r.trailing)).seq (rest_writes.weaken (fun s h => ?_)
      fun _ _ h => h)
    refine ⟨⟨h.1, fun name member => h.2 name (List.mem_append_right _ member)⟩,
      fun name member => h.2 name (List.mem_append_left _ member), ?_, ?_⟩
    · rw [fixed.1]
      simp
    · rw [fixed.2]
      simp
  · exact bindOpen_binds.seq rest_writes

end Walk

end Formals

/-! The prologue. -/

section Prologue

variable {n m : Nat}

/-- A block that belongs to every graph writes to a register and ends. -/
theorem writtenIn_leave {g : FlowGraph} (room : 6 ≤ g.blocks.size) {b target v : Nat} {o : Operand}
    {x : Instr} {flags : EdgeFlags} (landing : Landing 6 b) :
    (((g.pushInstr b (.assign v o)).pushInstr b x).addEdge b target flags).WrittenIn v b := by
  refine (before_leave ?_ landing).writtenIn (FlowGraph.writtenIn_pushInstr g ?_ rfl)
  · rw [FlowGraph.blocks_size_pushInstr]
    exact room
  · exact Nat.lt_of_lt_of_le landing.2 room

theorem run_buildExits {finalReturn finalException : Nat} {c : Context} {s s' : State} {a : Unit}
    (run : buildExits finalReturn finalException c s = .ok a s') :
    ∃ g : FlowGraph, g.blocks.size = s.graph.blocks.size ∧ s' = { s with
      graph := (((((g.pushInstr FlowGraph.failure
        (.assign finalException (.binding c.exception))).pushInstr
        FlowGraph.failure (.raise (.binding finalException))).addEdge
        FlowGraph.failure FlowGraph.exit abnormal).pushInstr
        FlowGraph.returnBlock (.assign finalReturn (.binding c.result))).pushInstr
        FlowGraph.returnBlock (.returnWith (.binding finalReturn))).addEdge
        FlowGraph.returnBlock FlowGraph.exit .none } := by
  refine ⟨[FlowGraph.rescueBlock, FlowGraph.yieldFail].foldl (fun g b =>
    (g.pushInstr b (.jump FlowGraph.failure)).addEdge b FlowGraph.failure abnormal) s.graph, ?_,
    (EStateM.Result.ok.inj run).2.symm⟩
  simp

theorem buildExits_writes {finalReturn finalException : Nat} (return_known : finalReturn < n)
    (exception_known : finalException < n) :
    Gives n m Here (buildExits finalReturn finalException) Any fun _ s =>
      Here s ∧ Writes finalReturn s ∧ Writes finalException s where
  keeps := buildExits_keeps return_known exception_known
  post c s sound fits hn hm here a s' run := by
    have grown := (buildExits_keeps return_known exception_known c s sound fits hn hm a s' run).2.1
    have reached : Reaches s.current s' := reaches_lasting s.current s s' grown here
    obtain ⟨g, size, same⟩ := run_buildExits run
    have room : 6 ≤ g.blocks.size := size ▸ sound.graph.room
    refine ⟨?_, ⟨FlowGraph.returnBlock, .inl (by decide), ?_⟩, FlowGraph.failure, .inl (by decide), ?_⟩
    · have stays : s'.current = s.current := by rw [same]
      rw [Here, stays]
      exact reached
    · rw [same]
      dsimp only
      exact writtenIn_leave (by simpa using room) (by decide)
    · rw [same]
      dsimp only
      refine (before_leave ?_ (by decide)).writtenIn
        ((FlowGraph.Before.pushInstr _ (by decide) _).writtenIn (writtenIn_leave room (by decide)))
      simpa using room

/-- The registers that the prologue writes. -/
structure Opened (c : Context) (finalReturn finalException : BindingId) (s : State) : Prop where
  self : Writes c.self s
  block : ∀ b, c.block = some b → Writes b s
  finalReturn : Writes finalReturn s
  finalException : Writes finalException s

theorem opened_lasting (c : Context) (finalReturn finalException : BindingId) :
    Lasting (Opened c finalReturn finalException) :=
  fun s s' grown opened =>
    ⟨writes_lasting _ s s' grown opened.self,
      fun b is => writes_lasting b s s' grown (opened.block b is),
      writes_lasting _ s s' grown opened.finalReturn,
      writes_lasting _ s s' grown opened.finalException⟩

theorem addEdge_reaches {b : Nat} (landing : Landing m b) :
    Gives n m (Reaches FlowGraph.enter) (addEdge FlowGraph.enter b .none) Any fun _ => Reaches b where
  keeps := addEdge_keeps ⟨Nat.lt_trans landing.1 landing.2, landing⟩ rfl rfl
  post c s sound fits hn hm reached a s' run := by
    cases run
    exact FlowGraph.reached_addEdge _ (Nat.lt_of_lt_of_le (by decide) sound.graph.room)
      (landing.mono hm).2 reached

theorem openingIn_writes {walk : Walk} [WalkKeeps walk] {finalReturn finalException : Nat}
    (return_known : finalReturn < n) (exception_known : finalException < n) {c : Context}
    (fits : c.Fits n m) :
    Gives n m (Reaches FlowGraph.enter) (openingIn walk finalReturn finalException c) Any fun bound s =>
      (c.formals.countP (·.paramKind == .block) ≤ 1 → ∀ e ∈ bound, Writes e.1 s) ∧
        Opened c finalReturn finalException s := by
  obtain ⟨self, block, exception, result, _⟩ := fits
  refine (Gives.of_keeps newBlock_keeps (reaches_lasting _)).bind fun n m first _ _ _ => ?_
  refine (addEdge_reaches (by grind)).seq ?_
  refine (startBlock_here (by grind)).seq ?_
  refine (emit_writes (paramInto_keeps ⟨by grind, by simp [Param.operands]⟩) rfl).seq ?_
  refine ((buildExits_writes (by grind) (by grind)).frame (writes_lasting c.self)).seq ?_
  have rest : Gives n m (fun s => Here s ∧ Opened c finalReturn finalException s) (do
      paramInto c.exception .currentException .method
      bindFormals walk c.formals .method) Any fun bound s =>
      (c.formals.countP (·.paramKind == .block) ≤ 1 → ∀ e ∈ bound, Writes e.1 s) ∧
        Opened c finalReturn finalException s := by
    have opened := opened_lasting c finalReturn finalException
    refine ((emit_writes (paramInto_keeps ⟨by grind, by simp [Param.operands]⟩) rfl).frame opened).seq ?_
    by_cases single : c.formals.countP (·.paramKind == .block) ≤ 1
    · exact ((bindFormals_writes single).frame opened).weaken (fun s h => ⟨h.1.1, h.2⟩)
        fun _ _ h => ⟨fun _ => h.1, h.2⟩
    · exact (Gives.of_keeps bindFormals_keeps opened).weaken (fun s h => h.2)
        fun _ _ h => ⟨fun only => absurd only single, h⟩
  split
  · rename_i b is
    refine ((emit_writes (paramInto_keeps ⟨by grind, by simp [Param.operands]⟩) rfl).frame
      (((writes_lasting finalReturn).and (writes_lasting finalException)).and
        (writes_lasting c.self))).weaken (fun s h => ⟨h.1.1, h.1.2, h.2⟩) (fun _ _ h => h)
      |>.seq (rest.weaken (fun s h => ⟨h.1.1, h.2.2, fun b' is' => ?_, h.2.1.1, h.2.1.2⟩)
        fun _ _ h => h)
    rw [is] at is'
    exact Option.some.inj is' ▸ h.1.2
  · rename_i none
    exact rest.weaken
      (fun s h => ⟨h.1.1, h.2, fun b is => (none b is).elim, h.1.2.1, h.1.2.2⟩) fun _ _ h => h

end Prologue

end Lowering

namespace FlowGraph

/-- What single-assignment form asks of a graph besides being well formed. -/
structure Prepared (g : FlowGraph) : Prop where
  entry : (g.block enter).instrs = []
  written : ∀ v ∈ g.header.ids, ∃ b, (g.block b).removed = false ∧ g.WrittenIn v b
  constants : g.constants = .empty
  isSingle : g.isSingle = false

end FlowGraph

namespace Lowering

/-- What is written in a block that stays is written in the end. -/
theorem Writes.of_trimmed {v : Nat} {s : State} {g : FlowGraph} (writes : Writes v s)
    (trimmed : FlowGraph.Trimmed FlowGraph.Spared s.graph g) (wf : g.WellFormed) :
    ∃ b, (g.block b).removed = false ∧ g.WrittenIn v b := by
  obtain ⟨b, stays, i, inside, member, target⟩ := writes
  have live : (g.block b).removed = false :=
    stays.elim (wf.kept b) fun reached => FlowGraph.live_of_reached wf (trimmed.reached wf reached)
  refine ⟨b, live, i, ?_, ?_, ?_⟩
  · rw [trimmed.instrs]
    exact inside
  · rw [(trimmed.kept b live id).1]
    exact member
  · rw [FlowGraph.instr_congr trimmed.instrs]
    exact target

/-- All registers of a built graph are written, and with one formal for a block at most all formals are. -/
theorem build_written {l : Lowering} {body : Tree} {formals : List Formal} {next next' : Serial}
    {g : FlowGraph} (built : l.build body formals next = .ok g next') :
    (formals.countP (·.paramKind == .block) ≤ 1 → ∀ f ∈ g.formals,
      ∃ b, (g.block b).removed = false ∧ g.WrittenIn f.1 b) ∧
    ((∀ f ∈ g.formals, ∃ b, (g.block b).removed = false ∧ g.WrittenIn f.1 b) → g.Prepared) := by
  have wf := build_wellFormed built
  have started := start_started l formals next
  obtain ⟨s', first, run, -, -, trimmed, -⟩ := build_trimmed built
  obtain ⟨bound, s₁, opening, before, grown, sound⟩ := lowerWhole_grown started run
  have sound₀ := started.made.intact.sound started.unnamed
  obtain ⟨formals_written, opened⟩ := (openingIn_writes started.return_known
    started.exception_known started.fits).post
    _ { (l.start formals next).state with current := FlowGraph.exit } sound₀ started.fits
    (Nat.le_refl _) (Nat.le_refl _)
    (.start (by rw [FlowGraph.size_view]; exact Nat.lt_of_lt_of_le (by decide) sound₀.graph.room))
    bound s₁ opening
  have header : g.header = { (l.start formals next).state.graph.header with formals := bound } := by
    rw [trimmed.header, grown.graph.header, ← before.header]
    rfl
  rw [started.header] at header
  obtain ⟨-, -, -, -, bound_eq, constants, isSingle, -⟩ := FlowGraph.Header.mk.inj header
  have lasting {v : Nat} (writes : Writes v s₁) : ∃ b, (g.block b).removed = false ∧ g.WrittenIn v b :=
    Writes.of_trimmed (writes_lasting v _ _ grown writes) trimmed wf
  refine ⟨fun single f member => lasting (formals_written (by rwa [started.formals]) f ?_),
    fun formals_written => ⟨?_, fun v member => ?_, constants, isSingle⟩⟩
  · rwa [← bound_eq]
  · rw [(trimmed.kept FlowGraph.enter (wf.kept _ rfl) id).1, grown.graph.entry]
    refine before.entry.trans ?_
    rw [FlowGraph.block_congr started.made.blocks]
    exact (FlowGraph.block_ofScope _ _).1
  · simp only [header, FlowGraph.Header.ids, Option.toList_some, List.append_assoc, List.cons_append,
      List.nil_append, List.mem_cons, List.mem_append, Option.mem_toList, List.mem_map] at member
    rcases member with rfl | is | rfl | rfl | ⟨e, of_formal, rfl⟩
    · exact lasting opened.self
    · exact lasting (opened.block v is)
    · exact lasting opened.finalReturn
    · exact lasting opened.finalException
    · exact formals_written e (by rw [bound_eq]; exact of_formal)

theorem build_prepared {l : Lowering} {body : Tree} {formals : List Formal} {next next' : Serial}
    {g : FlowGraph} (built : l.build body formals next = .ok g next')
    (single : formals.countP (·.paramKind == .block) ≤ 1) : g.Prepared :=
  (build_written built).2 ((build_written built).1 single)

end Lowering

end ScriptFlow
