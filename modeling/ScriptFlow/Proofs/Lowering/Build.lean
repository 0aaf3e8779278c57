import ScriptFlow.Proofs.FlowGraph.Tidy
import ScriptFlow.Proofs.Lowering.Control

/-! A lowered body is a well-formed graph. -/

namespace ScriptFlow

namespace FlowGraph

theorem wellFormed_ofScope (scope : Scope) : (ofScope scope).WellFormed := by
  have instrs (b : Nat) := (block_ofScope scope b).1
  have succs (b : Nat) := (block_ofScope scope b).2.1
  have preds (b : Nat) := (block_ofScope scope b).2.2.1
  have removed (b : Nat) := (block_ofScope scope b).2.2.2
  have succIds (b : Nat) : (ofScope scope).succIds b = [] := by simp [FlowGraph.succIds, succs]
  exact
    { symm := fun a b => by simp [succIds, preds]
      succs_distinct := fun a => by simp [succIds]
      preds_distinct := fun a => by simp [preds]
      room := by simp [ofScope]
      kept := fun b _ => removed b
      bare := fun b gone => by simp [removed] at gone
      placed := fun b i member => by simp [instrs] at member
      distinct := fun b => by simp [instrs]
      inScope := fun i inside => by simp [ofScope] at inside
      unmerged := fun i inside => by simp [ofScope] at inside
      real := fun a e member => by simp [succs] at member
      entry := preds enter
      guarded := fun a e member => by simp [succs] at member
      original := fun v => rfl }

end FlowGraph

namespace Lowering

variable {n m : Nat}

/-- A well-formed graph without removed blocks. -/
structure Intact (g : FlowGraph) : Prop where
  wellFormed : g.WellFormed
  present : ∀ b, (g.block b).removed = false

namespace Intact

variable {g : FlowGraph}

theorem ofScope (scope : Scope) : Intact (.ofScope scope) :=
  ⟨FlowGraph.wellFormed_ofScope scope, fun b => (FlowGraph.block_ofScope scope b).2.2.2⟩

theorem congr {h : FlowGraph} (intact : Intact g) (blocks : h.blocks = g.blocks)
    (instrs : h.instrs = g.instrs) (bindings : h.bindings = g.bindings) : Intact h :=
  ⟨intact.wellFormed.congr blocks instrs bindings,
    fun b => by rw [FlowGraph.block_congr blocks]; exact intact.present b⟩

theorem addBinding (intact : Intact g) (name : String) (kind : BindingKind) :
    Intact (g.addBinding name kind).2 :=
  ⟨intact.wellFormed.pushBinding _ rfl, intact.present⟩

theorem sound {s : State} (intact : Intact s.graph) (unnamed : s.variableIds = .empty) :
    { s with current := FlowGraph.exit }.Sound where
  graph := intact.wellFormed
  present := intact.present
  current := (show Landing 6 FlowGraph.exit by decide).mono intact.wellFormed.room
  names e member := by
    rw [unnamed] at member
    cases member

theorem pushInstr (intact : Intact g) {x : Instr} (within : x.Within g.bindings.size)
    (plain : x.isPhi = false) (b : Nat) : Intact (g.pushInstr b x) :=
  ⟨intact.wellFormed.pushInstr (intact.present b) within plain,
    fun c => by simpa using intact.present c⟩

/-- A jump out of one of the blocks that belong to every graph. -/
theorem leave (intact : Intact g) {x : Instr} {b target : Nat} {flags : EdgeFlags}
    (within : x.Within g.bindings.size) (plain : x.isPhi = false) (source : b < 6)
    (landing : Landing 6 target) (real : flags.fake = false) :
    Intact ((g.pushInstr b x).addEdge b target flags) := by
  have room := intact.wellFormed.room
  have pushed := intact.pushInstr within plain b
  refine ⟨pushed.wellFormed.addEdge ?_ ?_ (pushed.present b) (pushed.present target)
    (Nat.ne_of_gt landing.1) real fun _ => .inl ?_, fun c => by simpa using intact.present c⟩
  · rw [FlowGraph.blocks_size_pushInstr]
    omega
  · rw [FlowGraph.blocks_size_pushInstr]
    omega
  · exact instrs_pushInstr_self _ (by omega) x

end Intact

theorem before_leave {g : FlowGraph} (room : 6 ≤ g.blocks.size) {x : Instr} {b target : Nat}
    {flags : EdgeFlags} (source : Landing 6 b) :
    g.Before ((g.pushInstr b x).addEdge b target flags) := by
  refine (FlowGraph.Before.pushInstr _ (Nat.ne_of_gt source.1) _).trans (.addEdge _ ?_ _ _)
  rw [FlowGraph.blocks_size_pushInstr]
  omega

theorem buildExits_keeps {finalReturn finalException : Nat} (return_known : finalReturn < n)
    (exception_known : finalException < n) :
    Keeps n m (buildExits finalReturn finalException) Any := by
  refine .bind .read fun n m c _ _ exception_fits => ?_
  refine .bind .read fun n m c' _ _ result_fits => ?_
  have exception := exception_fits.exception
  have result := result_fits.result
  have store_exception : (Instr.assign finalException (.binding c.exception)).Within n :=
    .of_slots rfl (by grind [Instr.slots]) (by grind [Instr.target?])
  have store_result : (Instr.assign finalReturn (.binding c'.result)).Within n :=
    .of_slots rfl (by grind [Instr.slots]) (by grind [Instr.target?])
  have raise : (Instr.raise (.binding finalException)).Within n :=
    .of_slots rfl (by grind [Instr.slots]) (by grind [Instr.target?])
  have return_ : (Instr.returnWith (.binding finalReturn)).Within n :=
    .of_slots rfl (by grind [Instr.slots]) (by grind [Instr.target?])
  refine .update fun s sound hn hm => ?_
  have rescued := Intact.leave ⟨sound.graph, sound.present⟩ (jump_within FlowGraph.failure) rfl
    (show FlowGraph.rescueBlock < 6 by decide) (show Landing 6 FlowGraph.failure by decide)
    (show abnormal.fake = false from rfl)
  have failed := rescued.leave (jump_within FlowGraph.failure) rfl
    (show FlowGraph.yieldFail < 6 by decide) (show Landing 6 FlowGraph.failure by decide)
    (show abnormal.fake = false from rfl)
  have stored := failed.pushInstr (store_exception.mono (by simpa using hn)) rfl FlowGraph.failure
  have raised := stored.leave (raise.mono (by simpa using hn)) rfl
    (show FlowGraph.failure < 6 by decide) (show Landing 6 FlowGraph.exit by decide)
    (show abnormal.fake = false from rfl)
  have kept := raised.pushInstr (store_result.mono (by simpa using hn)) rfl FlowGraph.returnBlock
  have left := kept.leave (return_.mono (by simpa using hn)) rfl
    (show FlowGraph.returnBlock < 6 by decide) (show Landing 6 FlowGraph.exit by decide)
    (show EdgeFlags.none.fake = false from rfl)
  dsimp only [List.foldl_cons, List.foldl_nil]
  refine ⟨sound.with_graph left.wellFormed left.present (by simp) (by simp), .of_graph ?_⟩
  refine .trans ?_ (before_leave kept.wellFormed.room (by decide))
  refine .trans ?_ (.pushInstr _ (by decide) _)
  refine .trans ?_ (before_leave stored.wellFormed.room (by decide))
  refine .trans ?_ (.pushInstr _ (by decide) _)
  refine .trans ?_ (before_leave rescued.wellFormed.room (by decide))
  exact before_leave sound.graph.room (by decide)

/-- The prologue for a given context, up to where the formals are noted. -/
abbrev openingIn (walk : Walk) (finalReturn finalException : BindingId) (c : Context) :
    Lower (List (BindingId × ParamKind)) := do
  let first ← newBlock
  addEdge FlowGraph.enter first .none
  startBlock first
  paramInto c.self .receiver .method
  buildExits finalReturn finalException
  if let some b := c.block then paramInto b .block .method
  paramInto c.exception .currentException .method
  bindFormals walk c.formals .method

theorem prologue_eq_opening (walk : Walk) (finalReturn finalException : BindingId) :
    prologue walk finalReturn finalException =
      (read >>= openingIn walk finalReturn finalException) >>= fun formals =>
        modifyGraph ({ · with formals }) := by
  rw [bind_assoc]
  refine congrArg (read >>= ·) (funext fun c => ?_)
  cases block : c.block <;> simp [openingIn, block]

theorem openingIn_keeps {walk : Walk} [WalkKeeps walk] {finalReturn finalException : Nat}
    (return_known : finalReturn < n) (exception_known : finalException < n) {c : Context}
    (fits : c.Fits n m) : Keeps n m (openingIn walk finalReturn finalException c) Any := by
  obtain ⟨self, block, exception, result, _⟩ := fits
  refine .reserve fun m first _ _ => ?_
  refine .seq (addEdge_keeps (by grind [FlowGraph.enter]) rfl rfl) ?_
  refine .seq (startBlock_keeps (by grind)) ?_
  refine .seq (paramInto_keeps ⟨by grind, by simp [Param.operands]⟩) ?_
  refine .seq (buildExits_keeps (by grind) (by grind)) ?_
  have rest : Keeps n m (do
      paramInto c.exception .currentException .method
      bindFormals walk c.formals .method) Any :=
    .seq (paramInto_keeps ⟨by grind, by simp [Param.operands]⟩) bindFormals_keeps
  split
  · exact .seq (paramInto_keeps ⟨by grind, by simp [Param.operands]⟩) rest
  · exact rest

theorem Targets.Fits.outermost (room : 6 ≤ m) : Targets.Fits n m
    { breakTo := none, nextTo := none, redoTo := none, returnTo := FlowGraph.returnBlock,
      rescueTo := FlowGraph.rescueBlock, yieldFailTo := FlowGraph.yieldFail,
      breakValue := none, nextValue := none } where
  breakTo _ h := by cases h
  nextTo _ h := by cases h
  redoTo _ h := by cases h
  returnTo := (show Landing 6 FlowGraph.returnBlock by decide).mono room
  rescueTo := (show Landing 6 FlowGraph.rescueBlock by decide).mono room
  yieldFailTo := (show Landing 6 FlowGraph.yieldFail by decide).mono room
  breakValue _ h := by cases h
  nextValue _ h := by cases h

/-- Only bindings were made. -/
structure Made (scope : Scope) (g : FlowGraph) : Prop where
  intact : Intact g
  blocks : g.blocks = (FlowGraph.ofScope scope).blocks
  instrs : g.instrs = #[]

theorem Made.ofScope (scope : Scope) : Made scope (.ofScope scope) := ⟨.ofScope scope, rfl, rfl⟩

theorem addBinding_made {scope : Scope} {g h : FlowGraph} {name : String} {kind : BindingKind} {v : Nat}
    (made : Made scope g) (added : g.addBinding name kind = (v, h)) :
    Made scope h ∧ v < h.bindings.size ∧ g.bindings.size ≤ h.bindings.size ∧
      h.header = g.header := by
  cases added
  exact ⟨⟨made.intact.addBinding name kind, made.blocks, made.instrs⟩, by simp, by simp, rfl⟩

/-- The register of the passed block is made unless a program is lowered. -/
theorem passedBlock_made {scope : Scope} {g h : FlowGraph} {isProgram : Bool}
    {block : Option BindingId} (made : Made scope g)
    (added : (if isProgram = true then (none, g)
      else (some (register g "current_block").1, (register g "current_block").2)) = (block, h)) :
    Made scope h ∧ (∀ v : Nat, block = some v → v < h.bindings.size) ∧
      g.bindings.size ≤ h.bindings.size ∧ h.header = g.header := by
  split at added
  · cases added
    exact ⟨made, by simp, Nat.le_refl _, rfl⟩
  · cases added
    obtain ⟨made', known, grown⟩ :=
      addBinding_made (v := (register g "current_block").1) made rfl
    exact ⟨made', fun v same => Option.some.inj same ▸ known, grown⟩

structure Started (l : Lowering) (formals : List Formal) (start : Start) : Prop where
  made : Made l.scope start.state.graph
  unnamed : start.state.variableIds = .empty
  header : start.state.graph.header =
    ⟨some start.context.self, start.context.block, some start.finalReturn, some start.finalException,
      [], .empty, false, l.scope⟩
  fits : start.context.Fits start.state.graph.bindings.size start.state.graph.blocks.size
  return_known : start.finalReturn < start.state.graph.bindings.size
  exception_known : start.finalException < start.state.graph.bindings.size
  methodName : start.context.methodName = l.methodName
  formals : start.context.formals = formals
  targets : start.context.targets =
    { breakTo := none, nextTo := none, redoTo := none, returnTo := FlowGraph.returnBlock,
      rescueTo := FlowGraph.rescueBlock, yieldFailTo := FlowGraph.yieldFail, breakValue := none,
      nextValue := none }

theorem start_started (l : Lowering) (formals : List Formal) (nextProc : Serial) :
    Started l formals (l.start formals nextProc) := by
  unfold start
  rcases added : (FlowGraph.ofScope l.scope).addBinding "self" .temporary with ⟨self, g₁⟩
  obtain ⟨made₁, self_known, _, header₁⟩ := addBinding_made (.ofScope l.scope) added
  simp only [added]
  -- one register after the other
  generalize added : (if l.isProgram = true then (none, g₁) else (some (register g₁ "current_block").1,
    (register g₁ "current_block").2)) = r
  obtain ⟨block, g₂⟩ := r
  obtain ⟨made₂, block_known, _, header₂⟩ := passedBlock_made made₁ added
  generalize added : register g₂ "exception_value" = r
  obtain ⟨exception, g₃⟩ := r
  obtain ⟨made₃, exception_known, _, header₃⟩ := addBinding_made made₂ added
  generalize added : register g₃ "return_value" = r
  obtain ⟨result, g₄⟩ := r
  obtain ⟨made₄, result_known, _, header₄⟩ := addBinding_made made₃ added
  generalize added : register g₄ "final_return" = r
  obtain ⟨finalReturn, g₅⟩ := r
  obtain ⟨made₅, return_known, _, header₅⟩ := addBinding_made made₄ added
  generalize added : register g₅ "exit_exception" = r
  obtain ⟨finalException, g₆⟩ := r
  obtain ⟨made₆, final_known, _, header₆⟩ := addBinding_made made₅ added
  have rest : g₆.header = ⟨none, none, none, none, [], .empty, false, l.scope⟩ := by
    rw [header₆, header₅, header₄, header₃, header₂, header₁]
    rfl
  obtain ⟨_, _, _, _, formals_eq, constants_eq, isSingle_eq, scope_eq⟩ := FlowGraph.Header.mk.inj rest
  exact
    { made := ⟨made₆.intact.congr rfl rfl rfl, made₆.blocks, made₆.instrs⟩
      unnamed := rfl
      header := by simp only [FlowGraph.header, formals_eq, constants_eq, isSingle_eq, scope_eq]
      fits := ⟨by grind, by grind, by grind, by grind, .outermost made₆.intact.wellFormed.room⟩
      return_known := by grind
      exception_known := final_known
      methodName := rfl
      formals := rfl
      targets := rfl }

/-- A lowering that starts with its registers made notes the formals and goes on to a sound state. -/
theorem lowerWhole_grown {walk : Walk} [WalkKeeps walk] {body : Tree} {l : Lowering}
    {formals : List Formal} {start : Start} (started : Started l formals start) {s' : State}
    (run : lowerWhole walk body start.finalReturn start.finalException start.context start.state =
      .ok () s') :
    ∃ bound s₁, openingIn walk start.finalReturn start.finalException start.context start.context
        start.state = .ok bound s₁ ∧ start.state.graph.Before s₁.graph ∧
      State.Before { s₁ with graph := { s₁.graph with formals := bound } } s' ∧ s'.Sound := by
  have sound := started.made.intact.sound started.unnamed
  unfold lowerWhole at run
  rw [prologue_eq_opening] at run
  obtain ⟨_, s₂, run₂, run⟩ := run_bind run
  obtain ⟨bound, s₁, run₁, run₂⟩ := run_bind run₂
  replace run₁ := run_read run₁
  -- the prologue starts a block of its own, so it does not matter which one is current before
  obtain ⟨sound₁, grown₁, _⟩ := openingIn_keeps started.return_known started.exception_known
    started.fits start.context { start.state with current := FlowGraph.exit } sound started.fits
    (Nat.le_refl _) (Nat.le_refl _) bound s₁ run₁
  refine ⟨bound, s₁, run₁, grown₁.graph, ?_⟩
  obtain ⟨-, rfl⟩ := EStateM.Result.ok.inj run₂
  have rest : Keeps s₁.graph.bindings.size s₁.graph.blocks.size (do
      let value ← walk body true
      copy (← read).result value
      jump FlowGraph.returnBlock) Any := by
    refine .bind walked_keeps fun n m value _ hm _ => ?_
    refine .bind .read fun n m c _ hm' fits => ?_
    refine .seq (copy_keeps ⟨fits.result, by grind⟩) (jump_keeps ?_)
    exact (show Landing 6 FlowGraph.returnBlock by decide).mono
      (Nat.le_trans sound₁.graph.room (Nat.le_trans hm hm'))
  obtain ⟨sound', grown, _⟩ := rest start.context { s₁ with graph := { s₁.graph with formals := bound } }
    ⟨sound₁.graph.congr rfl rfl rfl, sound₁.present, sound₁.current, sound₁.names⟩
    (started.fits.mono grown₁.graph.bindings grown₁.graph.blocks) (Nat.le_refl _) (Nat.le_refl _) _ s'
    run
  exact ⟨grown, sound'⟩

/-- A graph is built by lowering the body and tidying up. -/
theorem build_run {l : Lowering} {body : Tree} {formals : List Formal} {next next' : Serial}
    {g : FlowGraph} (built : l.build body formals next = .ok g next') :
    ∃ s' : State,
      lowerWhole (walk l.maxDepth l.maxDepth) body (l.start formals next).finalReturn
        (l.start formals next).finalException (l.start formals next).context
        (l.start formals next).state = .ok () s' ∧
      Intact s'.graph ∧ g = tidy s'.graph := by
  unfold build at built
  dsimp only at built
  split at built
  · rename_i s' run
    obtain ⟨_, _, _, _, _, sound⟩ := lowerWhole_grown (start_started l formals next) run
    refine ⟨s', run, ⟨sound.graph, sound.present⟩, ?_⟩
    exact (EStateM.Result.ok.inj built).1.symm
  · cases built

theorem exists_built {l : Lowering} {body : Tree} {formals : List Formal} {next : Serial}
    (p : FlowGraph → Prop) [DecidablePred p]
    (found : ((l.build body formals).run' next).any (fun g => decide (p g)) = true) :
    ∃ g next', l.build body formals next = .ok g next' ∧ p g := by
  unfold EStateM.run' EStateM.run at found
  cases built : l.build body formals next with
  | ok g next' =>
    rw [built] at found
    exact ⟨g, next', rfl, of_decide_eq_true found⟩
  | error e next' =>
    rw [built] at found
    cases found

/-- Every graph that lowering builds is well formed. -/
theorem build_wellFormed {l : Lowering} {body : Tree} {formals : List Formal} {next next' : Serial}
    {g : FlowGraph} (built : l.build body formals next = .ok g next') : g.WellFormed := by
  obtain ⟨s', run, intact, same⟩ := build_run built
  rw [same]
  exact intact.wellFormed.tidy

end Lowering

end ScriptFlow
