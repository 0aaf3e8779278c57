import ScriptFlow.Proofs.Dict
import ScriptFlow.Proofs.Lowering.Logic

/-! The elementary steps of a lowering keep its state sound. -/

namespace ScriptFlow

namespace FlowGraph

theorem modify_comm (bs : Array Block) (a b : Nat) {f h : Block → Block}
    (comm : ∀ blk, f (h blk) = h (f blk)) :
    (bs.modify a f).modify b h = (bs.modify b h).modify a f := by
  refine Array.ext (by simp) fun i _ _ => ?_
  simp only [Array.getElem_modify]
  grind

/-- Whether an instruction or an edge comes first makes no difference. -/
theorem pushInstr_addEdge (g : FlowGraph) (a b : Nat) (flags : EdgeFlags) (c : Nat) (x : Instr) :
    (g.addEdge a b flags).pushInstr c x = (g.pushInstr c x).addEdge a b flags := by
  have same : (g.pushInstr c x).edge? a b = g.edge? a b := by
    rw [edge?, succs_pushInstr, edge?]
  unfold addEdge
  rw [same]
  split
  · simp only [pushInstr, modifyEdge, modifyBlock]
    congr 1
    exact modify_comm _ a c fun _ => rfl
  · simp only [pushInstr, modifyBlock]
    congr 1
    refine Eq.trans (modify_comm _ b c ?_) (congrArg (Array.modify · b _) (modify_comm _ a c ?_))
    · exact fun _ => rfl
    · exact fun _ => rfl

end FlowGraph

theorem Instr.Within.of_slots {n : Nat} {x : Instr} (plain : x.isPhi = false)
    (slots : ∀ o ∈ x.slots, o.extent ≤ n) (target : ∀ t : Nat, x.target? = some t → t < n) :
    x.Within n := by
  refine ⟨fun v member => ?_, target⟩
  have shape : x.operands = x.slots.filterMap (·.binding?) := by
    cases x <;> first | rfl | cases plain
  rw [shape, List.mem_filterMap] at member
  obtain ⟨o, mem, is_v⟩ := member
  cases o with
  | binding w =>
    cases is_v
    exact slots _ mem
  | const _ => cases is_v

/-- The bindings and operands of a call make sense. -/
@[grind =] def CallSite.Fits (n : Nat) (site : CallSite) : Prop :=
  (∀ o ∈ site.operands, o.extent ≤ n) ∧ ∀ t : Nat, site.target = some t → t < n

attribute [grind =] CallSite.operands CallSite.plain Lowering.siteOf Param.operands

namespace Lowering

variable {n m : Nat}

@[simp, grind =] theorem extent_intConst (k : Nat) : (intConst k).extent = 0 := rfl

@[simp, grind =] theorem extent_moduleConst (c : ModuleId) : (moduleConst c).extent = 0 := rfl

@[simp, grind =] theorem extent_symConst (name : String) : (symConst name).extent = 0 := rfl

@[simp, grind =] theorem extent_nil : Operand.nil.extent = 0 := rfl

theorem State.Sound.with_graph {s : State} (sound : s.Sound) {g : FlowGraph} (wf : g.WellFormed)
    (present : ∀ b, (g.block b).removed = false) (blocks : s.graph.blocks.size ≤ g.blocks.size)
    (bindings : s.graph.bindings.size ≤ g.bindings.size) : { s with graph := g }.Sound where
  graph := wf
  present := present
  current := sound.current.mono blocks
  names e mem := Nat.lt_of_lt_of_le (sound.names e mem) bindings

theorem State.Before.of_graph {s : State} {g : FlowGraph} (grown : s.graph.Before g) :
    s.Before { s with graph := g } :=
  ⟨grown, fun _ _ known => known⟩

/-! Blocks. -/

theorem namedBlock_keeps {name : String} : Keeps n m (namedBlock name) Open := by
  refine .updateGet fun s sound _ _ => ⟨?_, .of_graph (.pushBlock _ name), ?_⟩
  · refine sound.with_graph (sound.graph.pushBlock name) (fun b => ?_) (by simp) (Nat.le_refl _)
    rw [FlowGraph.block_pushBlock]
    split
    · rfl
    · exact sound.present b
  · have room := sound.graph.room
    simp only [FlowGraph.pushBlock, Array.size_push]
    omega

theorem newBlock_keeps : Keeps n m newBlock Open :=
  .seq (.update fun _ sound _ _ =>
      ⟨⟨sound.graph, sound.present, sound.current, sound.names⟩, .refl _, fun _ _ known => known⟩)
    (.bind .get fun _ _ _ _ _ _ => namedBlock_keeps)

theorem Keeps.reserve {α : Type} {f : BlockId → Lower α} {R : Nat → Nat → α → Prop}
    (rest : ∀ m' b, m ≤ m' → Landing m' b → Keeps n m' (f b) R) : Keeps n m (newBlock >>= f) R :=
  newBlock_keeps.bind fun _ m' b hn hm landing =>
    (rest m' b hm landing).mono hn (Nat.le_refl m')

theorem currentBlock_keeps : Keeps n m currentBlock Open := by
  intro c s sound _ _ _ a s' run
  cases run
  exact ⟨sound, .refl s, sound.current⟩

theorem startBlock_keeps {b : Nat} (landing : Landing m b) : Keeps n m (startBlock b) Any :=
  .update fun _ sound _ hm =>
    ⟨⟨sound.graph, sound.present, landing.mono hm, sound.names⟩, .refl _, fun _ _ known => known⟩

theorem startUnreachable_keeps : Keeps n m startUnreachable Any :=
  newBlock_keeps.bind fun _ _ _ _ _ _ => startBlock_keeps (by grind)

/-- An edge that is no exception edge. -/
theorem addEdge_keeps {a b : Nat} {flags : EdgeFlags} (ends : a < m ∧ Landing m b)
    (real : flags.fake = false) (plain : flags.isException = false) :
    Keeps n m (addEdge a b flags) Any := by
  refine .update fun s sound _ hm => ⟨?_, .of_graph (.addEdge _ (by omega) b flags)⟩
  refine sound.with_graph ?_ (fun b => ?_) (by simp) (by simp)
  · exact sound.graph.addEdge (by omega) (by omega) (sound.present a) (sound.present b)
      (Nat.ne_of_gt ends.2.1) real fun h => by rw [plain] at h; cases h
  · rw [FlowGraph.removed_addEdge]
    exact sound.present b

/-! Bindings. -/

theorem newBinding_keeps {name : String} {kind : BindingKind} :
    Keeps n m (newBinding name kind) Known := by
  refine .updateGet fun s sound _ _ => ⟨?_, .of_graph (.pushBinding _ _), ?_⟩
  · exact sound.with_graph (sound.graph.pushBinding _ rfl) sound.present (Nat.le_refl _)
      (by simp [FlowGraph.addBinding])
  · simp [FlowGraph.addBinding, FlowGraph.pushBinding]

theorem newTemp_keeps : Keeps n m newTemp Known :=
  .seq (.update fun _ sound _ _ =>
      ⟨⟨sound.graph, sound.present, sound.current, sound.names⟩, .refl _, fun _ _ known => known⟩)
    (.bind .get fun _ _ _ _ _ _ => newBinding_keeps)

/-- The result, if there is one, is a binding that exists. -/
abbrev KnownIf : Nat → Nat → Option BindingId → Prop := fun n _ o => ∀ v : Nat, o = some v → v < n

theorem tempIf_keeps {want : Bool} : Keeps n m (tempIf want) KnownIf := by
  unfold tempIf
  split
  · exact newTemp_keeps.bind fun n m t _ _ known => .pure (by grind)
  · exact .pure (by grind)

theorem mem_place {name : String} {v : BindingId} {es : List (String × BindingId)}
    {e : String × BindingId} (member : e ∈ Dict.place name v es) : e = (name, v) ∨ e ∈ es := by
  induction es with
  | nil => exact .inl (by simpa [Dict.place] using member)
  | cons d es ih =>
    unfold Dict.place at member
    grind

theorem run_variableBinding_of_some {name : String} {v : BindingId} (c : Context) {s : State}
    (found : s.variableIds.get? name = some v) : variableBinding name c s = .ok v s := by
  unfold variableBinding
  rw [run_get, found]
  rfl

theorem run_variableBinding_of_none {name : String} (c : Context) {s : State}
    (unknown : s.variableIds.get? name = none) :
    variableBinding name c s = .ok s.graph.bindings.size
      { s with
        graph := (s.graph.addBinding name .variable).2
        variableIds := s.variableIds.put name s.graph.bindings.size } := by
  unfold variableBinding
  rw [run_get, unknown]
  rfl

theorem variableBinding_keeps {name : String} : Keeps n m (variableBinding name) Known := by
  intro c s sound fits hn hm a s' run
  cases found : s.variableIds.get? name with
  | some v =>
    rw [run_variableBinding_of_some c found] at run
    cases run
    exact ⟨sound, .refl s, sound.names _ (FlowGraph.mem_of_lookup found)⟩
  | none =>
    rw [run_variableBinding_of_none c found] at run
    obtain ⟨rfl, rfl⟩ := EStateM.Result.ok.inj run
    have grown : s.graph.Before (s.graph.addBinding name .variable).2 := .pushBinding _ _
    have made : s.graph.bindings.size < (s.graph.addBinding name .variable).2.bindings.size := by
      simp [FlowGraph.addBinding, FlowGraph.pushBinding]
    have wider := sound.with_graph (sound.graph.pushBinding (.ofName name .variable) rfl)
      sound.present (Nat.le_refl _) grown.bindings
    refine ⟨⟨wider.graph, wider.present, wider.current, fun e member => ?_⟩, ⟨grown, ?_⟩, made⟩
    · rcases mem_place member with rfl | old
      · exact made
      · exact wider.names e old
    · intro other v known
      have apart : other ≠ name := by
        rintro rfl
        rw [found] at known
        cases known
      exact (Dict.get?_put _ _ _ _).trans ((if_neg apart).trans known)

/-! Instructions. -/

theorem State.Sound.pushInstr {s : State} (sound : s.Sound) {x : Instr}
    (within : x.Within s.graph.bindings.size) (plain : x.isPhi = false) (b : Nat) :
    { s with graph := s.graph.pushInstr b x }.Sound := by
  refine sound.with_graph (sound.graph.pushInstr (sound.present b) within plain) (fun c => ?_)
    (by simp) (Nat.le_refl _)
  rw [FlowGraph.removed_pushInstr]
  exact sound.present c

theorem emit_keeps {x : Instr} (within : x.Within n) (plain : x.isPhi = false) :
    Keeps n m (emit x) Any :=
  .update fun s sound hn _ =>
    ⟨sound.pushInstr (within.mono hn) plain s.current, .of_graph (.pushInstr _ (Nat.ne_of_gt sound.current.1) _)⟩

theorem copy_keeps {target : Nat} {source : Operand} (fits : target < n ∧ source.extent ≤ n) :
    Keeps n m (copy target source) Any :=
  emit_keeps (.of_slots rfl (by simpa [Instr.slots] using fits.2)
    (by simpa [Instr.target?] using fits.1)) rfl

theorem copyIf_keeps {target : Option BindingId} {source : Operand}
    (fits : (∀ t : Nat, target = some t → t < n) ∧ source.extent ≤ n) :
    Keeps n m (copyIf target source) Any := by
  cases target with
  | none => exact .pure fun _ _ _ _ => trivial
  | some t => exact copy_keeps ⟨fits.1 t rfl, fits.2⟩

theorem paramInto_keeps {target : Nat} {p : Param} {frame : Frame}
    (fits : target < n ∧ ∀ o ∈ p.operands, o.extent ≤ n) :
    Keeps n m (paramInto target p frame) Any :=
  emit_keeps (.of_slots rfl fits.2 (by simpa [Instr.target?] using fits.1)) rfl

theorem newParam_keeps {p : Param} {frame : Frame} (usable : ∀ o ∈ p.operands, o.extent ≤ n) :
    Keeps n m (newParam p frame) Known := by
  refine newTemp_keeps.bind fun n m t _ _ known => ?_
  exact .seq (paramInto_keeps (by grind)) (.pure (by grind))

/-- An edge of any kind may leave a block that has an instruction. -/
theorem State.Sound.addEdge {s : State} (sound : s.Sound) {a b : Nat} {flags : EdgeFlags}
    (source : a < s.graph.blocks.size) (target : Landing s.graph.blocks.size b)
    (real : flags.fake = false)
    (guarded : (s.graph.block a).instrs ≠ [] ∨ (s.graph.block b).instrs ≠ []) :
    { s with graph := s.graph.addEdge a b flags }.Sound := by
  refine sound.with_graph ?_ (fun c => ?_) (by simp) (by simp)
  · exact sound.graph.addEdge source target.2 (sound.present a) (sound.present b)
      (Nat.ne_of_gt target.1) real fun _ => guarded
  · rw [FlowGraph.removed_addEdge]
    exact sound.present c

theorem instrs_pushInstr_self (g : FlowGraph) {b : Nat} (inside : b < g.blocks.size) (x : Instr) :
    ((g.pushInstr b x).block b).instrs ≠ [] := by
  rw [FlowGraph.block_pushInstr, if_pos ⟨rfl, inside⟩]
  simp

theorem jump_within (b : Nat) : (Instr.jump b).Within n :=
  .of_slots rfl (by simp [Instr.slots]) (by simp [Instr.target?])

theorem jumpWith_keeps {target : Nat} {flags : EdgeFlags} (landing : Landing m target)
    (real : flags.fake = false) : Keeps n m (jumpWith target flags) Any := by
  intro c s sound _ _ hm a s' run
  cases run
  have sound₁ := sound.pushInstr (x := .jump target) (jump_within _) rfl s.current
  refine ⟨sound₁.addEdge ?_ ?_ real (.inl ?_), .of_graph ?_, trivial⟩
  · exact sound₁.current.2
  · simpa using landing.mono hm
  · exact instrs_pushInstr_self _ sound.current.2 _
  · exact (FlowGraph.Before.pushInstr _ (Nat.ne_of_gt sound.current.1) _).trans
      (.addEdge _ sound₁.current.2 target flags)

theorem jump_keeps {target : Nat} (landing : Landing m target) : Keeps n m (jump target) Any :=
  jumpWith_keeps landing rfl

theorem branch_keeps {condition : Operand} {yes no : Nat}
    (fits : condition.extent ≤ n ∧ Landing m yes ∧ Landing m no) :
    Keeps n m (branch condition yes no) Any := by
  have within : (Instr.branch condition yes no).Within n :=
    .of_slots rfl (by simpa [Instr.slots] using fits.1) (by simp [Instr.target?])
  refine (emit_keeps within rfl).seq ?_
  refine currentBlock_keeps.bind fun n m b _ _ here => ?_
  refine .seq (addEdge_keeps (by grind) rfl rfl) ?_
  exact currentBlock_keeps.bind fun n m b _ _ here => addEdge_keeps (by grind) rfl rfl

/-- How control goes on from the block that an exception lands in, and after the call. -/
theorem leaveLanding_keeps (origin : Nat) (resume : Bool) (source : origin < m) :
    Keeps n m (do
      jumpWith (← read).targets.rescueTo abnormal
      if resume then
        let after ← newBlock
        addEdge origin after .none
        startBlock after
      else startUnreachable) Any := by
  refine .bind .read fun n m c _ _ fits => ?_
  refine (jumpWith_keeps fits.targets.rescueTo rfl).seq ?_
  split
  · refine newBlock_keeps.bind fun n m after _ _ landing => ?_
    exact .seq (addEdge_keeps (by grind) rfl rfl) (startBlock_keeps (by grind))
  · exact startUnreachable_keeps

/-- The block that an exception lands in gets an instruction at once, so its edge is guarded. -/
theorem raiseEdge_keeps {resume : Bool} : Keeps n m (raiseEdge resume) Any := by
  intro c s sound fits hn hm a s' run
  let landing := s.graph.blocks.size
  obtain ⟨opened, opened_eq⟩ : ∃ opened : State, opened =
      { s with
        blockCount := s.blockCount + 1, current := landing
        graph := (s.graph.pushBlock ("B" ++ toString (s.blockCount + 1))).2 } := ⟨_, rfl⟩
  have opened_run : newBlock c s = .ok landing { opened with current := s.current } := by
    rw [opened_eq]
    rfl
  obtain ⟨opened_sound, grown₁, here⟩ :=
    newBlock_keeps (n := n) (m := m) c s sound fits hn hm _ _ opened_run
  have param_within : (Instr.param c.exception .justRaised .method).Within
      opened.graph.bindings.size :=
    .of_slots rfl (by simp [Instr.slots, Param.operands])
      (by simpa [Instr.target?] using Nat.lt_of_lt_of_le fits.exception grown₁.graph.bindings)
  have moved : opened.Sound :=
    ⟨opened_sound.graph, opened_sound.present, by rw [opened_eq] at here ⊢; exact here,
      opened_sound.names⟩
  have entered := (moved.pushInstr param_within rfl landing).addEdge (a := s.current)
    (b := landing) (by simpa using opened_sound.current.2) (by simpa using here)
    (show abnormal.fake = false from rfl) (.inr (instrs_pushInstr_self _ here.2 _))
  rw [← FlowGraph.pushInstr_addEdge] at entered
  rw [opened_eq] at entered grown₁
  have grown₂ : s.Before { s with
      blockCount := s.blockCount + 1, current := landing
      graph := ((s.graph.pushBlock ("B" ++ toString (s.blockCount + 1))).2.addEdge s.current landing
        abnormal).pushInstr landing (.param c.exception .justRaised .method) } :=
    ⟨grown₁.graph.trans ((FlowGraph.Before.addEdge _ (by simpa using Nat.lt_succ_of_lt sound.current.2)
      landing abnormal).trans (.pushInstr _ (Nat.ne_of_gt here.1) _)), fun _ _ known => known⟩
  have rest := leaveLanding_keeps (n := n) s.current resume (Nat.lt_succ_of_lt sound.current.2) c _
    entered (fits.mono grown₂.graph.bindings grown₂.graph.blocks)
    (Nat.le_trans hn grown₂.graph.bindings) (by simp) a s' run
  exact ⟨rest.1, grown₂.trans rest.2.1, trivial⟩

/-! Calls. -/

theorem extent_valueOf {target : Option BindingId} (known : ∀ t : Nat, target = some t → t < n) :
    (valueOf target).extent ≤ n := by
  cases target with
  | none => exact Nat.zero_le _
  | some t => exact known t rfl

theorem emitCall_keeps {site : CallSite} {want : Bool} (fits : site.Fits n) :
    Keeps n m (emitCall site want) Usable := by
  unfold emitCall
  extract_lets finish
  have finish_keeps (n' m' : Nat) (target : Option BindingId) (hn : n ≤ n')
      (known : KnownIf n' m' target) : Keeps n' m' (finish target) Usable := by
    have within : (Instr.call { site with target }).Within n' := by
      exact .of_slots rfl (fun o member => Nat.le_trans (fits.1 o member) hn) known
    refine (emit_keeps within rfl).seq ?_
    have result : Keeps n' m' (pure (valueOf target)) Usable :=
      .pure fun n'' _ hn' _ => Nat.le_trans (extent_valueOf known) hn'
    split
    · exact raiseEdge_keeps.seq result
    · exact result
  split
  · exact tempIf_keeps.bind fun n' m' t hn _ known => finish_keeps n' m' t hn known
  · exact finish_keeps n m site.target (Nat.le_refl _) fits.2

theorem plainCall_keeps {receiver : Operand} {method : String} {args : List Operand}
    (usable : ∀ o ∈ receiver :: args, o.extent ≤ n) :
    Keeps n m (plainCall receiver method args) Usable :=
  emitCall_keeps (by grind)

theorem raisingCall_keeps {receiver : Operand} {method : String} {args : List Operand}
    {ignoreVisibility want : Bool} (usable : ∀ o ∈ receiver :: args, o.extent ≤ n) :
    Keeps n m (raisingCall receiver method args ignoreVisibility want) Usable :=
  emitCall_keeps (by grind)

end Lowering

end ScriptFlow
