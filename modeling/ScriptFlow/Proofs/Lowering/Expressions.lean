import ScriptFlow.Proofs.Lowering.Steps

/-! Lowering conversions, formals, calls and literals keeps the state sound. -/

namespace ScriptFlow.Lowering

variable {frame : Frame} {name : String} {want : Bool} {t : Tree}
variable {n m : Nat}

/-! Conversions. -/

theorem convert_keeps {value : Operand} {cls : ModuleId} {method : String}
    (usable : value.extent ≤ n) : Keeps n m (convert value cls method) Usable := by
  refine .bind newTemp_keeps fun n m result _ _ _ => ?_
  refine .bind (plainCall_keeps (by grind)) fun n m isInstance _ _ _ => ?_
  refine .reserve fun m already _ _ => ?_
  refine .reserve fun m check _ _ => ?_
  refine .reserve fun m convertible _ _ => ?_
  refine .reserve fun m missing _ _ => ?_
  refine .reserve fun m join _ _ => ?_
  refine .seq (branch_keeps (by grind)) <| .seq (startBlock_keeps (by grind)) ?_
  refine .seq (copy_keeps (by grind)) ?_
  refine .seq (emit_keeps (.of_slots rfl (by grind [Instr.slots]) (by simp [Instr.target?])) rfl) ?_
  refine .seq (jump_keeps (by grind)) <| .seq (startBlock_keeps (by grind)) ?_
  refine .bind (newParam_keeps (by grind)) fun n m responds _ _ _ => ?_
  refine .seq (branch_keeps (by grind)) <| .seq (startBlock_keeps (by grind)) ?_
  refine .bind (raisingCall_keeps (by grind)) fun n m converted _ _ _ => ?_
  refine .seq (copy_keeps (by grind)) <| .seq (jump_keeps (by grind)) ?_
  refine .seq (startBlock_keeps (by grind)) ?_
  refine .seq (copy_keeps (by grind)) <| .seq (jump_keeps (by grind)) ?_
  refine .seq (startBlock_keeps (by grind)) ?_
  exact .pure (by grind)

theorem arrayOf_keeps {items : List Operand} (usable : ∀ o ∈ items, o.extent ≤ n) :
    Keeps n m (arrayOf items) Usable :=
  plainCall_keeps (by grind)

theorem toArray_keeps {value : Operand} {method : String} (usable : value.extent ≤ n) :
    Keeps n m (toArray value method) Usable := by
  refine .bind (convert_keeps (by grind)) fun n m converted _ _ _ => ?_
  refine .bind newTemp_keeps fun n m result _ _ _ => ?_
  refine .reserve fun m done _ _ => ?_
  refine .reserve fun m wrap _ _ => ?_
  refine .reserve fun m join _ _ => ?_
  refine .seq (branch_keeps (by grind)) <| .seq (startBlock_keeps (by grind)) ?_
  refine .seq (copy_keeps (by grind)) <| .seq (jump_keeps (by grind)) ?_
  refine .seq (startBlock_keeps (by grind)) ?_
  refine .bind (arrayOf_keeps (by grind)) fun n m wrapped _ _ _ => ?_
  refine .seq (copy_keeps (by grind)) <| .seq (jump_keeps (by grind)) ?_
  refine .seq (startBlock_keeps (by grind)) ?_
  exact .pure (by grind)

/-- The result is a list of operands that make sense. -/
abbrev AllUsable : Nat → Nat → List Operand → Prop := fun n _ os => ∀ o ∈ os, o.extent ≤ n

section

variable {walk : Walk} [WalkKeeps walk]

theorem arrayParts_keeps {parts run : List Operand} {ts : List Tree}
    (parts_usable : ∀ o ∈ parts, o.extent ≤ n) (run_usable : ∀ o ∈ run, o.extent ≤ n) :
    Keeps n m (arrayParts walk parts run ts) AllUsable := by
  induction ts generalizing n m parts run with
  | nil =>
    unfold arrayParts
    split
    · exact .pure (by grind)
    · exact .bind (arrayOf_keeps (by grind)) fun n m array _ _ _ => .pure (by grind)
  | cons t ts ih =>
    unfold arrayParts
    split
    · extract_lets goOn
      have goOn_keeps (n' m' : Nat) (parts : List Operand) (hn : n ≤ n')
          (usable : ∀ o ∈ parts, o.extent ≤ n') : Keeps n' m' (goOn parts) AllUsable := by
        refine .check fun inner => ?_
        refine .bind walked_keeps fun n m value _ _ _ => ?_
        exact .bind (toArray_keeps (by grind)) fun n m array _ _ _ => ih (by grind) (by grind)
      split
      · exact goOn_keeps n m parts (Nat.le_refl _) parts_usable
      · exact .bind (.map (arrayOf_keeps (by grind)) fun n m array _ _ _ => by grind)
          fun n m parts hn _ usable => goOn_keeps n m parts hn usable
    · exact .bind walked_keeps fun n m value _ _ _ => ih (by grind) (by grind)

theorem splatArray_keeps {elements : List Tree} : Keeps n m (splatArray walk elements) Usable := by
  refine .bind (arrayParts_keeps (by simp) (by simp)) fun n m parts _ _ usable => ?_
  split
  · exact .pure (by grind)
  · rename_i first more
    exact .foldlM (by grind) (by grind) fun n' m' joined _ _ _ part _ => plainCall_keeps (by grind)

theorem walkAll_keeps {ts : List Tree} : Keeps n m (walkAll walk ts) AllUsable :=
  .mapM (by grind) fun t _ => walked_keeps

end

/-! Formals. -/

theorem readParam_keeps {p : Param} (usable : ∀ o ∈ p.operands, o.extent ≤ n) :
    Keeps n m (readParam frame name p) Any :=
  .bind variableBinding_keeps fun n m v _ _ _ => paramInto_keeps (by grind)

theorem readArguments_keeps {i : Nat} {names : List String} :
    Keeps n m (readArguments frame i names) Any := by
  induction names generalizing i with
  | nil => exact .pure fun _ _ _ _ => trivial
  | cons name names ih => exact .seq (readParam_keeps (by grind)) ih

theorem bindTrailing_keeps {arity : Operand} {count i : Nat} {names : List String}
    (usable : arity.extent ≤ n) : Keeps n m (bindTrailing frame arity count i names) Any := by
  induction names generalizing i n m with
  | nil => exact .pure fun _ _ _ _ => trivial
  | cons name names ih =>
    refine .bind (plainCall_keeps (by grind)) fun n m position _ _ _ => ?_
    exact .seq (readParam_keeps (by grind)) (ih (by grind))

theorem bindBlock_keeps : Keeps n m (bindBlock frame name) Any := by
  refine .bind variableBinding_keeps fun n m v _ _ _ => ?_
  split
  · refine .bind .read fun n m c _ _ fits => ?_
    exact copy_keeps ⟨by grind, extent_valueOf fits.block⟩
  · exact paramInto_keeps ⟨by grind, by simp [Param.operands]⟩

section

variable {walk : Walk} [WalkKeeps walk]

/-- The block with the last default, if there is one, may be gone on from. -/
theorem bindOptionals_keeps {arity : Operand} {required leading k : Nat}
    {previous : Option BlockId} {optional : List (String × Tree)}
    (usable : arity.extent ≤ n) (landing : ∀ b : Nat, previous = some b → Landing m b) :
    Keeps n m (bindOptionals walk frame arity required leading k previous optional)
      fun _ m last => ∀ b : Nat, last = some b → Landing m b := by
  induction optional generalizing n m k previous with
  | nil => exact .pure (by grind)
  | cons formal optional ih =>
    refine .bind (plainCall_keeps (by grind)) fun n m missing _ _ _ => ?_
    refine .reserve fun m withDefault _ _ => ?_
    refine .reserve fun m withArgument _ _ => ?_
    refine .seq (branch_keeps (by grind)) ?_
    extract_lets goOn
    have goOn_keeps : Keeps n m (goOn ()) fun _ m last => ∀ b : Nat, last = some b → Landing m b := by
      refine .seq (startBlock_keeps (by grind)) ?_
      refine .bind walked_keeps fun n m value _ _ _ => ?_
      refine .bind variableBinding_keeps fun n m v _ _ _ => ?_
      refine .seq (copy_keeps (by grind)) ?_
      refine .bind currentBlock_keeps fun n m last _ _ _ => ?_
      refine .seq (startBlock_keeps (by grind)) <| .seq (readParam_keeps (by grind)) ?_
      exact ih (by grind) (by grind)
    split
    · exact .seq (startBlock_keeps (by grind)) <| .seq (jump_keeps (by grind)) goOn_keeps
    · exact goOn_keeps

theorem bindOpen_keeps {r : FormalRoles} : Keeps n m (bindOpen walk frame r) Any := by
  refine .bind (newParam_keeps (by simp [Param.operands])) fun n m arity _ _ _ => ?_
  refine .seq readArguments_keeps ?_
  refine .reserve fun m done _ _ => ?_
  refine .bind (bindOptionals_keeps (by grind) (by grind))
    fun n m lastDefault _ _ landing => ?_
  extract_lets last leave finish
  have last_keeps : Keeps n m (last ()) Any :=
    .seq (startBlock_keeps (by grind)) (bindTrailing_keeps (by grind))
  have leave_keeps : Keeps n m (leave ()) Any := .seq (jump_keeps (by grind)) last_keeps
  have finish_keeps : Keeps n m (finish ()) Any := by
    refine .seq (jump_keeps (by grind)) ?_
    split
    · refine .seq (startBlock_keeps (by grind)) ?_
      split
      · refine .bind variableBinding_keeps fun n m v hn hm _ => ?_
        exact .seq (copy_keeps (by grind)) (leave_keeps.mono hn hm)
      · exact leave_keeps
    · exact last_keeps
  split
  · refine .bind (plainCall_keeps (by grind)) fun n m count hn hm _ => ?_
    exact .seq (readParam_keeps (by grind)) (finish_keeps.mono hn hm)
  · exact finish_keeps

theorem bindFormals_keeps {formals : List Formal} :
    Keeps n m (bindFormals walk formals frame) Any := by
  have names {n m : Nat} : Keeps n m (formals.mapM fun f =>
      (do return (← variableBinding f.name, f.paramKind) : Lower (BindingId × ParamKind))) Any :=
    .any (.mapM (Q := Any) (by grind) fun f _ =>
      .bind variableBinding_keeps fun _ _ _ _ _ _ => .pure fun _ _ _ _ => trivial)
  refine .check fun r => ?_
  extract_lets last rest
  have rest_keeps : Keeps n m (rest ()) Any := by
    simp only [rest]
    split
    · exact .seq bindBlock_keeps names
    · exact names
  split
  · exact .seq readArguments_keeps rest_keeps
  · exact .seq bindOpen_keeps rest_keeps

end

/-! Calls. -/

theorem registerLiteral_keeps {t : BlockTree} {lambda : Bool} :
    Keeps n m (registerLiteral t lambda) fun n _ r => r.2.extent ≤ n := by
  refine .updateGet fun s sound _ _ =>
    ⟨?_, ⟨.of_same rfl rfl (Nat.le_refl _) rfl, fun _ _ known => known⟩, Nat.zero_le _⟩
  exact ⟨sound.graph.congr rfl rfl rfl, sound.present, sound.current, sound.names⟩

/-- An exception leaves a block for another by a raise. -/
theorem raiseFrom_keeps {α : Type} {b target : Nat} {rest : Lower α} {Q : Nat → Nat → α → Prop}
    (source : Landing m b) (landing : Landing m target) (rest_keeps : Keeps n m rest Q) :
    Keeps n m (do
      startBlock b
      emit (.raise (.binding (← read).exception))
      addEdge b target abnormal
      rest) Q := by
  intro c s sound fits hn hm a s' run
  have moved : { s with current := b }.Sound :=
    ⟨sound.graph, sound.present, source.mono hm, sound.names⟩
  have within : (Instr.raise (.binding c.exception)).Within s.graph.bindings.size :=
    .of_slots rfl (by grind [Instr.slots, fits.exception]) (by simp [Instr.target?])
  have raised := (moved.pushInstr within rfl b).addEdge (a := b) (b := target)
    (by simpa using (source.mono hm).2) (by simpa using landing.mono hm)
    (show abnormal.fake = false from rfl)
    (.inl (instrs_pushInstr_self _ (source.mono hm).2 _))
  obtain ⟨sound', grown', post⟩ := rest_keeps c _ raised (by simpa using fits) (by simpa using hn)
    (by simpa using hm) a s' run
  have grown : s.graph.Before ((s.graph.pushInstr b (.raise (.binding c.exception))).addEdge b target
      abnormal) :=
    (FlowGraph.Before.pushInstr _ (Nat.ne_of_gt source.1) _).trans
      (.addEdge _ (by simpa using (source.mono hm).2) _ _)
  exact ⟨sound', ⟨grown.trans grown'.graph, grown'.names⟩, post⟩

section

variable {walk : Walk} [WalkKeeps walk]

abbrev ArgsUsable : Nat → Nat → Arguments → Prop := fun n _ args => ∀ o ∈ args.operands, o.extent ≤ n

theorem lowerArgs_keeps {args : Tree} : Keeps n m (lowerArgs walk args) ArgsUsable := by
  unfold lowerArgs
  split
  · exact .bind splatArray_keeps fun n m array _ _ _ => .pure (by grind [Arguments.operands])
  · exact .bind walkAll_keeps fun n m values _ _ _ => .pure (by grind [Arguments.operands])

theorem callWithLiteral_keeps {site : CallSite} {literal : Tree}
    (receiver : site.receiver.extent ≤ n) (args : ∀ o ∈ site.args, o.extent ≤ n) :
    Keeps n m (callWithLiteral walk site literal want) Usable := by
  refine .check fun block => ?_
  refine .bind registerLiteral_keeps fun n m literal _ _ _ => ?_
  refine .bind newBinding_keeps fun n m procBinding _ _ _ => ?_
  refine .seq (copy_keeps (by grind)) ?_
  refine .bind tempIf_keeps fun n m target _ _ known => ?_
  refine .bind currentBlock_keeps fun n m callBlock _ _ _ => ?_
  refine .bind (emitCall_keeps (by grind)) fun n m value _ _ _ => ?_
  refine .bind currentBlock_keeps fun n m after _ _ _ => ?_
  refine .reserve fun m body _ _ => ?_
  refine .bind .get fun n m _ _ _ _ => ?_
  refine .bind namedBlock_keeps fun n m bodyExit _ _ _ => ?_
  refine .bind namedBlock_keeps fun n m bodyFailure _ _ _ => ?_
  refine .bind namedBlock_keeps fun n m bodyReturn _ _ _ => ?_
  refine .seq (addEdge_keeps (by grind) rfl rfl) ?_
  refine .bind newTemp_keeps fun n m blockResult _ _ _ => ?_
  refine .bind .read fun n m c _ _ fits => ?_
  have inner : { c.targets with
      breakTo := some after, nextTo := some bodyReturn, redoTo := some body,
      rescueTo := bodyFailure, breakValue := target, nextValue := some blockResult }.Fits n m :=
    { breakTo := by grind, nextTo := by grind, redoTo := by grind
      returnTo := fits.targets.returnTo, rescueTo := by grind
      yieldFailTo := fits.targets.yieldFailTo, breakValue := by grind, nextValue := by grind }
  refine .seq (.withTargets inner (Q := Any) ?_) ?_
  · refine .seq (startBlock_keeps (by grind)) <| .seq bindFormals_keeps ?_
    refine .bind walked_keeps fun n m result _ _ _ => ?_
    exact .seq (copy_keeps (by grind)) (jump_keeps (by grind))
  refine .seq (startBlock_keeps (by grind)) ?_
  refine .seq (emit_keeps (.of_slots rfl (by grind [Instr.slots]) (by simp [Instr.target?])) rfl) ?_
  refine .seq (addEdge_keeps (by grind) rfl rfl) <| raiseFrom_keeps (by grind) (by grind) ?_
  refine .seq (startBlock_keeps (by grind)) <| .seq (addEdge_keeps (by grind) rfl rfl) ?_
  refine .seq (addEdge_keeps (by grind) rfl rfl) ?_
  exact .seq raiseEdge_keeps <| .seq (startBlock_keeps (by grind)) <| .pure (by grind)

theorem finishCall_keeps {site : CallSite} {block : Option Tree} (fits : site.Fits n) :
    Keeps n m (finishCall walk site block want) Usable := by
  unfold finishCall
  split
  · exact emitCall_keeps (by grind)
  · split
    · exact callWithLiteral_keeps (by grind) (by grind)
    · refine .check fun _ => ?_
      refine .bind walked_keeps fun n m value _ _ _ => ?_
      exact .bind (convert_keeps (by grind)) fun n m proc _ _ _ => emitCall_keeps (by grind)
    · exact .throw

theorem lowerReceiver_keeps : Keeps n m (lowerReceiver walk t) fun n _ r => r.1.extent ≤ n := by
  unfold lowerReceiver
  split
  · exact .bind .read fun n m c _ _ fits => .pure (by grind [fits.self])
  · exact .bind walked_keeps fun n m value _ _ _ => .pure (by grind)

theorem lowerCall_keeps : Keeps n m (lowerCall walk t want) Usable := by
  refine .check fun method => ?_
  refine .check fun first => ?_
  refine .bind lowerReceiver_keeps fun n m ⟨receiver, implicit⟩ _ _ _ => ?_
  dsimp only
  split
  · exact .bind lowerArgs_keeps fun n m args _ _ _ => finishCall_keeps (by grind)
  · exact .bind (.pure (a := .fixed []) (Q := ArgsUsable) (by grind [Arguments.operands]))
      fun n m args _ _ _ => finishCall_keeps (by grind)

theorem lowerIndex_keeps : Keeps n m (lowerIndex walk t want) Usable := by
  refine .check fun _ => ?_
  refine .bind walked_keeps fun n m receiver _ _ _ => ?_
  refine .check fun _ => ?_
  exact .bind lowerArgs_keeps fun n m args _ _ _ => emitCall_keeps (by grind)

theorem variablesOf_keeps {fs : List Formal} : Keeps n m (variablesOf fs) AllUsable :=
  .mapM (by grind) fun f _ => .bind variableBinding_keeps fun n m v _ _ _ => .pure (by grind)

theorem forwardedArguments_keeps : Keeps n m forwardedArguments ArgsUsable := by
  refine .bind .read fun n m c _ _ _ => ?_
  extract_lets formals
  split
  · exact .bind variablesOf_keeps fun n m _ _ _ _ => .pure (by grind [Arguments.operands])
  · refine .bind variablesOf_keeps fun n m before _ _ _ => ?_
    refine .bind variableBinding_keeps fun n m middle _ _ _ => ?_
    refine .bind variablesOf_keeps fun n m after _ _ _ => ?_
    refine .bind (arrayOf_keeps (by grind)) fun n m head _ _ _ => ?_
    refine .bind (plainCall_keeps (by grind)) fun n m packed _ _ _ => ?_
    split
    · exact .pure (by grind [Arguments.operands])
    · refine .bind (arrayOf_keeps (by grind)) fun n m tail _ _ _ => ?_
      refine .bind (plainCall_keeps (by grind)) fun n m _ _ _ _ => ?_
      exact .pure (by grind [Arguments.operands])

theorem lowerSuper_keeps : Keeps n m (lowerSuper walk t want) Usable := by
  refine .bind .read fun n m c _ _ _ => ?_
  split
  · rename_i method _
    extract_lets goOn
    have goOn_keeps {n' m' : Nat} {r : Arguments × Option Tree} (hn : n ≤ n')
        (usable : ArgsUsable n' m' r.1) : Keeps n' m' (goOn r) Usable := by
      refine .bind .read fun n m c _ _ fits => ?_
      have passed_usable : ∀ o : Operand,
          (if r.2.isNone then c.block.map .binding else none) = some o → o.extent ≤ n := by
        intro o passed
        simp only [Option.ite_none_right_eq_some, Option.map_eq_some_iff] at passed
        obtain ⟨_, v, is_block, rfl⟩ := passed
        exact fits.block v is_block
      have := fits.self
      exact finishCall_keeps (by grind)
    split
    · exact .bind forwardedArguments_keeps fun n m args hn _ usable =>
        goOn_keeps (r := (args, t.child? 0)) hn usable
    · refine .check fun _ => ?_
      exact .bind lowerArgs_keeps fun n m args _ _ usable =>
        goOn_keeps (r := (args, t.child? 1)) (by omega) usable
  · exact .throw

theorem failYield_keeps : Keeps n m failYield Any := by
  refine .bind (plainCall_keeps (by grind)) fun n m error _ _ _ => ?_
  refine .bind .read fun n m c _ _ fits => ?_
  refine .seq (copy_keeps ⟨fits.exception, by grind⟩) ?_
  exact .bind .read fun n m c _ _ fits => jumpWith_keeps fits.targets.yieldFailTo rfl

theorem lowerYield_keeps : Keeps n m (lowerYield walk t want) Usable := by
  refine .check fun _ => ?_
  refine .bind lowerArgs_keeps fun n m args _ _ _ => ?_
  refine .bind .read fun n m c _ _ fits => ?_
  split
  · exact .seq failYield_keeps <| .seq startUnreachable_keeps <| .pure (by grind)
  · rename_i block is_block
    have := fits.block block is_block
    refine .reserve fun m withBlock _ _ => ?_
    refine .reserve fun m withoutBlock _ _ => ?_
    refine .reserve fun m after _ _ => ?_
    refine .seq (branch_keeps (by grind)) <| .seq (startBlock_keeps (by grind)) ?_
    refine .seq failYield_keeps ?_
    refine .seq (startBlock_keeps (by grind)) ?_
    refine .bind (emitCall_keeps (by grind)) fun n m value _ _ _ => ?_
    exact .seq (jump_keeps (by grind)) <| .seq (startBlock_keeps (by grind)) <| .pure (by grind)

theorem lowerLambda_keeps : Keeps n m (lowerLambda t) Usable := by
  refine .check fun block => ?_
  exact .bind registerLiteral_keeps fun n m literal _ _ _ => .pure (by grind)

theorem lowerDefinition_keeps : Keeps n m (lowerDefinition t want) Usable := by
  refine .check fun block => ?_
  split
  · refine .bind registerLiteral_keeps fun n m literal _ _ _ => ?_
    exact .bind .read fun n m c _ _ _ => emitCall_keeps (by grind)
  · exact .throw

/-! Literals and constants. -/

theorem stringPart_keeps : Keeps n m (stringPart walk t) Usable := by
  refine .bind walked_keeps fun n m value _ _ _ => ?_
  split
  · exact .pure (by grind)
  · exact raisingCall_keeps (by grind)

theorem lowerStringBuild_keeps : Keeps n m (lowerStringBuild walk t) Usable :=
  .foldlM (by grind) (by grind) fun n m joined _ _ _ part _ =>
    .bind stringPart_keeps fun n m value _ _ _ => plainCall_keeps (by grind)

theorem lowerArray_keeps : Keeps n m (lowerArray walk t) Usable := by
  unfold lowerArray
  split
  · exact splatArray_keeps
  · exact .bind walkAll_keeps fun n m values _ _ _ => arrayOf_keeps (by grind)

theorem storePair_keeps {hash : Operand} (usable : hash.extent ≤ n) :
    Keeps n m (storePair walk hash t) Any := by
  unfold storePair
  split
  · exact .throw
  · refine .check fun _ => ?_
    refine .bind walked_keeps fun n m key _ _ _ => ?_
    refine .check fun _ => ?_
    refine .bind walked_keeps fun n m value _ _ _ => ?_
    exact .seq (emitCall_keeps (by grind)) <| .pure fun _ _ _ _ => trivial

theorem lowerHash_keeps : Keeps n m (lowerHash walk t) Usable := by
  refine .bind (plainCall_keeps (by grind)) fun n m hash _ _ usable => ?_
  exact .seq (.forM fun pair _ => storePair_keeps usable) <| .pure (by grind)

theorem lowerRange_keeps {exclusive : Bool} : Keeps n m (lowerRange walk t exclusive) Usable := by
  refine .check fun _ => ?_
  refine .bind walked_keeps fun n m first _ _ _ => ?_
  refine .check fun _ => ?_
  refine .bind walked_keeps fun n m last _ _ _ => ?_
  split
  · exact .pure (by grind)
  · exact raisingCall_keeps (by grind)

theorem constantScope_keeps : Keeps n m (constantScope walk t) Usable := by
  unfold constantScope
  split
  · exact .check fun _ => walked_keeps
  · exact .pure (by grind)
  · exact .bind .read fun n m c _ _ _ => .pure (by grind)

theorem getConstant_keeps {scope : Operand} (usable : scope.extent ≤ n) :
    Keeps n m (getConstant scope name) Usable :=
  raisingCall_keeps (by grind)

theorem lowerConstant_keeps : Keeps n m (lowerConstant walk t) Usable := by
  refine .bind constantScope_keeps fun n m scope _ _ _ => ?_
  exact .check fun name => getConstant_keeps (by grind)

theorem getInstanceVariable_keeps : Keeps n m (getInstanceVariable name) Usable := by
  refine .bind .read fun n m c _ _ fits => ?_
  have := fits.self
  exact emitCall_keeps (by grind)

theorem getGlobal_keeps : Keeps n m (getGlobal name) Usable :=
  .bind (newParam_keeps (by simp [Param.operands])) fun n m v _ _ _ => .pure (by grind)

end

end ScriptFlow.Lowering
