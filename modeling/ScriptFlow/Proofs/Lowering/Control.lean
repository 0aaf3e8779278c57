import ScriptFlow.Proofs.Lowering.Assignments

/-! Lowering conditionals, loops, jumps and handlers keeps the state sound. -/

namespace ScriptFlow.Lowering

variable {result : Option BindingId} {want : Bool} {t : Tree} {subject : Option Operand}
  {matched : Nat}
variable {n m : Nat}

/-- What a construct gives as its value when it is asked for one. -/
theorem valueOf_keeps (known : ∀ v : Nat, result = some v → v < n) :
    Keeps n m (pure (valueOf result)) Usable :=
  .pure fun _ _ hn _ => Nat.le_trans (extent_valueOf known) hn

section

variable {walk : Walk} [WalkKeeps walk]

theorem lowerSequence_keeps {ts : List Tree} : Keeps n m (lowerSequence walk ts want) Usable := by
  fun_induction lowerSequence walk ts want with
  | case1 => exact .pure (by grind)
  | case2 want t => exact walked_keeps
  | case3 want t ts _ ih => exact .seq walked_keeps ih

theorem lowerOptional_keeps {t : Option Tree} : Keeps n m (lowerOptional walk t want) Usable := by
  unfold lowerOptional
  split
  · exact walked_keeps
  · exact .pure (by grind)

theorem lowerIf_keeps {negated : Bool} : Keeps n m (lowerIf walk t negated want) Usable := by
  refine .check fun _ => ?_
  refine .bind walked_keeps fun n m condition _ _ _ => ?_
  refine .bind tempIf_keeps fun n m result _ _ known => ?_
  refine .reserve fun m thenBlock _ _ => ?_
  refine .reserve fun m elseBlock _ _ => ?_
  refine .reserve fun m join _ _ => ?_
  extract_lets finish
  have finish_keeps : Keeps n m (finish ()) Usable := by
    refine .seq (startBlock_keeps (by grind)) ?_
    refine .check fun _ => ?_
    refine .bind walked_keeps fun n m value _ _ _ => ?_
    refine .seq (copyIf_keeps (by grind)) <| .seq (jump_keeps (by grind)) ?_
    refine .seq (startBlock_keeps (by grind)) ?_
    refine .bind lowerOptional_keeps fun n m value _ _ _ => ?_
    refine .seq (copyIf_keeps (by grind)) <| .seq (jump_keeps (by grind)) ?_
    exact .seq (startBlock_keeps (by grind)) (valueOf_keeps (by grind))
  split
  · exact .seq (branch_keeps (by grind)) finish_keeps
  · exact .seq (branch_keeps (by grind)) finish_keeps

theorem lowerLoop_keeps {isUntil : Bool} : Keeps n m (lowerLoop walk t isUntil want) Usable := by
  refine .bind tempIf_keeps fun n m result _ _ known => .seq (copyIf_keeps (by grind)) ?_
  refine .reserve fun m head _ _ => ?_
  refine .reserve fun m body _ _ => ?_
  refine .reserve fun m after _ _ => ?_
  refine .seq (jump_keeps (by grind)) <| .seq (startBlock_keeps (by grind)) ?_
  refine .check fun _ => ?_
  refine .bind walked_keeps fun n m condition _ _ _ => ?_
  extract_lets finish
  have finish_keeps : Keeps n m (finish ()) Usable := by
    refine .bind .read fun n m c _ _ fits => ?_
    have inner : { c.targets with
        breakTo := some after, nextTo := some head, redoTo := some body,
        breakValue := result, nextValue := none }.Fits n m :=
      { breakTo := by grind, nextTo := by grind, redoTo := by grind
        returnTo := fits.targets.returnTo, rescueTo := fits.targets.rescueTo
        yieldFailTo := fits.targets.yieldFailTo, breakValue := by grind, nextValue := by grind }
    refine .seq (.withTargets inner (Q := Any) ?_) ?_
    · refine .seq (startBlock_keeps (by grind)) ?_
      refine .check fun _ => ?_
      exact .bind walked_keeps fun n m _ _ _ _ => jump_keeps (by grind)
    · exact .seq (startBlock_keeps (by grind)) (valueOf_keeps (by grind))
  split
  · exact .seq (branch_keeps (by grind)) finish_keeps
  · exact .seq (branch_keeps (by grind)) finish_keeps

/-! `case`. -/

theorem caseTest_keeps {pattern : Operand}
    (usable : (∀ o, subject = some o → o.extent ≤ n) ∧ pattern.extent ≤ n) :
    Keeps n m (caseTest subject pattern) Usable := by
  unfold caseTest
  split
  · exact raisingCall_keeps (by grind)
  · exact .pure (by grind)

theorem testEach_keeps {list : Operand}
    (fits : (∀ o, subject = some o → o.extent ≤ n) ∧ list.extent ≤ n ∧ Landing m matched) :
    Keeps n m (testEach list subject matched) Any := by
  refine .bind (plainCall_keeps (by grind)) fun n m size _ _ _ => ?_
  refine .bind newTemp_keeps fun n m index _ _ _ => .seq (copy_keeps (by grind)) ?_
  refine .reserve fun m head _ _ => ?_
  refine .reserve fun m testBlock _ _ => ?_
  refine .reserve fun m advance _ _ => ?_
  refine .reserve fun m exhausted _ _ => ?_
  refine .seq (jump_keeps (by grind)) <| .seq (startBlock_keeps (by grind)) ?_
  refine .bind (plainCall_keeps (by grind)) fun n m inRange _ _ _ => ?_
  refine .seq (branch_keeps (by grind)) <| .seq (startBlock_keeps (by grind)) ?_
  refine .bind (plainCall_keeps (by grind)) fun n m item _ _ _ => ?_
  refine .bind (caseTest_keeps (by grind)) fun n m test _ _ _ => ?_
  refine .seq (branch_keeps (by grind)) <| .seq (startBlock_keeps (by grind)) ?_
  refine .bind (plainCall_keeps (by grind)) fun n m next _ _ _ => ?_
  exact .seq (copy_keeps (by grind)) <| .seq (jump_keeps (by grind)) (startBlock_keeps (by grind))

theorem lowerPattern_keeps (subject_usable : ∀ o, subject = some o → o.extent ≤ n)
    (landing : Landing m matched) : Keeps n m (lowerPattern walk subject matched t) Any := by
  unfold lowerPattern
  split
  · refine .check fun _ => ?_
    refine .bind walked_keeps fun n m value _ _ _ => ?_
    exact .bind (toArray_keeps (by grind)) fun n m list _ _ _ => testEach_keeps (by grind)
  · refine .bind walked_keeps fun n m value _ _ _ => ?_
    refine .bind (caseTest_keeps (by grind)) fun n m test _ _ _ => ?_
    refine .reserve fun m next _ _ => ?_
    exact .seq (branch_keeps (by grind)) (startBlock_keeps (by grind))

theorem lowerWhen_keeps {join : Nat} (subject_usable : ∀ o, subject = some o → o.extent ≤ n)
    (known : ∀ v : Nat, result = some v → v < n) (landing : Landing m join) :
    Keeps n m (lowerWhen walk subject result join want t) Any := by
  refine .reserve fun m matched _ _ => ?_
  refine .check fun patterns => ?_
  refine .seq (.forM fun t _ => lowerPattern_keeps (by grind) (by grind)) ?_
  refine .bind currentBlock_keeps fun n m fallthrough _ _ _ => .seq (startBlock_keeps (by grind)) ?_
  refine .check fun _ => ?_
  refine .bind walked_keeps fun n m value _ _ _ => ?_
  exact .seq (copyIf_keeps (by grind)) <| .seq (jump_keeps (by grind)) (startBlock_keeps (by grind))

theorem lowerClauses_keeps {clause : Tree → Lower Unit} {otherwise : Option Tree} {ts : List Tree}
    (clauses : ∀ t, Keeps n m (clause t) Any) :
    Keeps n m (lowerClauses clause otherwise ts) Any := by
  fun_induction lowerClauses clause otherwise ts with
  | case1 => exact .pure fun _ _ _ _ => trivial
  | case2 t ts _ ih => exact .seq (clauses t) ih
  | case3 t ts _ ih => exact ih
  | case4 => exact .throw
  | case5 => exact .throw

theorem lowerCase_keeps : Keeps n m (lowerCase walk t want) Usable := by
  refine .check fun first => ?_
  extract_lets finish
  have finish_keeps {n' m' : Nat} (subject : Option Operand) (hn : n ≤ n')
      (usable : ∀ o, subject = some o → o.extent ≤ n') : Keeps n' m' (finish subject) Usable := by
    refine .bind tempIf_keeps fun n m result _ _ _ => ?_
    refine .reserve fun m join _ _ => ?_
    refine .bind (lowerClauses_keeps fun t => lowerWhen_keeps (by grind) (by grind) (by grind))
      fun n m otherwise _ _ _ => ?_
    refine .bind lowerOptional_keeps fun n m value _ _ _ => ?_
    refine .seq (copyIf_keeps (by grind)) <| .seq (jump_keeps (by grind)) ?_
    exact .seq (startBlock_keeps (by grind)) (valueOf_keeps (by grind))
  split
  · exact finish_keeps none (Nat.le_refl _) (by grind)
  · refine .bind (.map walked_keeps (R := fun n _ s => ∀ o, s = some o → o.extent ≤ n)
      fun n m value _ _ _ => by grind) fun n m subject hn _ usable => finish_keeps subject hn usable

/-! Boolean operators. -/

theorem lowerShortCircuit_keeps {isAnd : Bool} :
    Keeps n m (lowerShortCircuit walk t isAnd want) Usable := by
  refine .check fun _ => ?_
  refine .bind walked_keeps fun n m left _ _ _ => ?_
  refine .bind tempIf_keeps fun n m result _ _ known => .seq (copyIf_keeps (by grind)) ?_
  refine .reserve fun m rightBlock _ _ => ?_
  refine .reserve fun m join _ _ => ?_
  extract_lets finish
  have finish_keeps : Keeps n m (finish ()) Usable := by
    refine .seq (startBlock_keeps (by grind)) ?_
    refine .check fun _ => ?_
    refine .bind walked_keeps fun n m value _ _ _ => ?_
    refine .seq (copyIf_keeps (by grind)) <| .seq (jump_keeps (by grind)) ?_
    exact .seq (startBlock_keeps (by grind)) (valueOf_keeps (by grind))
  split
  · exact .seq (branch_keeps (by grind)) finish_keeps
  · exact .seq (branch_keeps (by grind)) finish_keeps

theorem lowerNot_keeps : Keeps n m (lowerNot walk t want) Usable := by
  refine .check fun _ => ?_
  exact .bind walked_keeps fun n m value _ _ _ => raisingCall_keeps (by grind)

/-! `defined?`. -/

theorem describeIf_keeps {test : Operand} {description : String}
    (usable : test.extent ≤ n) : Keeps n m (describeIf test description) Usable := by
  refine .bind newTemp_keeps fun n m result _ _ _ => ?_
  refine .reserve fun m yes _ _ => ?_
  refine .reserve fun m no _ _ => ?_
  refine .reserve fun m join _ _ => ?_
  refine .seq (branch_keeps (by grind)) <| .seq (startBlock_keeps (by grind)) ?_
  refine .seq (copy_keeps (by grind)) <| .seq (jump_keeps (by grind)) ?_
  refine .seq (startBlock_keeps (by grind)) ?_
  refine .seq (copy_keeps (by grind)) <| .seq (jump_keeps (by grind)) ?_
  exact .seq (startBlock_keeps (by grind)) <| .pure (by grind)

theorem describeConstant_keeps {expr : Tree} : Keeps n m (do
    let scope ← constantScope walk expr
    let test ← plainCall scope "const_defined?" [symConst (← expr.name)]
    describeIf test "constant") Usable := by
  refine .bind constantScope_keeps fun n m scope _ _ _ => ?_
  refine .check fun name => ?_
  exact .bind (plainCall_keeps (by grind)) fun n m test _ _ _ => describeIf_keeps (by grind)

theorem lowerDefined_keeps : Keeps n m (lowerDefined walk t) Usable := by
  refine .check fun expr => ?_
  have described {n m : Nat} (s : String) : Keeps n m (pure (.const (.str s))) Usable :=
    .pure (by grind)
  dsimp only
  split <;> try exact described _
  · refine .bind .read fun n m c _ _ fits => ?_
    split
    · rename_i b is_block
      have := fits.block b is_block
      exact describeIf_keeps (by grind)
    · exact .pure (by grind)
  · exact describeConstant_keeps
  · exact describeConstant_keeps
  · exact describeConstant_keeps
  · refine .check fun name => ?_
    refine .bind .read fun n m c _ _ fits => ?_
    have := fits.self
    exact .bind (plainCall_keeps (by grind)) fun n m test _ _ _ => describeIf_keeps (by grind)
  · refine .check fun _ => ?_
    refine .bind lowerReceiver_keeps fun n m receiver _ _ _ => ?_
    refine .check fun name => ?_
    exact .bind (plainCall_keeps (by grind)) fun n m test _ _ _ => describeIf_keeps (by grind)

/-! Jumps. -/

theorem lowerReturn_keeps : Keeps n m (lowerReturn walk t) Usable := by
  refine .bind lowerOptional_keeps fun n m value _ _ _ => ?_
  refine .bind .read fun n m c _ _ fits => ?_
  refine .seq (copy_keeps ⟨fits.result, by grind⟩) ?_
  refine .bind .read fun n m c _ _ fits => ?_
  refine .seq (jump_keeps fits.targets.returnTo) ?_
  exact .seq startUnreachable_keeps <| .pure (by grind)

theorem jumpOut_keeps {target : Option BlockId} {fault : TreeFault}
    {place : Option BindingId} (landing : ∀ b : Nat, target = some b → Landing m b)
    (known : ∀ v : Nat, place = some v → v < n) :
    Keeps n m (jumpOut walk t target fault place) Usable := by
  unfold jumpOut
  split
  · refine .bind lowerOptional_keeps fun n m value _ _ _ => ?_
    refine .seq (copyIf_keeps (by grind)) <| .seq (jump_keeps (by grind)) ?_
    exact .seq startUnreachable_keeps <| .pure (by grind)
  · exact .throw

theorem lowerBreak_keeps : Keeps n m (lowerBreak walk t) Usable :=
  .bind .read fun _ _ _ _ _ fits => jumpOut_keeps fits.targets.breakTo fits.targets.breakValue

theorem lowerNext_keeps : Keeps n m (lowerNext walk t) Usable :=
  .bind .read fun _ _ _ _ _ fits => jumpOut_keeps fits.targets.nextTo fits.targets.nextValue

theorem lowerRedo_keeps : Keeps n m lowerRedo Usable := by
  refine .bind .read fun n m c _ _ fits => ?_
  split
  · rename_i target found
    refine .seq (jump_keeps (fits.targets.redoTo target found)) ?_
    exact .seq startUnreachable_keeps <| .pure (by grind)
  · exact .throw

/-! Handlers. -/

theorem testClass_keeps {cls : Operand}
    (fits : cls.extent ≤ n ∧ Landing m matched) : Keeps n m (testClass cls matched) Any := by
  refine .bind .read fun n m c _ _ fits => ?_
  have := fits.exception
  refine .bind (plainCall_keeps (by grind)) fun n m test _ _ _ => ?_
  refine .reserve fun m next _ _ => ?_
  exact .seq (branch_keeps (by grind)) (startBlock_keeps (by grind))

theorem testHandled_keeps (landing : Landing m matched) :
    Keeps n m (testHandled walk matched t) Any := by
  unfold testHandled
  split
  · refine .check fun _ => ?_
    refine .bind walked_keeps fun n m value _ _ _ => ?_
    refine .bind (toArray_keeps (by grind)) fun n m list _ _ _ => ?_
    refine .bind .read fun n m c _ _ fits => ?_
    have := fits.exception
    exact testEach_keeps (by grind)
  · exact .bind walked_keeps fun n m cls _ _ _ => testClass_keeps (by grind)

theorem lowerHandler_keeps {join : Nat} {h : Handler} (known : ∀ v : Nat, result = some v → v < n)
    (landing : Landing m join) : Keeps n m (lowerHandler walk result join h) Any := by
  refine .reserve fun m matched _ to_matched => ?_
  extract_lets handle
  have handle_keeps : Keeps n m (handle ()) Any := by
    refine .bind currentBlock_keeps fun n m unmatched _ _ _ => .seq (startBlock_keeps (by grind)) ?_
    extract_lets finish
    have finish_keeps : Keeps n m (finish ()) Any := by
      refine .bind walked_keeps fun n m value _ _ _ => ?_
      refine .seq (copyIf_keeps (by grind)) ?_
      exact .seq (jump_keeps (by grind)) (startBlock_keeps (by grind))
    split
    · refine .bind .read fun n m c hn hm fits => ?_
      exact .seq (assignTo_keeps _ fits.exception) (finish_keeps.mono hn hm)
    · exact finish_keeps
  split
  · exact .seq (testClass_keeps (by grind)) handle_keeps
  · exact .seq (.forM fun t _ => testHandled_keeps to_matched) handle_keeps

theorem lowerHandlers_keeps {handlers : List Handler} {join : Nat}
    (known : ∀ v : Nat, result = some v → v < n) (landing : Landing m join) :
    Keeps n m (lowerHandlers walk handlers result join) Any := by
  refine .seq (.forM fun h _ => lowerHandler_keeps known landing) ?_
  exact .bind .read fun n m c _ _ fits => jumpWith_keeps fits.targets.rescueTo rfl

theorem lowerElse_keeps {otherwise : Option Tree} {value : Operand} (usable : value.extent ≤ n) :
    Keeps n m (lowerElse walk otherwise value want) Usable := by
  unfold lowerElse
  split
  · exact walked_keeps
  · exact .pure (by grind)

theorem lowerProtected_keeps {body : Tree} {handlers : List Handler} {otherwise : Option Tree}
    (known : ∀ v : Nat, result = some v → v < n) :
    Keeps n m (lowerProtected walk body handlers otherwise result) Any := by
  unfold lowerProtected
  split
  · refine .bind walked_keeps fun n m value _ _ _ => ?_
    exact .bind (lowerElse_keeps (by grind)) fun n m value _ _ _ => copyIf_keeps (by grind)
  · refine .reserve fun m catcher _ to_catcher => ?_
    refine .reserve fun m join hm _ => ?_
    refine .bind .read fun n m c _ hm' fits => ?_
    have inner : { c.targets with rescueTo := catcher }.Fits n m :=
      { fits.targets with rescueTo := to_catcher.mono (Nat.le_trans hm hm') }
    refine .bind (.withTargets inner walked_keeps) fun n m value _ _ _ => ?_
    refine .bind (lowerElse_keeps (by grind)) fun n m value _ _ _ => ?_
    refine .seq (copyIf_keeps (by grind)) ?_
    refine .seq (jump_keeps (by grind)) <| .seq (startBlock_keeps (by grind)) ?_
    exact .seq (lowerHandlers_keeps (by grind) (by grind)) (startBlock_keeps (by grind))

theorem ensureCopy_keeps {ensure : Tree} {flags : EdgeFlags} {target : Nat}
    (landing : Landing m target) (real : flags.fake = false) :
    Keeps n m (ensureCopy walk ensure flags target) Open := by
  refine .reserve fun m b _ _ => .seq (startBlock_keeps (by grind)) ?_
  refine .bind walked_keeps fun n m _ _ _ _ => ?_
  exact .seq (jumpWith_keeps (by grind) real) <| .pure (by grind)

/-- The result, if there is one, is a block that control may be sent to. -/
abbrev OpenIf : Nat → Nat → Option BlockId → Prop := fun _ m o => ∀ b : Nat, o = some b → Landing m b

theorem ensureCopy?_keeps {ensure : Tree} {target : Option BlockId}
    (landing : ∀ b : Nat, target = some b → Landing m b) :
    Keeps n m (ensureCopy? walk ensure target) OpenIf := by
  cases target with
  | none => exact .pure (by grind)
  | some b => exact .map (ensureCopy_keeps (by grind) rfl) fun n m copy _ _ _ => by grind

theorem throughEnsure_keeps {ensure : Tree} :
    Keeps n m (throughEnsure walk ensure) fun n m t => t.Fits n m := by
  refine .bind .read fun n m c _ _ fits => ?_
  obtain ⟨breakTo, nextTo, redoTo, returnTo, rescueTo, yieldFailTo, breakValue, nextValue⟩ :=
    fits.targets
  refine .bind currentBlock_keeps fun n m resume _ _ _ => ?_
  refine .bind (ensureCopy?_keeps (by grind)) fun n m breakTo _ _ _ => ?_
  refine .bind (ensureCopy?_keeps (by grind)) fun n m nextTo _ _ _ => ?_
  refine .bind (ensureCopy?_keeps (by grind)) fun n m redoTo _ _ _ => ?_
  refine .bind (ensureCopy_keeps (by grind) rfl) fun n m returnTo _ _ _ => ?_
  refine .bind (ensureCopy_keeps (by grind) rfl) fun n m rescueTo _ _ _ => ?_
  refine .bind (ensureCopy_keeps (by grind) rfl) fun n m yieldFailTo _ _ _ => ?_
  exact .seq (startBlock_keeps (by grind)) <| .pure fun n' m' hn hm =>
    ⟨by grind, by grind, by grind, by grind, by grind, by grind, by grind, by grind⟩

theorem lowerBody_keeps : Keeps n m (lowerBody walk t want) Usable := by
  refine .check fun body => ?_
  refine .check fun clauses => ?_
  refine .bind tempIf_keeps fun n m result _ _ known => ?_
  dsimp only
  split
  · exact .seq (lowerProtected_keeps (by grind)) (valueOf_keeps (by grind))
  · refine .bind throughEnsure_keeps fun n m targets _ _ fits => ?_
    refine .seq (.withTargets fits (lowerProtected_keeps (by grind))) ?_
    exact .seq walked_keeps (valueOf_keeps (by grind))

theorem lowerRescueMod_keeps : Keeps n m (lowerRescueMod walk t want) Usable := by
  refine .check fun fallback => ?_
  refine .bind tempIf_keeps fun n m result _ _ known => ?_
  refine .check fun body => ?_
  exact .seq (lowerProtected_keeps (by grind)) (valueOf_keeps (by grind))

/-! Nodes. -/

theorem lowerNode_keeps : Keeps n m (lowerNode walk t want) Usable := by
  unfold lowerNode
  split <;> try exact .throw
  · exact .check fun v => .pure (by grind)
  · exact .pure (by grind)
  · exact .pure (by grind)
  · exact .pure (by grind)
  · exact .pure (by grind)
  · exact .bind .read fun n m c _ _ fits => .pure (by grind [fits.self])
  · refine .check fun name => ?_
    exact .bind variableBinding_keeps fun n m v _ _ _ => .pure (by grind)
  · exact .check fun name => getInstanceVariable_keeps
  · exact .check fun name => getGlobal_keeps
  · exact lowerConstant_keeps
  · exact lowerConstant_keeps
  · exact lowerConstant_keeps
  · exact lowerStringBuild_keeps
  · exact lowerArray_keeps
  · exact lowerHash_keeps
  · exact lowerRange_keeps
  · exact lowerRange_keeps
  · exact lowerAssign_keeps
  · exact lowerOpAssign_keeps
  · exact lowerMultipleAssign_keeps
  · exact lowerCall_keeps
  · exact lowerIndex_keeps
  · exact lowerSuper_keeps
  · exact lowerSuper_keeps
  · exact lowerYield_keeps
  · exact lowerLambda_keeps
  · exact lowerDefinition_keeps
  · exact lowerReturn_keeps
  · exact lowerBreak_keeps
  · exact lowerNext_keeps
  · exact lowerRedo_keeps
  · exact lowerIf_keeps
  · exact lowerIf_keeps
  · exact lowerLoop_keeps
  · exact lowerLoop_keeps
  · exact lowerCase_keeps
  · exact lowerShortCircuit_keeps
  · exact lowerShortCircuit_keeps
  · exact lowerNot_keeps
  · exact lowerDefined_keeps
  · exact lowerSequence_keeps
  · exact lowerBody_keeps
  · exact lowerRescueMod_keeps

end

/-- Lowering keeps the state sound at every depth. -/
instance walk_keeps (limit depth : Nat) : WalkKeeps (walk limit depth) := by
  induction depth with
  | zero => exact ⟨fun n m t want => .throw⟩
  | succ depth ih => exact ⟨fun n m t want => lowerNode_keeps⟩

end ScriptFlow.Lowering
