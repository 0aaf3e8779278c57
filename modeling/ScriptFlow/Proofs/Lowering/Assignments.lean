import ScriptFlow.Proofs.Lowering.Expressions

/-! Lowering assignments keeps the state sound. -/

namespace ScriptFlow.Lowering

variable {place : Place} {t : Tree} {value array : Operand} {targets : List Tree} {want : Bool}
variable {n m : Nat}

/-- The bindings and operands of an evaluated target make sense. -/
@[grind] def Place.Fits (n : Nat) : Place → Prop
  | .variable b => b < n
  | .instanceVariable _ | .global _ => True
  | .constant scope _ => scope.extent ≤ n
  | .attribute receiver _ _ => receiver.extent ≤ n
  | .item receiver args => receiver.extent ≤ n ∧ ∀ o ∈ args.operands, o.extent ≤ n

theorem Place.Fits.mono {n n' : Nat} (fits : place.Fits n) (hn : n ≤ n') : place.Fits n' := by
  cases place <;> grind

section

variable {walk : Walk} [WalkKeeps walk]

theorem evalPlace_keeps : Keeps n m (evalPlace walk t) fun n _ place => place.Fits n := by
  have constant {n m : Nat} : Keeps n m (do
      let scope ← constantScope walk t
      return Place.constant scope (← t.name)) fun n _ place => place.Fits n := by
    refine .bind constantScope_keeps fun n m scope _ _ _ => ?_
    exact .check fun name => .pure (by grind)
  unfold evalPlace
  split
  · refine .check fun name => ?_
    exact .bind variableBinding_keeps fun n m v _ _ _ => .pure (by grind)
  · exact .check fun name => .pure (by grind)
  · exact .check fun name => .pure (by grind)
  · exact constant
  · exact constant
  · exact constant
  · refine .check fun _ => ?_
    refine .bind lowerReceiver_keeps fun n m receiver _ _ _ => ?_
    exact .check fun name => .pure (by grind)
  · refine .check fun _ => ?_
    refine .bind walked_keeps fun n m receiver _ _ _ => ?_
    refine .check fun _ => ?_
    exact .bind lowerArgs_keeps fun n m args _ _ _ => .pure (by grind)
  · exact .throw

theorem readPlace_keeps (fits : place.Fits n) : Keeps n m (readPlace place) Usable := by
  match place, fits with
  | .variable b, _ => exact .pure (by grind)
  | .instanceVariable name, _ => exact getInstanceVariable_keeps
  | .global name, _ => exact getGlobal_keeps
  | .constant scope name, _ => exact getConstant_keeps (by grind)
  | .attribute receiver name implicit, _ => exact raisingCall_keeps (by grind)
  | .item receiver args, _ =>
    unfold readPlace
    exact emitCall_keeps (by grind)

theorem appendArgument_keeps {args : Arguments} (usable : value.extent ≤ n)
    (args_usable : ∀ o ∈ args.operands, o.extent ≤ n) :
    Keeps n m (appendArgument value args) ArgsUsable := by
  cases args with
  | fixed vs => exact .pure (by grind [Arguments.operands])
  | packed array =>
    have : array.extent ≤ n := args_usable array (by simp [Arguments.operands])
    refine .bind (arrayOf_keeps (by grind)) fun n m tail _ _ _ => ?_
    refine .bind (plainCall_keeps (by grind)) fun n m packed _ _ _ => ?_
    exact .pure (by grind [Arguments.operands])

theorem writePlace_keeps (fits : place.Fits n)
    (usable : value.extent ≤ n) : Keeps n m (writePlace place value) Any := by
  have done {n m : Nat} : Keeps n m (pure ()) Any := .pure fun _ _ _ _ => trivial
  match place, fits with
  | .variable b, _ => exact copy_keeps (by grind)
  | .instanceVariable name, _ =>
    refine .bind .read fun n m c _ _ fits => ?_
    have := fits.self
    exact .seq (emitCall_keeps (by grind)) done
  | .global name, _ =>
    exact emit_keeps (.of_slots rfl (by grind [Instr.slots]) (by simp [Instr.target?])) rfl
  | .constant scope name, _ => exact .seq (emitCall_keeps (by grind)) done
  | .attribute receiver name implicit, _ => exact .seq (raisingCall_keeps (by grind)) done
  | .item receiver args, fits =>
    refine .bind (appendArgument_keeps usable fits.2) fun n m args' _ _ _ => ?_
    exact .seq (emitCall_keeps (by grind)) done

/-! Taking arrays apart. -/

theorem itemAt_keeps {index : Operand} (usable : array.extent ≤ n ∧ index.extent ≤ n) :
    Keeps n m (itemAt array index) Usable :=
  plainCall_keeps (by grind)

theorem splatMiddle_keeps {before after : Nat} (usable : array.extent ≤ n) :
    Keeps n m (splatMiddle array before after) fun n _ r => r.1.extent ≤ n ∧ r.2.extent ≤ n := by
  refine .bind (plainCall_keeps (by grind)) fun n m size _ _ _ => ?_
  refine .bind (plainCall_keeps (by grind)) fun n m splatSize _ _ _ => ?_
  refine .bind (plainCall_keeps (by grind)) fun n m hasItems _ _ _ => ?_
  refine .bind newTemp_keeps fun n m middle _ _ _ => ?_
  refine .bind newTemp_keeps fun n m start _ _ _ => ?_
  refine .reserve fun m some_ _ _ => ?_
  refine .reserve fun m none_ _ _ => ?_
  refine .reserve fun m join _ _ => ?_
  refine .seq (branch_keeps (by grind)) <| .seq (startBlock_keeps (by grind)) ?_
  refine .bind (plainCall_keeps (by grind)) fun n m items _ _ _ => .seq (copy_keeps (by grind)) ?_
  refine .bind (plainCall_keeps (by grind)) fun n m first _ _ _ => .seq (copy_keeps (by grind)) ?_
  refine .seq (jump_keeps (by grind)) <| .seq (startBlock_keeps (by grind)) ?_
  refine .seq (copy_keeps (by grind)) <| .seq (copy_keeps (by grind)) ?_
  exact .seq (jump_keeps (by grind)) <| .seq (startBlock_keeps (by grind)) <| .pure (by grind)

theorem checkTargets_keeps
    (usable : array.extent ≤ n) : Keeps n m (checkTargets targets array) Any := by
  refine .check fun _ => ?_
  unfold expectSize
  split
  · exact emit_keeps (.of_slots rfl (by grind [Instr.slots]) (by simp [Instr.target?])) rfl
  · exact emit_keeps (.of_slots rfl (by grind [Instr.slots]) (by simp [Instr.target?])) rfl

end

mutual

theorem assignTo_keeps {walk : Walk} [WalkKeeps walk] : ∀ (t : Tree) {n m : Nat} {value : Operand},
    value.extent ≤ n → Keeps n m (assignTo walk t value) Any
  | .node kind targets payload, n, m, value, usable => by
    unfold assignTo
    split
    · rename_i same
      cases same
      refine .bind (toArray_keeps (by grind)) fun n m array _ _ usable => ?_
      exact .seq (checkTargets_keeps (by grind)) <| assignLeading_keeps targets usable
    · refine .bind evalPlace_keeps fun n m place _ _ _ => ?_
      exact writePlace_keeps (by grind) (by grind)
termination_by structural t => t

theorem assignLeading_keeps {walk : Walk} [WalkKeeps walk] :
    ∀ (targets : List Tree) {n m : Nat} {array : Operand} {i : Nat},
    array.extent ≤ n → Keeps n m (assignLeading walk array i targets) Any
  | [], _, _, _, _, _ => .pure fun _ _ _ _ => trivial
  | .node kind inner payload :: targets, n, m, array, i, usable => by
    unfold assignLeading
    split
    · contradiction
    · rename_i same
      cases same
      refine .bind (splatMiddle_keeps usable) fun n m r _ _ both => ?_
      exact .seq (assignFirst_keeps inner both.1) <|
        assignTrailing_keeps targets (by grind) both.2
    · rename_i same
      cases same
      refine .bind (itemAt_keeps (by grind)) fun n m item _ _ item_usable => ?_
      exact .seq (assignTo_keeps (.node kind inner payload) item_usable) <|
        assignLeading_keeps targets (by grind)
termination_by structural targets => targets

theorem assignFirst_keeps {walk : Walk} [WalkKeeps walk] :
    ∀ (targets : List Tree) {n m : Nat} {value : Operand},
    value.extent ≤ n → Keeps n m (assignFirst walk targets value) Any
  | [], _, _, _, _ => .pure fun _ _ _ _ => trivial
  | target :: _, _, _, _, usable => assignTo_keeps target usable
termination_by structural targets => targets

theorem assignTrailing_keeps {walk : Walk} [WalkKeeps walk] :
    ∀ (targets : List Tree) {n m : Nat} {array start : Operand} {j : Nat},
    array.extent ≤ n → start.extent ≤ n →
      Keeps n m (assignTrailing walk array start j targets) Any
  | [], _, _, _, _, _, _, _ => .pure fun _ _ _ _ => trivial
  | target :: targets, n, m, array, start, j, usable, start_usable => by
    refine .bind (plainCall_keeps (by grind)) fun n m index _ _ _ => ?_
    refine .bind (itemAt_keeps (by grind)) fun n m item _ _ item_usable => ?_
    exact .seq (assignTo_keeps target item_usable) <|
      assignTrailing_keeps targets (by grind) (by grind)
termination_by structural targets => targets

end

section

variable {walk : Walk} [WalkKeeps walk]

theorem destructure_keeps
    (usable : array.extent ≤ n) : Keeps n m (destructure walk targets array) Any :=
  .seq (checkTargets_keeps (by grind)) <| assignLeading_keeps targets usable

/-! Assignments. -/

theorem lowerAssign_keeps : Keeps n m (lowerAssign walk t) Usable := by
  refine .check fun _ => ?_
  refine .bind evalPlace_keeps fun n m place _ _ fits => ?_
  refine .check fun right => ?_
  extract_lets finish
  have finish_keeps {n' m' : Nat} {value : Operand} (hn : n ≤ n') (usable : value.extent ≤ n') :
      Keeps n' m' (finish value) Usable :=
    .seq (writePlace_keeps (fits.mono (by omega)) (by grind)) <| .pure (by grind)
  split
  · exact .bind splatArray_keeps fun n m value hn _ usable => finish_keeps hn usable
  · exact .bind walked_keeps fun n m value hn _ usable => finish_keeps hn usable

theorem assignUnless_keeps {isOr : Bool} {current : Operand} {right : Tree} (fits : place.Fits n)
    (usable : current.extent ≤ n) :
    Keeps n m (assignUnless walk isOr place current right want) Usable := by
  refine .bind tempIf_keeps fun n m result hn _ _ => ?_
  refine .seq (copyIf_keeps (by grind)) ?_
  refine .reserve fun m assignBlock _ _ => ?_
  refine .reserve fun m join _ _ => ?_
  extract_lets finish
  have finish_keeps : Keeps n m (finish ()) Usable := by
    refine .seq (startBlock_keeps (by grind)) ?_
    refine .bind walked_keeps fun n m value _ _ _ => ?_
    refine .seq (writePlace_keeps (fits.mono (by omega)) (by grind)) ?_
    refine .seq (copyIf_keeps (by grind)) ?_
    exact .seq (jump_keeps (by grind)) <| .seq (startBlock_keeps (by grind)) <| .pure fun n _ _ _ =>
      extent_valueOf (by grind)
  split
  · exact .seq (branch_keeps (by grind)) finish_keeps
  · exact .seq (branch_keeps (by grind)) finish_keeps

theorem lowerOpAssign_keeps : Keeps n m (lowerOpAssign walk t want) Usable := by
  refine .check fun op => ?_
  refine .check fun _ => ?_
  refine .bind evalPlace_keeps fun n m place _ _ fits => ?_
  refine .bind (readPlace_keeps (by grind)) fun n m current hn _ usable => ?_
  refine .check fun right => ?_
  have fits := fits.mono hn
  split
  · exact assignUnless_keeps fits (by grind)
  · refine .bind walked_keeps fun n m value _ _ _ => ?_
    refine .bind (raisingCall_keeps (by grind)) fun n m combined _ _ _ => ?_
    exact .seq (writePlace_keeps (fits.mono (by omega)) (by grind)) <| .pure (by grind)

theorem snapshot_keeps (usable : value.extent ≤ n) : Keeps n m (snapshot value) Usable := by
  cases value with
  | binding b =>
    refine .bind .get fun n m s _ _ _ => ?_
    split
    · exact .bind newTemp_keeps fun n m t _ _ _ => .seq (copy_keeps (by grind)) <| .pure (by grind)
    · exact .pure (by grind)
  | const v => exact .pure (by grind)

theorem report_keeps {kind : FindingKind} {message : String} :
    Keeps n m (report kind message) Any := by
  refine .bind currentBlock_keeps fun n m b _ _ _ => .update fun s sound _ _ => ?_
  exact ⟨⟨sound.graph.congr rfl rfl rfl, sound.present, sound.current, sound.names⟩,
    .of_graph (.of_same rfl rfl (Nat.le_refl _) rfl)⟩

theorem walkSnapshots_keeps {ts : List Tree} : Keeps n m (walkSnapshots walk ts) AllUsable :=
  .mapM (by grind) fun t _ => .bind walked_keeps fun n m value _ _ _ => snapshot_keeps (by grind)

theorem assignedValues_keeps {values : List Operand} (usable : ∀ o ∈ values, o.extent ≤ n) :
    Keeps n m (assignedValues values want) Usable := by
  unfold assignedValues
  split
  · exact arrayOf_keeps (by grind)
  · exact .pure (by grind)

/-- An evaluated target that makes sense, or one that is evaluated later. -/
abbrev TargetFits : Nat → Nat → Tree × Option Place → Prop :=
  fun n _ target => ∀ place, target.2 = some place → place.Fits n

theorem evalTarget_keeps : Keeps n m (evalTarget walk t) TargetFits := by
  unfold evalTarget
  split
  · exact .pure (by grind)
  · refine .bind evalPlace_keeps fun n m place _ _ fits => .pure fun n' _ hn _ => ?_
    intro _ same
    cases same
    exact fits.mono hn

theorem writeTarget_keeps {target : Tree × Option Place} (fits : TargetFits n m target)
    (usable : value.extent ≤ n) : Keeps n m (writeTarget walk target value) Any := by
  unfold writeTarget
  split
  · exact writePlace_keeps (fits _ rfl) usable
  · exact assignTo_keeps _ usable

theorem writeTargets_keeps {targets : List (Tree × Option Place)} {values : List Operand}
    (fit : ∀ t ∈ targets, TargetFits n m t) (usable : ∀ o ∈ values, o.extent ≤ n) :
    Keeps n m (writeTargets walk targets values) Any := by
  induction targets generalizing values with
  | nil => exact .pure fun _ _ _ _ => trivial
  | cons t ts ih =>
    have fit_rest : ∀ t ∈ ts, TargetFits n m t := fun t mem => fit t (by simp [mem])
    cases values with
    | nil =>
      refine .seq (writeTarget_keeps (fit t (by simp)) (by grind)) ?_
      exact ih fit_rest (by simp)
    | cons v vs =>
      refine .seq (writeTarget_keeps (fit t (by simp)) (usable v (by simp))) ?_
      exact ih fit_rest fun o mem => usable o (by simp [mem])

theorem assignPairwise_keeps {values : List Tree} :
    Keeps n m (assignPairwise walk targets values want) Usable := by
  have mono (n n' m m' : Nat) (t : Tree × Option Place) (hn : n ≤ n') (_ : m ≤ m')
      (fits : TargetFits n m t) : TargetFits n' m' t := fun place same => (fits place same).mono hn
  refine .bind (.mapM mono fun t _ => evalTarget_keeps) fun n m places _ _ fit => ?_
  refine .bind walkSnapshots_keeps fun n' m' operands hn hm usable => ?_
  have finish : Keeps n' m' (do
      writeTargets walk places operands
      assignedValues operands want) Usable :=
    .seq (writeTargets_keeps (fun t mem => mono _ _ _ _ t hn hm (fit t mem)) usable)
      (assignedValues_keeps (by grind))
  dsimp only
  split
  · exact .seq report_keeps finish
  · split
    · exact .seq report_keeps finish
    · exact finish

theorem assignEach_keeps {values : List Operand} (usable : ∀ o ∈ values, o.extent ≤ n) :
    Keeps n m (assignEach walk targets values) Any := by
  induction targets generalizing values with
  | nil => exact .pure fun _ _ _ _ => trivial
  | cons t ts ih =>
    refine .seq (assignTo_keeps t ?_) <| ih fun o mem => usable o (List.mem_of_mem_tail mem)
    cases values with
    | nil => exact Nat.zero_le _
    | cons v vs => exact usable v (by simp)

theorem assignAround_keeps {star : Nat} {values : List Tree} :
    Keeps n m (assignAround walk targets star values want) Usable := by
  refine .bind walkSnapshots_keeps fun n m operands _ _ usable => ?_
  extract_lets fixed count middle last rest
  have last_keeps : Keeps n m (last ()) Usable :=
    .seq (assignEach_keeps fun o mem => usable o (List.mem_of_mem_drop mem))
      (assignedValues_keeps usable)
  have rest_keeps : Keeps n m (rest ()) Usable := by
    refine .seq (assignEach_keeps usable) ?_
    split
    · refine .bind (arrayOf_keeps fun o mem => ?_) fun n' m' array hn hm array_usable => ?_
      · exact usable o (List.mem_of_mem_drop (List.mem_of_mem_take mem))
      · exact .seq (assignTo_keeps _ array_usable) (last_keeps.mono hn hm)
    · exact last_keeps
  split
  · exact .seq report_keeps rest_keeps
  · exact rest_keeps

theorem lowerMultipleAssign_keeps : Keeps n m (lowerMultipleAssign walk t want) Usable := by
  refine .check fun left => ?_
  split
  · exact .throw
  · refine .check fun right => ?_
    refine .check fun star => ?_
    split
    · split
      · refine .bind splatArray_keeps fun n m array _ _ _ => ?_
        exact .seq (destructure_keeps (by grind)) <| .pure (by grind)
      · split
        · exact assignPairwise_keeps
        · exact assignAround_keeps
    · refine .bind walked_keeps fun n m value _ _ _ => ?_
      refine .bind (snapshot_keeps (by grind)) fun n m value _ _ _ => ?_
      refine .bind (toArray_keeps (by grind)) fun n m array _ _ _ => ?_
      exact .seq (destructure_keeps (by grind)) <| .pure (by grind)

end

end ScriptFlow.Lowering
