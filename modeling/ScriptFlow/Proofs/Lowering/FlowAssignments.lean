import ScriptFlow.Proofs.Lowering.FlowCalls

/-! Control flows through assignments. -/

namespace ScriptFlow.Lowering

open Policy

variable {t : Tree} {place : Place} {value : Operand} {targets : List Tree} {want : Bool}

/-- An attribute is named by its target. -/
def Place.Of (t : Tree) : Place → Prop
  | .attribute _ name _ => t.kind = .field ∧ t.payload = .name name
  | _ => True

/-- The method that reads an attribute may be called. -/
def Place.Readable (P : Policy) : Place → Prop
  | .attribute _ name _ => P.calls name
  | _ => True

/-- The method that writes an attribute may be called. -/
def Place.Writable (P : Policy) : Place → Prop
  | .attribute _ name _ => P.calls (name ++ "=")
  | _ => True

variable {P : Policy} [P.Stable] {G : Tree → Prop} {walk : Walk} [admits : Admits P G]
  [Walks P G walk]

omit [P.Stable] in
theorem Place.Of.writable (same : place.Of t) (admitted : G t) : place.Writable P := by
  match place, same with
  | .variable _, _ | .instanceVariable _, _ | .global _, _ | .constant _ _, _ | .item _ _, _ =>
    exact trivial
  | .attribute _ _ _, ⟨kind, payload⟩ => exact Admits.setter admitted kind payload

omit [P.Stable] in
theorem Place.Of.readable {u : Tree} (same : place.Of u) (admitted : G t)
    (kind : t.kind = .opAssign) (first : t.children[0]? = some u) : place.Readable P := by
  match place, same with
  | .variable _, _ | .instanceVariable _, _ | .global _, _ | .constant _ _, _ | .item _ _, _ =>
    exact trivial
  | .attribute _ _ _, ⟨field, payload⟩ => exact Admits.getter admitted kind first field payload

theorem evalPlace_flows (admitted : G t) : Flows P (evalPlace walk t) (Place.Of t) := by
  have constant : Flows P (do
      let scope ← constantScope walk t
      return Place.constant scope (← t.name)) (Place.Of t) :=
    (constantScope_flows admitted).bind fun _ _ => .check fun _ _ => .pure trivial
  unfold evalPlace
  split
  · exact .check fun _ _ => variableBinding_flows.bind fun _ _ => .pure trivial
  · exact .check fun _ _ => .pure trivial
  · exact .check fun _ _ => .pure trivial
  · exact constant
  · exact constant
  · exact constant
  · rename_i kind
    refine .check fun first found => ?_
    have first_admitted := Admits.child admitted (by rw [kind]; decide) (Tree.mem_of_child found)
    refine (lowerReceiver_flows first_admitted).bind fun _ _ => .check fun name named => .pure ?_
    exact ⟨kind, Tree.payload_of_name named⟩
  · rename_i kind
    have child {u : Tree} {i : Nat} (found : t.child i = .ok u) : G u :=
      Admits.child admitted (by rw [kind]; decide) (Tree.mem_of_child found)
    refine .check fun first found => (Walks.flows _ (child found) true).bind fun _ _ => ?_
    refine .check fun args found => ?_
    exact (lowerArgs_flows (child found)).bind fun _ _ => .pure trivial
  · exact .throw

theorem readPlace_flows (readable : place.Readable P) : Flows P (readPlace place) Whatever := by
  match place, readable with
  | .variable b, _ => exact .pure trivial
  | .instanceVariable name, _ => exact getInstanceVariable_flows
  | .global name, _ => exact getGlobal_flows
  | .constant scope name, _ => exact getConstant_flows
  | .attribute receiver name implicit, calls => exact raisingCall_flows calls
  | .item receiver args, _ =>
    unfold readPlace
    exact emitCall_flows (Stable.builtin "[]" (by decide))

theorem appendArgument_flows {args : Arguments} : Flows P (appendArgument value args) Whatever := by
  cases args with
  | fixed vs => exact .pure trivial
  | packed array =>
    refine arrayOf_flows.bind fun tail _ => ?_
    exact (plainCall_flows (by decide)).bind fun _ _ => .pure trivial

theorem writePlace_flows (writable : place.Writable P) :
    Flows P (writePlace place value) Whatever := by
  match place, writable with
  | .variable b, _ => exact copy_flows
  | .instanceVariable name, _ =>
    refine .read fun c _ => .bind (Q := Whatever) ?_ fun _ _ => .pure trivial
    exact emitCall_flows (Stable.builtin "instance_variable_set" (by decide))
  | .global name, _ => exact emit_flows rfl (by simp [Instr.site?])
  | .constant scope name, _ =>
    refine .bind (Q := Whatever) ?_ fun _ _ => .pure trivial
    exact emitCall_flows (Stable.builtin "const_set" (by decide))
  | .attribute receiver name implicit, calls =>
    exact (raisingCall_flows calls).bind fun _ _ => .pure trivial
  | .item receiver args, _ =>
    refine appendArgument_flows.bind fun args _ => .bind (Q := Whatever) ?_ fun _ _ => .pure trivial
    exact emitCall_flows (Stable.builtin "[]=" (by decide))

/-! Taking arrays apart. -/

theorem splatMiddle_flows {array : Operand} {before after : Nat} :
    Flows P (splatMiddle array before after) Whatever := by
  intro L here O
  refine (plainCall_flows (by decide)).into fun size here _ => ?_
  refine (plainCall_flows (by decide)).into fun splatSize here _ => ?_
  refine (plainCall_flows (by decide)).into fun hasItems here _ => ?_
  refine newTemp_flows.into fun middle here _ => ?_
  refine newTemp_flows.into fun start here _ => ?_
  refine .reserve fun some_ => .reserve fun none_ => .reserve fun join => ?_
  refine .branch (by simp) (by simp) <| .start 2 rfl ?_
  refine (plainCall_flows (by decide)).into fun items here _ => ?_
  refine copy_flows.into fun _ here _ => ?_
  refine (plainCall_flows (by decide)).into fun first here _ => ?_
  refine copy_flows.into fun _ here _ => ?_
  refine .jump (by simp) <| .start 1 rfl ?_
  refine copy_flows.into fun _ here _ => copy_flows.into fun _ here _ => ?_
  exact .jump (by simp) <| .start 0 rfl <| .pure ⟨rfl, trivial⟩

theorem checkTargets_flows {array : Operand} : Flows P (checkTargets targets array) Whatever := by
  refine .check fun _ _ => ?_
  unfold expectSize
  split
  · exact emit_flows rfl (by simp [Instr.site?])
  · exact emit_flows rfl (by simp [Instr.site?])

mutual

theorem assignTo_flows :
    ∀ (t : Tree) {value : Operand}, G t → Flows P (assignTo walk t value) Whatever
  | .node kind targets payload, value, admitted => by
    unfold assignTo
    split
    · rename_i same
      cases same
      refine (toArray_flows (by decide)).bind fun array _ => ?_
      refine checkTargets_flows.bind fun _ _ => ?_
      exact assignLeading_flows targets fun u member =>
        Admits.child admitted (by simp [Tree.kind]) member
    · refine (evalPlace_flows admitted).bind fun place same => ?_
      exact writePlace_flows (same.writable admitted)
termination_by structural t => t

theorem assignLeading_flows :
    ∀ (targets : List Tree) {array : Operand} {i : Nat}, (∀ u ∈ targets, G u) →
      Flows P (assignLeading walk array i targets) Whatever
  | [], _, _, _ => .pure trivial
  | .node kind inner payload :: targets, array, i, admitted => by
    have first := admitted (.node kind inner payload) (by simp)
    have later : ∀ u ∈ targets, G u := fun u member => admitted u (by simp [member])
    unfold assignLeading
    split
    · contradiction
    · rename_i same
      cases same
      refine splatMiddle_flows.bind fun r _ => ?_
      refine (assignFirst_flows inner fun u member => ?_).bind fun _ _ => ?_
      · exact Admits.child first (by simp [Tree.kind]) member
      · exact assignTrailing_flows targets later
    · rename_i same
      cases same
      refine (plainCall_flows (by decide)).bind fun item _ => ?_
      refine (assignTo_flows (.node kind inner payload) first).bind fun _ _ => ?_
      exact assignLeading_flows targets later
termination_by structural targets => targets

theorem assignFirst_flows :
    ∀ (targets : List Tree) {value : Operand}, (∀ u ∈ targets, G u) →
      Flows P (assignFirst walk targets value) Whatever
  | [], _, _ => .pure trivial
  | target :: _, _, admitted => assignTo_flows target (admitted target (by simp))
termination_by structural targets => targets

theorem assignTrailing_flows :
    ∀ (targets : List Tree) {array start : Operand} {j : Nat}, (∀ u ∈ targets, G u) →
      Flows P (assignTrailing walk array start j targets) Whatever
  | [], _, _, _, _ => .pure trivial
  | target :: targets, array, start, j, admitted => by
    refine (plainCall_flows (by decide)).bind fun index _ => ?_
    refine (plainCall_flows (by decide)).bind fun item _ => ?_
    refine (assignTo_flows target (admitted target (by simp))).bind fun _ _ => ?_
    exact assignTrailing_flows targets fun u member => admitted u (by simp [member])
termination_by structural targets => targets

end

theorem destructure_flows {array : Operand} (admitted : ∀ u ∈ targets, G u) :
    Flows P (destructure walk targets array) Whatever :=
  checkTargets_flows.bind fun _ _ => assignLeading_flows targets admitted

/-! Assignments. -/

theorem lowerAssign_flows (admitted : G t) (kind : t.kind = .assign) :
    Flows P (lowerAssign walk t) Whatever := by
  have child {u : Tree} {i : Nat} (found : t.child i = .ok u) : G u :=
    Admits.child admitted (by rw [kind]; decide) (Tree.mem_of_child found)
  refine .check fun left left_found => ?_
  refine (evalPlace_flows (child left_found)).bind fun place same => ?_
  refine .check fun right found => ?_
  have right_admitted := child found
  extract_lets finish
  have finish_flows (value : Operand) : Flows P (finish value) Whatever :=
    (writePlace_flows (same.writable (child left_found))).bind fun _ _ => .pure trivial
  split
  · refine (splatArray_flows (Admits.children right_admitted)).bind ?_
    exact fun value _ => finish_flows value
  · exact (Walks.flows _ right_admitted true).bind fun value _ => finish_flows value

omit admits in
theorem assignUnless_flows {isOr : Bool} {current : Operand} {right : Tree}
    (writable : place.Writable P) (admitted : G right) :
    Flows P (assignUnless walk isOr place current right want) Whatever := by
  intro L here O
  refine tempIf_flows.into fun result here _ => copyIf_flows.into fun _ here _ => ?_
  refine .reserve fun assignBlock => .reserve fun join => ?_
  extract_lets finish
  have finish_moves : Moves P (insert join (insert assignBlock L)) here
      (.opened join :: .opened assignBlock :: O) (finish ())
      fun a here' O' => O' = .opened here' :: O ∧ Whatever a := by
    refine .start 1 rfl <| (Walks.flows _ admitted true).into fun value here _ => ?_
    refine (writePlace_flows writable).into fun _ here _ => ?_
    refine copyIf_flows.into fun _ here _ => ?_
    exact .jump (by simp) <| .start 0 rfl <| .pure ⟨rfl, trivial⟩
  split
  · exact .branch (by simp) (by simp) finish_moves
  · exact .branch (by simp) (by simp) finish_moves

theorem lowerOpAssign_flows (admitted : G t) (kind : t.kind = .opAssign) :
    Flows P (lowerOpAssign walk t want) Whatever := by
  have child {u : Tree} {i : Nat} (found : t.child i = .ok u) : G u :=
    Admits.child admitted (by rw [kind]; decide) (Tree.mem_of_child found)
  refine .check fun op named => .check fun left left_found => ?_
  refine (evalPlace_flows (child left_found)).bind fun place same => ?_
  have readable := same.readable admitted kind (Tree.getElem?_of_child left_found)
  have writable := same.writable (child left_found)
  refine (readPlace_flows readable).bind fun current _ => .check fun right found => ?_
  split
  · exact assignUnless_flows writable (child found)
  · rename_i plain
    have calls := Admits.method admitted (.inr ⟨kind, not_or.mp plain⟩) (Tree.payload_of_name named)
    refine (Walks.flows _ (child found) true).bind fun value _ => ?_
    refine (raisingCall_flows calls).bind fun combined _ => ?_
    exact (writePlace_flows writable).bind fun _ _ => .pure trivial

theorem snapshot_flows : Flows P (snapshot value) Whatever := by
  cases value with
  | binding b =>
    refine .get fun s => ?_
    split
    · exact newTemp_flows.bind fun _ _ => copy_flows.bind fun _ _ => .pure trivial
    · exact .pure trivial
  | const v => exact .pure trivial

omit admits in
theorem walkSnapshots_flows {ts : List Tree} (admitted : Admitted G ts) :
    Flows P (walkSnapshots walk ts) Whatever := by
  rcases admitted with all | ⟨u, member, clause⟩
  · exact .any (.mapM (R := Whatever) fun t member =>
      (Walks.flows t (all t member) true).bind fun _ _ => snapshot_flows)
  · exact (Fails.mapM member (Walks.refuses (P := P) u clause true).first).flows

theorem assignedValues_flows {values : List Operand} :
    Flows P (assignedValues values want) Whatever := by
  unfold assignedValues
  split
  · exact arrayOf_flows
  · exact .pure trivial

/-- A target may be assigned to, before it is evaluated and after. -/
def TargetAdmitted (P : Policy) (G : Tree → Prop) (target : Tree × Option Place) : Prop :=
  G target.1 ∧ ∀ place, target.2 = some place → place.Writable P

theorem evalTarget_flows (admitted : G t) : Flows P (evalTarget walk t) (TargetAdmitted P G) := by
  unfold evalTarget
  split
  · exact .pure ⟨admitted, by simp⟩
  · refine (evalPlace_flows admitted).bind fun place same => ?_
    exact .pure ⟨admitted, by simpa using same.writable admitted⟩

theorem writeTarget_flows {target : Tree × Option Place}
    (admitted : TargetAdmitted P G target) : Flows P (writeTarget walk target value) Whatever := by
  unfold writeTarget
  split
  · exact writePlace_flows (admitted.2 _ rfl)
  · exact assignTo_flows _ admitted.1

theorem writeTargets_flows {targets : List (Tree × Option Place)} {values : List Operand}
    (admitted : ∀ t ∈ targets, TargetAdmitted P G t) :
    Flows P (writeTargets walk targets values) Whatever := by
  induction targets generalizing values with
  | nil => exact .pure trivial
  | cons t ts ih =>
    have first {value : Operand} : Flows P (writeTarget walk t value) Whatever :=
      writeTarget_flows (admitted t (by simp))
    have later {values : List Operand} : Flows P (writeTargets walk ts values) Whatever :=
      ih fun t member => admitted t (by simp [member])
    cases values with
    | nil => exact first.bind fun _ _ => later
    | cons v vs => exact first.bind fun _ _ => later

theorem assignPairwise_flows {values : List Tree}
    (targets_admitted : ∀ u ∈ targets, G u) (values_admitted : Admitted G values) :
    Flows P (assignPairwise walk targets values want) Whatever := by
  refine .bind (.mapM fun t member => evalTarget_flows (targets_admitted t member))
    fun places admitted => ?_
  refine (walkSnapshots_flows values_admitted).bind fun operands _ => ?_
  have finish : Flows P (do
      writeTargets walk places operands
      assignedValues operands want) Whatever :=
    (writeTargets_flows admitted).bind fun _ _ => assignedValues_flows
  dsimp only
  split
  · exact report_flows.bind fun _ _ => finish
  · split
    · exact report_flows.bind fun _ _ => finish
    · exact finish

theorem assignEach_flows {values : List Operand}
    (admitted : ∀ u ∈ targets, G u) : Flows P (assignEach walk targets values) Whatever := by
  induction targets generalizing values with
  | nil => exact .pure trivial
  | cons t ts ih =>
    refine (assignTo_flows t (admitted t (by simp))).bind fun _ _ => ?_
    exact ih fun u member => admitted u (by simp [member])

theorem assignAround_flows {star : Nat} {values : List Tree}
    (targets_admitted : ∀ u ∈ targets, G u) (values_admitted : Admitted G values)
    (splat : ∀ t, targets[star]? = some t → t.kind = .splat) :
    Flows P (assignAround walk targets star values want) Whatever := by
  refine (walkSnapshots_flows values_admitted).bind fun operands _ => ?_
  have each {ts : List Tree} {values : List Operand} (sub : ts ⊆ targets) :
      Flows P (assignEach walk ts values) Whatever :=
    assignEach_flows fun u member => targets_admitted u (sub member)
  extract_lets fixed count middle last rest
  have last_flows : Flows P (last ()) Whatever :=
    (each (List.drop_subset _ _)).bind fun _ _ => assignedValues_flows
  have rest_flows : Flows P (rest ()) Whatever := by
    refine (each (List.take_subset _ _)).bind fun _ _ => ?_
    split
    · rename_i target found
      have admitted : G target := by
        cases here : targets[star]? with
        | none => simp [here, default, Tree.children] at found
        | some t =>
          rw [here, Option.getD_some] at found
          exact Admits.child (targets_admitted t (List.mem_of_getElem? here))
            (by rw [splat t here]; decide) (List.mem_of_head? found)
      refine arrayOf_flows.bind fun array _ => ?_
      exact (assignTo_flows _ admitted).bind fun _ _ => last_flows
    · exact last_flows
  split
  · exact report_flows.bind fun _ _ => rest_flows
  · exact rest_flows

omit [P.Stable] in
theorem kind_of_splatPosition {star : Nat} (found : splatPosition targets = .ok (some star)) :
    ∀ t, targets[star]? = some t → t.kind = .splat := by
  intro t here
  unfold splatPosition at found
  split at found
  · cases found
  · obtain ⟨inside, is_splat, _⟩ := List.findIdx?_eq_some_iff_getElem.mp (Except.ok.inj found)
    obtain ⟨_, rfl⟩ := List.getElem?_eq_some_iff.mp here
    simpa [isSplat] using is_splat

theorem lowerMultipleAssign_flows (admitted : G t)
    (kind : t.kind = .multipleAssign) : Flows P (lowerMultipleAssign walk t want) Whatever := by
  have child {u : Tree} {i : Nat} (found : t.child i = .ok u) : G u :=
    Admits.child admitted (by rw [kind]; decide) (Tree.mem_of_child found)
  refine .check fun left left_found => ?_
  split
  · exact .throw
  · rename_i is_list
    have targets_admitted : ∀ u ∈ left.children, G u := fun u member =>
      Admits.child (child left_found) (by rw [not_not.mp is_list]; decide) member
    refine .check fun right found => ?_
    have right_admitted := child found
    have values_admitted := Admits.children right_admitted
    refine .check fun star position => ?_
    split
    · split
      · refine (splatArray_flows values_admitted).bind fun array _ => ?_
        exact (destructure_flows targets_admitted).bind fun _ _ => .pure trivial
      · split
        · exact assignPairwise_flows targets_admitted values_admitted
        · exact assignAround_flows targets_admitted values_admitted
            (kind_of_splatPosition position)
    · refine (Walks.flows _ right_admitted true).bind fun value _ => ?_
      refine snapshot_flows.bind fun value _ => ?_
      refine (toArray_flows (by decide)).bind fun array _ => ?_
      exact (destructure_flows targets_admitted).bind fun _ _ => .pure trivial

end ScriptFlow.Lowering
