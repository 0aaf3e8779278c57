import ScriptFlow.Proofs.Lowering.FlowAssignments

/-! Control flows through conditionals, loops, jumps and handlers. -/

namespace ScriptFlow.Lowering

open Policy

variable {want : Bool} {t : Tree} {subject : Option Operand}

/-- Control goes on at an open block, and the other stubs are as before. -/
abbrev Resumes (O : List Stub) {α : Type} : α → Nat → List Stub → Prop :=
  fun _ here' O' => O' = .opened here' :: O

namespace Moves

variable {P : Policy} {α : Type} {L : Set Nat} {here : Nat} {O : List Stub}

theorem forM {f : α → Lower PUnit} {l : List α}
    (step : ∀ a ∈ l, ∀ here, Moves P L here (.opened here :: O) (f a) (Resumes O)) :
    Moves P L here (.opened here :: O) (l.forM f) (Resumes O) := by
  induction l generalizing here with
  | nil => exact .pure rfl
  | cons a l ih =>
    change Moves P L here _ (f a >>= fun _ => l.forM f) (Resumes O)
    refine (step a (by simp) here).bind fun _ here _ same => ?_
    subst same
    exact ih fun b member => step b (by simp [member])

/-- A step may end by going on in an open block. -/
theorem resume {b : Nat} : Moves P L here (.opened b :: O) (startBlock b) (Resumes O) := by
  intro c s _ _ inv _ s' run
  cases run
  exact ⟨_, rfl, inv⟩

end Moves

theorem Fails.moves {P : Policy} {α : Type} {L : Set Nat} {here : Nat} {O : List Stub}
    {act : Lower α} {Q : α → Nat → List Stub → Prop} (fails : Fails act) : Moves P L here O act Q :=
  fun c s _ _ _ a s' run => absurd run (fails c s a s')

variable {P : Policy} [P.Stable] {G : Tree → Prop} {walk : Walk} [admits : Admits P G]
  [Walks P G walk] {L : Set Nat} {here : Nat} {O : List Stub}

omit [P.Stable] admits in
theorem lowerSequence_flows {ts : List Tree} (admitted : ∀ u ∈ ts, G u) :
    Flows P (lowerSequence walk ts want) Whatever := by
  induction ts with
  | nil => exact .pure trivial
  | cons t ts ih =>
    have first (want : Bool) : Flows P (walk t want) Whatever := Walks.flows t (admitted t (by simp)) want
    cases ts with
    | nil => exact first want
    | cons u us => exact (first false).bind fun _ _ => ih fun v member => admitted v (by simp [member])

omit [P.Stable] admits in
theorem lowerOptional_flows {t : Option Tree} (admitted : ∀ u, t = some u → G u) :
    Flows P (lowerOptional walk t want) Whatever := by
  cases t with
  | none => exact .pure trivial
  | some t => exact Walks.flows t (admitted t rfl) want

theorem lowerIf_flows {negated : Bool} (admitted : G t) (kind : t.kind ≠ .bodyStmt) :
    Flows P (lowerIf walk t negated want) Whatever := by
  have child {u : Tree} (member : u ∈ t.children) : G u := Admits.child admitted kind member
  intro L here O
  refine .check fun test found => ?_
  refine (Walks.flows _ (child (Tree.mem_of_child found)) true).into fun condition here _ => ?_
  refine tempIf_flows.into fun result here _ => ?_
  refine .reserve fun thenBlock => .reserve fun elseBlock => ?_
  refine .reserve fun join => ?_
  extract_lets finish
  have finish_moves : Moves P (insert join (insert elseBlock (insert thenBlock L))) here
      (.opened join :: .opened elseBlock :: .opened thenBlock :: O) (finish ())
      fun a here' O' => O' = .opened here' :: O ∧ Whatever a := by
    refine .start 2 rfl <| .check fun yes found => ?_
    refine (Walks.flows _ (child (Tree.mem_of_child found)) want).into fun value here _ => ?_
    refine copyIf_flows.into fun _ here _ => .jump (by simp) ?_
    refine .start 1 rfl ?_
    refine (lowerOptional_flows fun u found => child (List.mem_of_getElem? found)).into
      fun value here _ => ?_
    refine copyIf_flows.into fun _ here _ => .jump (by simp) ?_
    refine .start 0 rfl ?_
    exact .pure ⟨rfl, trivial⟩
  split
  · exact .branch (by simp) (by simp) finish_moves
  · exact .branch (by simp) (by simp) finish_moves

theorem lowerLoop_flows {isUntil : Bool} (admitted : G t)
    (kind : t.kind ≠ .bodyStmt) : Flows P (lowerLoop walk t isUntil want) Whatever := by
  have child {u : Tree} {i : Nat} (found : t.child i = .ok u) : G u :=
    Admits.child admitted kind (Tree.mem_of_child found)
  intro L here O
  refine tempIf_flows.into fun result here _ => copyIf_flows.into fun _ here _ => ?_
  refine .reserve fun head => .reserve fun body => .reserve fun after => ?_
  refine .jump (by simp) <| .start 2 rfl <| .check fun test found => ?_
  refine (Walks.flows _ (child found) true).into fun condition here _ => ?_
  extract_lets finish
  have finish_moves : Moves P (insert after (insert body (insert head L))) here
      (.opened after :: .opened body :: O) (finish ())
      fun a here' O' => O' = .opened here' :: O ∧ Whatever a := by
    refine .read fun c obeys => ?_
    have outer := obeys.targets
    have inner : { c.targets with
        breakTo := some after, nextTo := some head, redoTo := some body,
        breakValue := result, nextValue := none }.Obey (insert after (insert body (insert head L))) :=
      { breakTo := by simp, nextTo := by simp, redoTo := by simp, returnTo := outer.returnTo
        rescueTo := outer.rescueTo, yieldFailTo := outer.yieldFailTo }
    refine (Moves.withTargets inner (Q := fun _ _ O' => O' = .opened after :: O) ?_).bind ?_
    · refine .start 1 rfl <| .check fun inside found => ?_
      exact (Walks.flows _ (child found) false).into fun _ here _ => jump_moves (by simp)
    · rintro _ here _ rfl
      exact .start 0 rfl <| .pure ⟨rfl, trivial⟩
  split
  · exact .branch (by simp) (by simp) finish_moves
  · exact .branch (by simp) (by simp) finish_moves

/-! `case`. -/

theorem caseTest_flows {pattern : Operand} : Flows P (caseTest subject pattern) Whatever := by
  cases subject with
  | none => exact .pure trivial
  | some s => exact raisingCall_flows (Stable.builtin _ (by decide))

theorem testEach_moves {list : Operand} {matched : Nat} (lands : matched ∈ L) :
    Moves P L here (.opened here :: O) (testEach list subject matched) (Resumes O) := by
  refine (plainCall_flows (by decide)).into fun size here _ => ?_
  refine newTemp_flows.into fun index here _ => copy_flows.into fun _ here _ => ?_
  refine .reserve fun head => .reserve fun testBlock => ?_
  refine .reserve fun advance => .reserve fun exhausted => ?_
  refine .jump (by simp) <| .start 3 rfl ?_
  refine (plainCall_flows (by decide)).into fun inRange here _ => ?_
  refine .branch (by simp) (by simp) <| .start 2 rfl ?_
  refine (plainCall_flows (by decide)).into fun item here _ => ?_
  refine caseTest_flows.into fun test here _ => ?_
  refine .branch (by simp [lands]) (by simp) <| .start 1 rfl ?_
  refine (plainCall_flows (by decide)).into fun next here _ => ?_
  refine copy_flows.into fun _ here _ => ?_
  exact .jump (by simp) .resume

theorem lowerPattern_moves {matched : Nat} (admitted : G t) (lands : matched ∈ L) :
    Moves P L here (.opened here :: O) (lowerPattern walk subject matched t) (Resumes O) := by
  unfold lowerPattern
  split
  · rename_i kind
    refine .check fun inner found => ?_
    have inner_admitted := Admits.child admitted (by rw [kind]; decide) (Tree.mem_of_child found)
    refine (Walks.flows inner inner_admitted true).into fun value here _ => ?_
    exact splatValue_flows.into fun list here _ => testEach_moves lands
  · refine (Walks.flows t admitted true).into fun value here _ => ?_
    refine caseTest_flows.into fun test here _ => .reserve fun next => ?_
    exact .branch (by simp [lands]) (by simp) .resume

theorem lowerPattern_fails {matched : Nat} (clause : t.kind = .ensure)
    (fails : Fails (walk t true)) : Fails (lowerPattern walk subject matched t) := by
  unfold lowerPattern
  rw [if_neg (by rw [clause]; decide)]
  exact fails.first

theorem lowerWhen_moves {result : Option BindingId} {join : Nat} (admitted : G t)
    (kind : t.kind = .whenClause) (lands : join ∈ L) :
    Moves P L here (.opened here :: O) (lowerWhen walk subject result join want t) (Resumes O) := by
  have child {u : Tree} {i : Nat} (found : t.child i = .ok u) : G u :=
    Admits.child admitted (by rw [kind]; decide) (Tree.mem_of_child found)
  refine .reserve fun matched => .check fun patterns found => ?_
  rcases Admits.children (child found) with all | ⟨u, member, clause⟩
  · refine (Moves.forM fun t member here => ?_).bind fun _ here _ same => ?_
    · exact lowerPattern_moves (all t member) (by simp)
    · subst same
      refine .currentBlock <| .start 1 rfl <| .check fun body found => ?_
      refine (Walks.flows _ (child found) want).into fun value here _ => ?_
      refine copyIf_flows.into fun _ here _ => ?_
      exact .jump (by simp [lands]) .resume
  · exact (Fails.forM member
      (lowerPattern_fails clause (Walks.refuses (P := P) _ clause true))).first.moves

omit [P.Stable] in
/-- The `else` branch is one of the clauses. -/
theorem lowerClauses_moves {clause : Tree → Lower Unit} {otherwise : Option Tree} {ts : List Tree}
    (clauses : ∀ t ∈ ts, t.kind = .whenClause → ∀ here,
      Moves P L here (.opened here :: O) (clause t) (Resumes O)) :
    Moves P L here (.opened here :: O) (lowerClauses clause otherwise ts)
      fun r here' O' => O' = .opened here' :: O ∧ ∀ u, r = some u → otherwise = some u ∨ u ∈ ts := by
  fun_induction lowerClauses clause otherwise ts generalizing here with
  | case1 => exact .pure ⟨rfl, fun u same => .inl same⟩
  | case2 t ts kind ih =>
    refine (clauses t (by simp) kind here).bind fun _ here _ same => ?_
    subst same
    refine (ih fun t member => clauses t (by simp [member])).weaken fun r _ _ ⟨same, found⟩ => ?_
    exact ⟨same, fun u is => (found u is).imp id (by simp +contextual)⟩
  | case3 t ts _ ih =>
    refine (ih fun t member => clauses t (by simp [member])).weaken fun r _ _ ⟨same, found⟩ => ?_
    refine ⟨same, fun u is => .inr ?_⟩
    rcases found u is with same | member
    · cases same
      simp
    · simp [member]
  | case4 => exact .throw
  | case5 => exact .throw

theorem lowerCase_flows (admitted : G t) (kind : t.kind = .caseOf) :
    Flows P (lowerCase walk t want) Whatever := by
  have child {u : Tree} (member : u ∈ t.children) : G u :=
    Admits.child admitted (by rw [kind]; decide) member
  refine .check fun first found => ?_
  extract_lets finish
  have finish_flows (subject : Option Operand) : Flows P (finish subject) Whatever := by
    intro L here O
    refine tempIf_flows.into fun result here _ => .reserve fun join => ?_
    have clauses (u : Tree) (member : u ∈ t.children.drop 1) (is_when : u.kind = .whenClause)
        (here : Nat) : Moves P (insert join L) here (.opened here :: .opened join :: O)
          (lowerWhen walk subject result join want u) (Resumes (.opened join :: O)) :=
      lowerWhen_moves (child (List.mem_of_mem_drop member)) is_when (by simp)
    refine (lowerClauses_moves clauses).bind fun otherwise here _ ⟨same, last⟩ => ?_
    subst same
    have otherwise_admitted (u : Tree) (is : otherwise = some u) : G u :=
      child (List.mem_of_mem_drop ((last u is).resolve_left (by simp)))
    refine (lowerOptional_flows otherwise_admitted).into fun value here _ => ?_
    refine copyIf_flows.into fun _ here _ => ?_
    exact .jump (by simp) <| .start 0 rfl <| .pure ⟨rfl, trivial⟩
  split
  · exact finish_flows none
  · have subject : Flows P (some <$> walk first true) Whatever :=
      (Walks.flows _ (child (Tree.mem_of_child found)) true).map fun _ _ => trivial
    exact subject.bind fun subject _ => finish_flows subject

/-! Boolean operators. -/

theorem lowerShortCircuit_flows {isAnd : Bool} (admitted : G t)
    (kind : t.kind ≠ .bodyStmt) : Flows P (lowerShortCircuit walk t isAnd want) Whatever := by
  have child {u : Tree} {i : Nat} (found : t.child i = .ok u) : G u :=
    Admits.child admitted kind (Tree.mem_of_child found)
  intro L here O
  refine .check fun left found => (Walks.flows _ (child found) true).into fun value here _ => ?_
  refine tempIf_flows.into fun result here _ => copyIf_flows.into fun _ here _ => ?_
  refine .reserve fun rightBlock => .reserve fun join => ?_
  extract_lets finish
  have finish_moves : Moves P (insert join (insert rightBlock L)) here
      (.opened join :: .opened rightBlock :: O) (finish ())
      fun a here' O' => O' = .opened here' :: O ∧ Whatever a := by
    refine .start 1 rfl <| .check fun right found => ?_
    refine (Walks.flows _ (child found) want).into fun value here _ => ?_
    refine copyIf_flows.into fun _ here _ => ?_
    exact .jump (by simp) <| .start 0 rfl <| .pure ⟨rfl, trivial⟩
  split
  · exact .branch (by simp) (by simp) finish_moves
  · exact .branch (by simp) (by simp) finish_moves

theorem lowerNot_flows (admitted : G t) (kind : t.kind = .negate) :
    Flows P (lowerNot walk t want) Whatever := by
  refine .check fun inner found => ?_
  have inner_admitted := Admits.child admitted (by rw [kind]; decide) (Tree.mem_of_child found)
  refine (Walks.flows inner inner_admitted true).bind fun value _ => ?_
  exact raisingCall_flows (Stable.builtin _ (by decide))

/-! `defined?`. -/

theorem describeIf_flows {test : Operand} {description : String} :
    Flows P (describeIf test description) Whatever := by
  intro L here O
  refine newTemp_flows.into fun result here _ => ?_
  refine .reserve fun yes => .reserve fun no => .reserve fun join => ?_
  refine .branch (by simp) (by simp) <| .start 2 rfl ?_
  refine copy_flows.into fun _ here _ => .jump (by simp) <| .start 1 rfl ?_
  refine copy_flows.into fun _ here _ => .jump (by simp) <| .start 0 rfl ?_
  exact .pure ⟨rfl, trivial⟩

theorem describeConstant_flows {expr : Tree} (admitted : G expr) : Flows P (do
    let scope ← constantScope walk expr
    let test ← plainCall scope "const_defined?" [symConst (← expr.name)]
    describeIf test "constant") Whatever := by
  refine (constantScope_flows admitted).bind fun scope _ => .check fun name _ => ?_
  exact (plainCall_flows (by decide)).bind fun test _ => describeIf_flows

theorem lowerDefined_flows (admitted : G t) (kind : t.kind = .isDefined) :
    Flows P (lowerDefined walk t) Whatever := by
  refine .check fun expr found => ?_
  have expr_admitted := Admits.child admitted (by rw [kind]; decide) (Tree.mem_of_child found)
  dsimp only
  split <;> try exact .pure trivial
  · refine .read fun c _ => ?_
    split
    · exact describeIf_flows
    · exact .pure trivial
  · exact describeConstant_flows expr_admitted
  · exact describeConstant_flows expr_admitted
  · exact describeConstant_flows expr_admitted
  · refine .check fun name _ => .read fun c _ => ?_
    exact (plainCall_flows (by decide)).bind fun test _ => describeIf_flows
  · rename_i is_call
    refine .check fun receiver found => ?_
    have receiver_admitted :=
      Admits.child expr_admitted (by rw [is_call]; decide) (Tree.mem_of_child found)
    refine (lowerReceiver_flows receiver_admitted).bind fun _ _ => .check fun name _ => ?_
    exact (plainCall_flows (by decide)).bind fun test _ => describeIf_flows

/-! Jumps. -/

theorem lowerReturn_flows (admitted : G t) (kind : t.kind = .returnWith) :
    Flows P (lowerReturn walk t) Whatever := by
  have value_admitted (u : Tree) (found : t.child? 0 = some u) : G u :=
    Admits.child admitted (by rw [kind]; decide) (Tree.mem_of_child? found)
  intro L here O
  refine (lowerOptional_flows value_admitted).into fun value here _ => .read fun c _ => ?_
  refine copy_flows.into fun _ here _ => .read fun c obeys => ?_
  refine .jump obeys.targets.returnTo <| .startUnreachable fun b => ?_
  exact .pure ⟨rfl, trivial⟩

theorem jumpOut_moves {target : Option BlockId} {fault : TreeFault} {place : Option BindingId}
    (admitted : G t) (kind : t.kind ≠ .bodyStmt) (lands : ∀ b, target = some b → b ∈ L) :
    Moves P L here (.opened here :: O) (jumpOut walk t target fault place)
      fun a here' O' => O' = .opened here' :: O ∧ Whatever a := by
  have value_admitted (u : Tree) (found : t.child? 0 = some u) : G u :=
    Admits.child admitted kind (Tree.mem_of_child? found)
  unfold jumpOut
  split
  · rename_i b
    refine (lowerOptional_flows value_admitted).into fun value here _ => ?_
    refine copyIf_flows.into fun _ here _ => ?_
    refine .jump (lands b rfl) <| .startUnreachable fun b => ?_
    exact .pure ⟨rfl, trivial⟩
  · exact .throw

theorem lowerBreak_flows (admitted : G t) (kind : t.kind = .breakWith) :
    Flows P (lowerBreak walk t) Whatever :=
  fun _ _ _ => .read fun _ obeys =>
    jumpOut_moves admitted (by rw [kind]; decide) obeys.targets.breakTo

theorem lowerNext_flows (admitted : G t) (kind : t.kind = .nextWith) :
    Flows P (lowerNext walk t) Whatever :=
  fun _ _ _ => .read fun _ obeys =>
    jumpOut_moves admitted (by rw [kind]; decide) obeys.targets.nextTo

theorem lowerRedo_flows : Flows P lowerRedo Whatever := by
  intro L here O
  refine .read fun c obeys => ?_
  split
  · rename_i target found
    refine .jump (obeys.targets.redoTo target found) <| .startUnreachable fun b => ?_
    exact .pure ⟨rfl, trivial⟩
  · exact .throw

end ScriptFlow.Lowering
