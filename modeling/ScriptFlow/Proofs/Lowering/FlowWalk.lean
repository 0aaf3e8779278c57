import ScriptFlow.Proofs.Lowering.FlowControl

/-! Control flows through handlers, and so through every node. -/

namespace ScriptFlow.Lowering

open Policy

variable {t : Tree} {result : Option BindingId} {want : Bool}

structure Handler.Admitted (G : Tree → Prop) (h : Handler) : Prop where
  classes : Lowering.Admitted G h.classes
  target : ∀ t, h.target = some t → G t
  body : G h.body

structure Clauses.Admitted (G : Tree → Prop) (c : Clauses) : Prop where
  handlers : ∀ h ∈ c.handlers, h.Admitted G
  otherwise : ∀ t, c.otherwise = some t → G t
  ensure : ∀ t, c.ensure = some t → G t

variable {P : Policy} {G : Tree → Prop} {walk : Walk} [admits : Admits P G]
  [Walks P G walk] {L : Set Nat} {here : Nat} {O : List Stub}

section

include admits

theorem handlerOf_admitted {h : Handler} (made : handlerOf t = .ok h) (admitted : G t)
    (kind : t.kind = .rescue) : h.Admitted G := by
  have child {u : Tree} (member : u ∈ t.children) : G u :=
    Admits.child admitted (by rw [kind]; decide) member
  unfold handlerOf at made
  cases classes : t.child 0 with
  | error e => simp [classes, bind, Except.bind] at made
  | ok cs =>
    cases body : t.child 2 with
    | error e => simp [classes, body, bind, Except.bind] at made
    | ok b =>
      simp only [classes, body, bind, Except.bind, pure, Except.pure, Except.ok.injEq] at made
      subst made
      exact ⟨Admits.children (child (Tree.mem_of_child classes)),
        fun u found => child (Tree.mem_of_child? found), child (Tree.mem_of_child body)⟩

theorem Clauses.Admitted.add {c c' : Clauses} (clauses : c.Admitted G)
    (added : c.add t = .ok c') (admitted : G t) : c'.Admitted G := by
  unfold Clauses.add at added
  dsimp only at added
  split at added
  · rename_i rescue
    cases made : handlerOf t with
    | error e => simp [made, bind, Except.bind] at added
    | ok h =>
      simp only [made, bind, Except.bind, pure, Except.pure, Except.ok.injEq] at added
      subst added
      refine { clauses with handlers := fun h' member => ?_ }
      rcases List.mem_append.mp member with old | new
      · exact clauses.handlers h' old
      · cases List.mem_singleton.mp new
        exact handlerOf_admitted made admitted rescue.1
  · split at added
    · rename_i ensure
      cases inner : t.child 0 with
      | error e => simp [inner, bind, Except.bind] at added
      | ok e =>
        simp only [inner, bind, Except.bind, pure, Except.pure, Except.ok.injEq] at added
        subst added
        refine { clauses with ensure := fun u same => ?_ }
        cases same
        exact Admits.child admitted (by rw [ensure.1]; decide) (Tree.mem_of_child inner)
    · split at added
      · cases added
        refine { clauses with otherwise := fun u same => ?_ }
        cases same
        exact admitted
      · cases added

theorem clauses_admitted {ts : List Tree} {c c' : Clauses}
    (folded : ts.foldlM Clauses.add c = .ok c') (clauses : c.Admitted G) (all : ∀ t ∈ ts, G t) :
    c'.Admitted G := by
  induction ts generalizing c with
  | nil =>
    cases folded
    exact clauses
  | cons t ts ih =>
    rw [List.foldlM_cons] at folded
    cases added : c.add t with
    | error e => simp [added, bind, Except.bind] at folded
    | ok c₁ =>
      simp only [added, bind, Except.bind] at folded
      exact ih folded (clauses.add added (all t (by simp)))
        fun u member => all u (by simp [member])

end

variable [P.Stable]

section

theorem testClass_moves {cls : Operand} {matched : Nat} (lands : matched ∈ L) :
    Moves P L here (.opened here :: O) (testClass cls matched) (Resumes O) := by
  refine .read fun c _ => (plainCall_flows (by decide)).into fun test here _ => ?_
  refine .reserve fun next => ?_
  exact .branch (by simp [lands]) (by simp) .resume

theorem testHandled_moves {matched : Nat} (admitted : G t) (lands : matched ∈ L) :
    Moves P L here (.opened here :: O) (testHandled walk matched t) (Resumes O) := by
  unfold testHandled
  split
  · rename_i kind
    refine .check fun inner found => ?_
    have inner_admitted := Admits.child admitted (by rw [kind]; decide) (Tree.mem_of_child found)
    refine (Walks.flows inner inner_admitted true).into fun value here _ => ?_
    refine splatValue_flows.into fun list here _ => .read fun c _ => ?_
    exact testEach_moves lands
  · exact (Walks.flows t admitted true).into fun cls here _ => testClass_moves lands

theorem testHandled_fails {matched : Nat} (clause : t.kind = .ensure)
    (fails : Fails (walk t true)) : Fails (testHandled walk matched t) := by
  unfold testHandled
  rw [if_neg (by rw [clause]; decide)]
  exact fails.first

theorem lowerHandler_moves {join : Nat} {h : Handler} (admitted : h.Admitted G) (lands : join ∈ L) :
    Moves P L here (.opened here :: O) (lowerHandler walk result join h) (Resumes O) := by
  refine .reserve fun matched => ?_
  extract_lets handle
  have handle_moves (here : Nat) : Moves P (insert matched L) here
      (.opened here :: .opened matched :: O) (handle ()) (Resumes O) := by
    refine .currentBlock <| .start 1 rfl ?_
    extract_lets finish
    have finish_moves (here' : Nat) : Moves P (insert matched L) here'
        (.opened here' :: .opened here :: O) (finish ()) (Resumes O) := by
      refine (Walks.flows _ admitted.body _).into fun value here _ => ?_
      refine copyIf_flows.into fun _ here _ => ?_
      exact .jump (by simp [lands]) .resume
    split
    · rename_i target found
      refine .read fun c _ => ?_
      exact (assignTo_flows _ (admitted.target target found)).into
        fun _ here' _ => finish_moves here'
    · exact finish_moves matched
  split
  · refine (testClass_moves (by simp)).bind fun _ here _ same => ?_
    subst same
    exact handle_moves here
  · rcases admitted.classes with all | ⟨u, member, clause⟩
    · refine (Moves.forM fun t member here => ?_).bind fun _ here _ same => ?_
      · exact testHandled_moves (all t member) (by simp)
      · subst same
        exact handle_moves here
    · exact (Fails.forM member
        (testHandled_fails clause (Walks.refuses (P := P) _ clause true))).first.moves

/-- What no handler takes leaves by a jump. -/
theorem lowerHandlers_moves {handlers : List Handler} {join : Nat}
    (admitted : ∀ h ∈ handlers, h.Admitted G) (lands : join ∈ L) :
    Moves P L here (.opened here :: O) (lowerHandlers walk handlers result join)
      fun _ _ O' => O' = O := by
  refine (Moves.forM fun h member here => ?_).bind fun _ here _ same => ?_
  · exact lowerHandler_moves (admitted h member) lands
  · subst same
    exact .read fun c obeys => jumpWith_moves obeys.targets.rescueTo

omit [P.Stable] admits in
theorem lowerElse_flows {otherwise : Option Tree} {value : Operand}
    (admitted : ∀ t, otherwise = some t → G t) :
    Flows P (lowerElse walk otherwise value want) Whatever := by
  cases otherwise with
  | none => exact .pure trivial
  | some t => exact Walks.flows t (admitted t rfl) want

/-- How control flows through the body itself is left to a hypothesis. -/
theorem lowerProtected_moves {body : Tree} {handlers : List Handler} {otherwise : Option Tree}
    (body_moves : ∀ L' O', L ⊆ L' →
      Moves P L' here (.opened here :: O') (walk body result.isSome) (Resumes O'))
    (handlers_admitted : ∀ h ∈ handlers, h.Admitted G)
    (otherwise_admitted : ∀ t, otherwise = some t → G t) :
    Moves P L here (.opened here :: O) (lowerProtected walk body handlers otherwise result)
      (Resumes O) := by
  unfold lowerProtected
  dsimp only
  split
  · refine (body_moves L O subset_rfl).bind ?_
    rintro value here' _ rfl
    refine (lowerElse_flows otherwise_admitted).into fun value here' _ => ?_
    exact (copyIf_flows _ _ _).weaken fun _ _ _ same => same.1
  · refine .reserve fun catcher => .reserve fun join => .read fun c obeys => ?_
    have inner : { c.targets with rescueTo := catcher }.Obey (insert join (insert catcher L)) :=
      { obeys.targets with rescueTo := by simp }
    refine (Moves.withTargets inner (body_moves _ _ ?_)).bind ?_
    · exact (Set.subset_insert _ _).trans (Set.subset_insert _ _)
    rintro value here' _ rfl
    refine (lowerElse_flows otherwise_admitted).into fun value here' _ => ?_
    refine copyIf_flows.into fun _ here' _ => .jump (by simp) ?_
    refine .start 1 rfl ?_
    refine (lowerHandlers_moves handlers_admitted (by simp)).bind ?_
    rintro _ here' _ rfl
    exact .resume

theorem lowerProtected_flows {body : Tree} {handlers : List Handler} {otherwise : Option Tree}
    (body_admitted : G body) (handlers_admitted : ∀ h ∈ handlers, h.Admitted G)
    (otherwise_admitted : ∀ t, otherwise = some t → G t) :
    Flows P (lowerProtected walk body handlers otherwise result) Whatever := by
  intro L here O
  refine (lowerProtected_moves (fun L' O' _ => ?_) handlers_admitted
    otherwise_admitted).weaken fun _ _ _ same => ⟨same, trivial⟩
  exact (Walks.flows _ body_admitted _ L' here O').weaken fun _ _ _ same => same.1

end

/-! Copies of an `ensure` clause. -/

/-- Copies of the clause are made one by one. The policy may know which blocks they start in. -/
def Copies (P : Set Nat → Policy) (walk : Walk) (ensure : Tree) : Prop :=
  ∀ (C L : Set Nat) (here : Nat) (O : List Stub) (flags : EdgeFlags) (target : Nat) (α : Type)
    (f : BlockId → Lower α) (Q : α → Nat → List Stub → Prop), target ∈ L →
    (∀ b here', Moves (P (insert b C)) (insert b L) here' O (f b) Q) →
    Moves (P C) L here O (ensureCopy walk ensure flags target >>= f) Q

section

variable {P : Set Nat → Policy} {C : Set Nat} {ensure : Tree} (copies : Copies P walk ensure)

include copies

theorem Copies.option {target : Option BlockId} {α : Type} {f : Option BlockId → Lower α}
    {Q : α → Nat → List Stub → Prop} (lands : ∀ b, target = some b → b ∈ L)
    (rest : ∀ (C' L' : Set Nat) (copy : Option BlockId) (here' : Nat), C ⊆ C' → L ⊆ L' →
      (∀ b, copy = some b → b ∈ C' ∧ b ∈ L') → Moves (P C') L' here' O (f copy) Q) :
    Moves (P C) L here O (ensureCopy? walk ensure target >>= f) Q := by
  cases target with
  | none =>
    change Moves (P C) L here O (pure none >>= f) Q
    rw [pure_bind]
    exact rest C L none here subset_rfl subset_rfl (by simp)
  | some b =>
    change Moves (P C) L here O (some <$> ensureCopy walk ensure .none b >>= f) Q
    rw [bind_map_left]
    refine copies _ _ _ _ _ _ _ _ _ (lands b rfl) fun copy here' => ?_
    exact rest _ _ _ here' (Set.subset_insert _ _) (Set.subset_insert _ _) (by simp)

/-- Inside a body with an `ensure` clause every jump goes to a copy of the clause. -/
theorem throughEnsure_moves {α : Type} {f : Targets → Lower α} {Q : α → Nat → List Stub → Prop}
    (rest : ∀ (C' L' : Set Nat) (targets : Targets), C ⊆ C' → L ⊆ L' → targets.Obey C' →
      targets.Obey L' → Moves (P C') L' here O (f targets) Q) :
    Moves (P C) L here O (throughEnsure walk ensure >>= f) Q := by
  unfold throughEnsure
  simp only [bind_assoc, pure_bind]
  refine .read fun c obeys => .currentBlock ?_
  obtain ⟨breakTo, nextTo, redoTo, returnTo, rescueTo, yieldFailTo⟩ := obeys.targets
  refine copies.option breakTo fun C₁ L₁ toBreak _ known₁ le₁ in₁ => ?_
  refine copies.option (fun b is => le₁ (nextTo b is)) fun C₂ L₂ toNext _ known₂ le₂ in₂ => ?_
  refine copies.option (fun b is => le₂ (le₁ (redoTo b is))) fun C₃ L₃ toRedo _ known₃ le₃ in₃ => ?_
  have known : C ⊆ C₃ := known₁.trans (known₂.trans known₃)
  have le : L ⊆ L₃ := le₁.trans (le₂.trans le₃)
  refine copies _ _ _ _ _ _ _ _ _ (le returnTo) fun toReturn _ => ?_
  refine copies _ _ _ _ _ _ _ _ _ (by simp [le rescueTo]) fun toRescue _ => ?_
  refine copies _ _ _ _ _ _ _ _ _ (by simp [le yieldFailTo]) fun toYieldFail _ => ?_
  have grown (S : Set Nat) : S ⊆ insert toYieldFail (insert toRescue (insert toReturn S)) :=
    fun b member => by simp [member]
  refine .startAny <| rest _ _ _ (known.trans (grown _)) (le.trans (grown _)) ?_ ?_
  · exact { breakTo := fun b is => grown _ (known₃ (known₂ (in₁ b is).1))
            nextTo := fun b is => grown _ (known₃ (in₂ b is).1)
            redoTo := fun b is => grown _ (in₃ b is).1
            returnTo := by simp, rescueTo := by simp, yieldFailTo := by simp }
  · exact { breakTo := fun b is => grown _ (le₃ (le₂ (in₁ b is).2))
            nextTo := fun b is => grown _ (le₃ (in₂ b is).2)
            redoTo := fun b is => grown _ (in₃ b is).2
            returnTo := by simp, rescueTo := by simp, yieldFailTo := by simp }

end

section

omit admits in
theorem copies_of_walks {ensure : Tree} (admitted : G ensure) :
    Copies (fun _ => P) walk ensure := by
  intro C L here O flags target α f Q lands rest
  unfold ensureCopy
  simp only [bind_assoc, pure_bind]
  refine .newBlock fun b => .startAny ?_
  refine (Walks.flows _ admitted false).into fun _ here' _ => ?_
  exact .jumpWith (by simp [lands]) (rest b here')

theorem lowerBody_flows (admitted : ∀ u ∈ t.children, G u) :
    Flows P (lowerBody walk t want) Whatever := by
  intro L here O
  refine .check fun body found => .check fun clauses folded => ?_
  have clauses_fit : clauses.Admitted G :=
    clauses_admitted folded ⟨by simp [Clauses.none], by simp [Clauses.none],
      by simp [Clauses.none]⟩ fun u member => admitted u (List.mem_of_mem_drop member)
  refine tempIf_flows.into fun result here _ => ?_
  have main : Flows P (lowerProtected walk body clauses.handlers clauses.otherwise result) Whatever :=
    lowerProtected_flows (admitted body (Tree.mem_of_child found))
      clauses_fit.handlers clauses_fit.otherwise
  dsimp only
  split
  · exact main.into fun _ here _ => .pure ⟨rfl, trivial⟩
  · rename_i ensure is_ensure
    have ensure_admitted := clauses_fit.ensure ensure is_ensure
    refine throughEnsure_moves (C := ∅) (copies_of_walks ensure_admitted)
      fun _ L' targets _ _ _ obey => ?_
    refine (Moves.withTargets obey (main L' here O)).bind ?_
    rintro _ here _ ⟨rfl, -⟩
    refine (Walks.flows _ ensure_admitted false).into fun _ here _ => ?_
    exact .pure ⟨rfl, trivial⟩

theorem lowerRescueMod_flows (admitted : G t) (kind : t.kind = .rescueMod) :
    Flows P (lowerRescueMod walk t want) Whatever := by
  have child {u : Tree} {i : Nat} (found : t.child i = .ok u) : G u :=
    Admits.child admitted (by rw [kind]; decide) (Tree.mem_of_child found)
  refine .check fun fallback found => tempIf_flows.bind fun result _ => ?_
  refine .check fun body body_found => .bind (Q := Whatever) ?_ fun _ _ => .pure trivial
  refine lowerProtected_flows (child body_found) ?_ (by simp)
  have handler : (⟨[], none, fallback⟩ : Handler).Admitted G :=
    ⟨.inl (by simp), by simp, child found⟩
  simpa using handler

/-! Nodes. -/

/-- A body with clauses is left to a hypothesis. -/
theorem lowerNode_flows (admitted : G t)
    (body : t.kind = .bodyStmt → Flows P (lowerBody walk t want) Whatever) :
    Flows P (lowerNode walk t want) Whatever := by
  have child {kind : NodeKind} (same : t.kind = kind) (other : kind ≠ .bodyStmt) :
      ∀ u ∈ t.children, G u :=
    fun u member => Admits.child admitted (same ▸ other) member
  unfold lowerNode
  split <;> rename_i kind <;> try exact .throw
  · exact .check fun _ _ => .pure trivial
  · exact .pure trivial
  · exact .pure trivial
  · exact .pure trivial
  · exact .pure trivial
  · exact .read fun _ _ => .pure trivial
  · exact .check fun _ _ => variableBinding_flows.bind fun _ _ => .pure trivial
  · exact .check fun _ _ => getInstanceVariable_flows
  · exact .check fun _ _ => getGlobal_flows
  · exact lowerConstant_flows admitted
  · exact lowerConstant_flows admitted
  · exact lowerConstant_flows admitted
  · exact lowerStringBuild_flows admitted kind
  · exact lowerArray_flows admitted
  · exact lowerHash_flows admitted kind
  · exact lowerRange_flows admitted (by rw [kind]; decide)
  · exact lowerRange_flows admitted (by rw [kind]; decide)
  · exact lowerAssign_flows admitted kind
  · exact lowerOpAssign_flows admitted kind
  · exact lowerMultipleAssign_flows admitted kind
  · exact lowerCall_flows admitted kind
  · exact lowerIndex_flows admitted kind
  · exact lowerSuper_flows admitted (.inl kind)
  · exact lowerSuper_flows admitted (.inr kind)
  · exact lowerYield_flows admitted kind
  · exact lowerLambda_flows
  · exact lowerDefinition_flows
  · exact lowerReturn_flows admitted kind
  · exact lowerBreak_flows admitted kind
  · exact lowerNext_flows admitted kind
  · exact lowerRedo_flows
  · exact lowerIf_flows admitted (by rw [kind]; decide)
  · exact lowerIf_flows admitted (by rw [kind]; decide)
  · exact lowerLoop_flows admitted (by rw [kind]; decide)
  · exact lowerLoop_flows admitted (by rw [kind]; decide)
  · exact lowerCase_flows admitted kind
  · exact lowerShortCircuit_flows admitted (by rw [kind]; decide)
  · exact lowerShortCircuit_flows admitted (by rw [kind]; decide)
  · exact lowerNot_flows admitted kind
  · exact lowerDefined_flows admitted kind
  · exact lowerSequence_flows (child kind (by decide))
  · exact body kind
  · exact lowerRescueMod_flows admitted kind

omit [P.Stable] in
theorem lowerNode_fails (clause : t.kind = .ensure) : Fails (lowerNode walk t want) := by
  intro c s a s' run
  unfold lowerNode at run
  rw [clause] at run
  cases run

end

/-- Control flows through every node at every depth. -/
theorem walk_walks (limit : Nat)
    (bodies : ∀ depth t want [Walks P G (Lowering.walk limit depth)], G t → t.kind = .bodyStmt →
      Flows P (lowerBody (Lowering.walk limit depth) t want) Whatever) (depth : Nat) :
    Walks P G (Lowering.walk limit depth) := by
  induction depth with
  | zero => exact ⟨fun _ _ _ => .throw, fun _ _ _ _ _ _ _ run => by cases run⟩
  | succ depth ih =>
    refine ⟨fun t admitted want => ?_, fun t clause want => lowerNode_fails clause⟩
    exact lowerNode_flows admitted fun kind => bodies depth t want admitted kind

/-! Whole bodies. -/

/-- The blocks that belong to every graph, before anything is written to them. -/
def firstStubs : List Stub :=
  [.opened FlowGraph.enter, .opened FlowGraph.rescueBlock, .opened FlowGraph.yieldFail,
    .opened FlowGraph.failure, .opened FlowGraph.returnBlock, .opened FlowGraph.exit]

def exitStubs (finalReturn finalException : BindingId) : List Stub :=
  [.code FlowGraph.returnBlock (some (.returnWith (.binding finalReturn))) [(FlowGraph.exit, .none)],
    .code FlowGraph.failure (some (.raise (.binding finalException))) [(FlowGraph.exit, abnormal)],
    .code FlowGraph.yieldFail (some (.jump FlowGraph.failure)) [(FlowGraph.failure, abnormal)],
    .code FlowGraph.rescueBlock (some (.jump FlowGraph.failure)) [(FlowGraph.failure, abnormal)]]

/-- The blocks that belong to every graph, in the end. The first one leads into the body. -/
def lastStubs (finalReturn finalException : BindingId) (first : Nat) : List Stub :=
  exitStubs finalReturn finalException ++
    [.code FlowGraph.enter none [(first, .none)], .opened FlowGraph.exit]

abbrev prologueIn (walk : Walk) (finalReturn finalException : BindingId) (c : Context) : Lower Unit := do
  let first ← newBlock
  addEdge FlowGraph.enter first .none
  startBlock first
  paramInto c.self .receiver .method
  buildExits finalReturn finalException
  if let some b := c.block then paramInto b .block .method
  paramInto c.exception .currentException .method
  let formals ← bindFormals walk c.formals .method
  modifyGraph ({ · with formals })

theorem prologue_eq (walk : Walk) (finalReturn finalException : BindingId) :
    prologue walk finalReturn finalException =
      read >>= prologueIn walk finalReturn finalException := rfl

section

/-- A block is sealed with one edge. -/
theorem Policy.Stable.leave {g : FlowGraph} {b t : Nat} {x : Instr} (f : EdgeFlags)
    (leaves : x.leaves = true) (plain : x.site? = none) (lands : t ∈ L)
    (inv : P.invariant L g (.opened b :: O)) :
    P.invariant L ((g.pushInstr b x).addEdge b t f) (.code b (some x) [(t, f)] :: O) :=
  Stable.link (x := .code b (some x) []) f lands
    (Stable.finish leaves (by simp [plain]) inv)

theorem buildExits_moves {finalReturn finalException : BindingId} {x y : Stub}
    (to_exit : FlowGraph.exit ∈ L) (to_failure : FlowGraph.failure ∈ L) :
    Moves P L here
      (x :: y :: .opened FlowGraph.rescueBlock :: .opened FlowGraph.yieldFail ::
        .opened FlowGraph.failure :: .opened FlowGraph.returnBlock :: O)
      (buildExits finalReturn finalException)
      fun _ here' O' => here' = here ∧ O' = exitStubs finalReturn finalException ++ x :: y :: O := by
  refine .read fun c _ => .read fun c' _ => ?_
  intro _ s _ at_here inv _ s' run
  obtain ⟨-, rfl⟩ := EStateM.Result.ok.inj run
  have rescued := Stable.leave (x := .jump FlowGraph.failure) abnormal rfl rfl to_failure
    (Stable.front 2 rfl inv)
  have failed := Stable.leave (x := .jump FlowGraph.failure) abnormal rfl rfl to_failure
    (Stable.front 3 rfl rescued)
  have stored := Stable.emit (x := .assign finalException (.binding c.exception)) rfl
    (by simp [Instr.site?]) (Stable.front 4 rfl failed)
  have raised := Stable.leave (x := .raise (.binding finalException)) abnormal rfl rfl to_exit stored
  have kept := Stable.emit (x := .assign finalReturn (.binding c'.result)) rfl
    (by simp [Instr.site?]) (Stable.front 5 rfl raised)
  have returned := Stable.leave (x := .returnWith (.binding finalReturn)) .none rfl rfl to_exit kept
  refine ⟨exitStubs finalReturn finalException ++ x :: y :: O, ⟨at_here, rfl⟩, ?_⟩
  dsimp only [List.foldl_cons, List.foldl_nil]
  exact returned

omit admits in
/-- The prologue for one context, because the formals are those of the context. -/
theorem prologue_invariant {c : Context} {s s' : State} {finalReturn finalException : BindingId}
    (obeys : c.Obeys P L)
    (defaults : ∀ name default, Formal.optional name default ∈ c.formals → G default)
    (to_exit : FlowGraph.exit ∈ L) (to_failure : FlowGraph.failure ∈ L)
    (inv : P.invariant L s.graph firstStubs)
    (run : prologue walk finalReturn finalException c s = .ok () s') :
    ∃ first, P.invariant L s'.graph
      (.opened s'.current :: lastStubs finalReturn finalException first) := by
  have rest : Flows P (do
      paramInto c.exception .currentException .method
      let formals ← bindFormals walk c.formals .method
      modifyGraph ({ · with formals })) Whatever := by
    refine paramInto_flows.bind fun _ _ => ?_
    refine (bindFormals_flows defaults).bind fun formals _ => ?_
    exact .updateGet (fun _ => rfl) (fun _ => rfl) (fun _ => rfl) fun _ => trivial
  suffices whole : Moves P L s.current firstStubs (prologueIn walk finalReturn finalException c)
      fun _ here O' => ∃ first, O' = .opened here :: lastStubs finalReturn finalException first by
    rw [prologue_eq] at run
    obtain ⟨_, ⟨first, rfl⟩, inv'⟩ := whole c s obeys rfl inv () s' (run_read run)
    exact ⟨first, inv'⟩
  unfold prologueIn firstStubs
  refine .reserve fun first => ?_
  refine .link (x := .opened FlowGraph.enter) (by simp) <| .start 1 rfl ?_
  refine paramInto_flows.into fun _ here _ => ?_
  refine (buildExits_moves (by simp [to_exit]) (by simp [to_failure])).bind ?_
  rintro _ _ _ ⟨rfl, rfl⟩
  refine .front 4 (x := .opened _) rfl ?_
  refine Moves.weaken (Q := fun _ here' O' =>
    O' = .opened here' :: lastStubs finalReturn finalException first ∧ True) ?_
    fun _ _ _ same => ⟨first, same.1⟩
  split
  · exact paramInto_flows.into fun _ here _ => rest _ here _
  · exact rest _ _ _

omit admits in
/-- What lowering a whole body leaves of the blocks that belong to every graph. -/
theorem lowerWhole_invariant {body : Tree} {c : Context} {s s' : State}
    {finalReturn finalException : BindingId} (obeys : c.Obeys P L) (body_admitted : G body)
    (defaults : ∀ name default, Formal.optional name default ∈ c.formals → G default)
    (to_exit : FlowGraph.exit ∈ L) (to_failure : FlowGraph.failure ∈ L)
    (to_return : FlowGraph.returnBlock ∈ L) (inv : P.invariant L s.graph firstStubs)
    (run : lowerWhole walk body finalReturn finalException c s = .ok () s') :
    ∃ first, P.invariant L s'.graph (lastStubs finalReturn finalException first) := by
  unfold lowerWhole at run
  obtain ⟨_, s₁, run₁, run₂⟩ := run_bind run
  obtain ⟨first, inv₁⟩ :=
    prologue_invariant obeys defaults to_exit to_failure inv run₁
  have rest : Moves P L s₁.current
      (.opened s₁.current :: lastStubs finalReturn finalException first) (do
        let value ← walk body true
        copy (← read).result value
        jump FlowGraph.returnBlock : Lower Unit)
      fun _ _ O' => O' = lastStubs finalReturn finalException first := by
    refine (Walks.flows body body_admitted true).into fun value here _ => ?_
    refine .read fun c _ => ?_
    exact copy_flows.into fun _ here _ => jump_moves to_return
  obtain ⟨_, rfl, inv'⟩ := rest c s₁ obeys rfl inv₁ () s' run₂
  exact ⟨first, inv'⟩

end

end ScriptFlow.Lowering
