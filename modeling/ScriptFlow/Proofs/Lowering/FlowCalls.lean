import ScriptFlow.Proofs.Lowering.FlowExpressions

/-! Control flows through calls, block literals, and the literals that are built by calls. -/

namespace ScriptFlow.Lowering

open Policy

variable {want : Bool} {t : Tree}
variable {P : Policy} [P.Stable]

section

variable {G : Tree → Prop} {walk : Walk} [admits : Admits P G] [Walks P G walk]

/-- The body of a block literal is entered from the call and from its own end, and its end also
leads on behind the call. -/
theorem callWithLiteral_flows {site : CallSite} {literal : Tree} (calls : P.calls site.method)
    (admitted : G literal) : Flows P (callWithLiteral walk site literal want) Whatever := by
  intro L here O
  unfold callWithLiteral
  refine .check fun block found => ?_
  obtain ⟨body_admitted, defaults_admitted⟩ := Admits.body admitted (Tree.payload_of_block found)
  refine registerLiteral_flows.into fun ⟨index, proc⟩ here _ => ?_
  refine newBinding_flows.into fun procBinding here _ => ?_
  refine copy_flows.into fun _ here _ => ?_
  refine tempIf_flows.into fun target here settled => .currentBlock ?_
  refine emitCall_moves rfl settled calls fun value landing after other => ?_
  refine .currentBlock <| .reserveNew fun body new => .get fun s => ?_
  dsimp only
  refine .reserveExit fun bodyExit => ?_
  refine .reserveNamed fun bodyFailure => .reserveNamed fun bodyReturn => ?_
  refine .front 5 rfl ?_
  refine .link (by simp) ?_
  have absent : body ∉ [(landing, abnormal), (after, EdgeFlags.none)].map (·.1) := by
    simp at new ⊢
    tauto
  rw [Stub.link, FlowGraph.link_new absent]
  refine .close (.callBlock _ _ rfl _ _ _) <| .newTemp fun blockResult => ?_
  refine .read fun c obeys => ?_
  have outer := obeys.targets
  have inner : { c.targets with
      breakTo := some after, nextTo := some bodyReturn, redoTo := some body,
      rescueTo := bodyFailure, breakValue := target, nextValue := some blockResult }.Obey
      (insert bodyReturn (insert bodyFailure (insert bodyExit (insert body
        (insert after (insert landing L)))))) :=
    { breakTo := by simp, nextTo := by simp, redoTo := by simp
      returnTo := outer.returnTo, rescueTo := by simp, yieldFailTo := outer.yieldFailTo }
  refine (Moves.withTargets inner (Q := fun _ _ O' => O' = .opened after :: .opened bodyReturn ::
    .opened bodyFailure :: .exit bodyExit [] :: O) ?_).bind ?_
  · refine .start 4 rfl ?_
    refine (bindFormals_flows defaults_admitted).into fun _ here _ => ?_
    refine (Walks.flows _ body_admitted true).into fun result here _ => ?_
    exact copy_flows.into fun _ here _ => jump_moves (by simp)
  · rintro _ here _ rfl
    refine .start 1 rfl <| .finish rfl (by simp [Instr.site?]) ?_
    refine .link (x := .code bodyReturn _ []) (by simp) <| .close (.returnWith _ _ _) ?_
    refine .start 1 rfl <| .read fun c _ => .finish rfl (by simp [Instr.site?]) ?_
    refine .link (x := .code bodyFailure _ []) (by simp) <| .close (.raise _ _ _) ?_
    refine .front 1 rfl <| .startAny ?_
    refine .link (x := .exit bodyExit []) (by simp) ?_
    refine .link (x := .exit bodyExit [(body, blockTaken)]) (by simp) ?_
    have distinct : after ∉ [(body, blockTaken)].map (·.1) := by
      simp at absent ⊢
      tauto
    rw [Stub.link, FlowGraph.link_new distinct]
    refine raiseEdge_away_moves (x := .exit bodyExit _) fun landing new => ?_
    have fresh : landing ∉ [(body, blockTaken), (after, EdgeFlags.none)].map (·.1) := by
      simp at new ⊢
      tauto
    rw [Stub.link, List.singleton_append, FlowGraph.link_new fresh]
    exact .close (.exit _ _ _ _) <| .pure ⟨rfl, trivial⟩

theorem finishCall_flows {site : CallSite} {block : Option Tree}
    (calls : P.calls site.method) (admitted : ∀ t, block = some t → G t) :
    Flows P (finishCall walk site block want) Whatever := by
  unfold finishCall
  split
  · exact emitCall_flows calls
  · rename_i b
    have admitted := admitted b rfl
    split
    · exact callWithLiteral_flows calls admitted
    · rename_i kind
      refine .check fun inner found => ?_
      have inner_admitted := Admits.child admitted (by rw [kind]; decide) (Tree.mem_of_child found)
      refine (Walks.flows inner inner_admitted true).bind fun value _ => ?_
      refine (convert_flows (by decide)).bind fun proc _ => ?_
      exact emitCall_flows calls
    · exact .throw

omit [P.Stable] admits in
theorem lowerReceiver_flows (admitted : G t) : Flows P (lowerReceiver walk t) Whatever := by
  unfold lowerReceiver
  split
  · exact .read fun c _ => .pure trivial
  · exact (Walks.flows t admitted true).bind fun _ _ => .pure trivial

theorem lowerCall_flows (admitted : G t) (kind : t.kind = .call) :
    Flows P (lowerCall walk t want) Whatever := by
  have child {u : Tree} (member : u ∈ t.children) : G u :=
    Admits.child admitted (by rw [kind]; decide) member
  refine .check fun method named => .check fun first found => ?_
  have calls := Admits.method admitted (.inl kind) (Tree.payload_of_name named)
  have finish (site : CallSite) (same : site.method = method) :
      Flows P (finishCall walk site (t.child? 2) want) Whatever :=
    finishCall_flows (same ▸ calls) fun u found => child (Tree.mem_of_child? found)
  refine (lowerReceiver_flows (child (Tree.mem_of_child found))).bind
    fun ⟨receiver, implicit⟩ _ => ?_
  dsimp only
  split
  · rename_i args found
    refine (lowerArgs_flows (child (List.mem_of_getElem? found))).bind fun _ _ => ?_
    exact finish _ rfl
  · exact finish _ rfl

theorem lowerIndex_flows (admitted : G t) (kind : t.kind = .index) :
    Flows P (lowerIndex walk t want) Whatever := by
  have child {u : Tree} {i : Nat} (found : t.child i = .ok u) : G u :=
    Admits.child admitted (by rw [kind]; decide) (Tree.mem_of_child found)
  refine .check fun receiver found => ?_
  refine (Walks.flows _ (child found) true).bind fun _ _ => .check fun args found => ?_
  refine (lowerArgs_flows (child found)).bind fun _ _ => ?_
  exact emitCall_flows (Stable.builtin "[]" (by decide))

theorem variablesOf_flows {fs : List Formal} : Flows P (variablesOf fs) Whatever :=
  .any (.mapM (R := Whatever) fun _ _ => variableBinding_flows.bind fun _ _ => .pure trivial)

theorem forwardedArguments_flows : Flows P forwardedArguments Whatever := by
  refine .read fun c _ => ?_
  extract_lets formals
  split
  · exact variablesOf_flows.bind fun _ _ => .pure trivial
  · refine variablesOf_flows.bind fun before _ => ?_
    refine variableBinding_flows.bind fun middle _ => ?_
    refine variablesOf_flows.bind fun after _ => ?_
    refine arrayOf_flows.bind fun head _ => ?_
    refine (plainCall_flows (by decide)).bind fun packed _ => ?_
    split
    · exact .pure trivial
    · refine arrayOf_flows.bind fun tail _ => ?_
      exact (plainCall_flows (by decide)).bind fun _ _ => .pure trivial

theorem lowerSuper_flows (admitted : G t)
    (kind : t.kind = .super ∨ t.kind = .bareSuper) : Flows P (lowerSuper walk t want) Whatever := by
  have child {u : Tree} (member : u ∈ t.children) : G u :=
    Admits.child admitted (by rcases kind with kind | kind <;> rw [kind] <;> decide) member
  refine .read fun c here_method => ?_
  split
  · rename_i method named
    have calls := Admits.super admitted kind method (here_method ▸ named)
    extract_lets goOn
    have goOn_flows {args : Arguments} {block : Option Tree} (block_admitted : ∀ u, block = some u → G u) :
        Flows P (goOn (args, block)) Whatever :=
      .read fun c _ => finishCall_flows calls block_admitted
    split
    · refine forwardedArguments_flows.bind fun args _ => ?_
      exact goOn_flows fun u found => child (Tree.mem_of_child? found)
    · refine .check fun args found => ?_
      refine (lowerArgs_flows (child (Tree.mem_of_child found))).bind fun args _ => ?_
      exact goOn_flows fun u found => child (Tree.mem_of_child? found)
  · exact .throw

/-- The block is sealed by the jump to the handler. -/
theorem failYield_moves {L : Set Nat} {here : Nat} {O : List Stub} :
    Moves P L here (.opened here :: O) failYield fun _ _ O' => O' = O := by
  refine (plainCall_flows (by decide)).into fun error here _ => .read fun c _ => ?_
  refine copy_flows.into fun _ here _ => .read fun c obeys => ?_
  exact jumpWith_moves obeys.targets.yieldFailTo

theorem lowerYield_flows (admitted : G t) (kind : t.kind = .yield) :
    Flows P (lowerYield walk t want) Whatever := by
  intro L here O
  refine .check fun args found => ?_
  have args_admitted := Admits.child admitted (by rw [kind]; decide) (Tree.mem_of_child found)
  refine (lowerArgs_flows args_admitted).into fun _ here _ => .read fun c _ => ?_
  split
  · refine failYield_moves.bind fun _ here _ same => ?_
    subst same
    exact .startUnreachable fun b => .pure ⟨rfl, trivial⟩
  · refine .reserve fun withBlock => .reserve fun withoutBlock => ?_
    refine .reserve fun after => .branch (by simp) (by simp) <| .start 1 rfl ?_
    refine failYield_moves.bind fun _ here _ same => ?_
    subst same
    refine .start 1 rfl ?_
    refine (emitCall_flows (Stable.builtin "call" (by decide))).into fun value here _ => ?_
    exact .jump (by simp) <| .start 0 rfl <| .pure ⟨rfl, trivial⟩

theorem lowerLambda_flows : Flows P (lowerLambda t) Whatever :=
  .check fun _ _ => registerLiteral_flows.bind fun _ _ => .pure trivial

theorem lowerDefinition_flows : Flows P (lowerDefinition t want) Whatever := by
  refine .check fun block _ => ?_
  split
  · refine registerLiteral_flows.bind fun literal _ => .read fun c _ => ?_
    exact emitCall_flows (Stable.builtin "define_method" (by decide))
  · exact .throw

/-! Literals and constants. -/

omit admits in
theorem stringPart_flows (admitted : G t) : Flows P (stringPart walk t) Whatever := by
  refine (Walks.flows t admitted true).bind fun value _ => ?_
  split
  · exact .pure trivial
  · exact raisingCall_flows (Stable.builtin _ (by decide))

theorem lowerStringBuild_flows (admitted : G t) (kind : t.kind = .stringBuild) :
    Flows P (lowerStringBuild walk t) Whatever :=
  .foldlM fun _ part member =>
    (stringPart_flows (Admits.child admitted (by rw [kind]; decide) member)).bind
      fun _ _ => plainCall_flows (by decide)

theorem lowerArray_flows (admitted : G t) : Flows P (lowerArray walk t) Whatever := by
  unfold lowerArray
  split
  · exact splatArray_flows (Admits.children admitted)
  · exact (walkAll_flows (Admits.children admitted)).bind fun _ _ => arrayOf_flows

theorem storePair_flows {hash : Operand} (admitted : G t) :
    Flows P (storePair walk hash t) Whatever := by
  unfold storePair
  split
  · exact .throw
  · rename_i kind
    have child {u : Tree} {i : Nat} (found : t.child i = .ok u) : G u :=
      Admits.child admitted (by rw [not_not.mp kind]; decide) (Tree.mem_of_child found)
    refine .check fun key found => (Walks.flows _ (child found) true).bind fun _ _ => ?_
    refine .check fun value found => (Walks.flows _ (child found) true).bind fun _ _ => ?_
    exact (emitCall_flows (Stable.builtin "[]=" (by decide))).bind fun _ _ => .pure trivial

theorem lowerHash_flows (admitted : G t) (kind : t.kind = .hashLit) :
    Flows P (lowerHash walk t) Whatever := by
  refine (plainCall_flows (by decide)).bind fun hash _ => ?_
  refine .bind (.forM fun pair member => ?_) fun _ _ =>
    .pure trivial
  exact storePair_flows (Admits.child admitted (by rw [kind]; decide) member)

theorem lowerRange_flows {exclusive : Bool} (admitted : G t)
    (kind : t.kind ≠ .bodyStmt) : Flows P (lowerRange walk t exclusive) Whatever := by
  have child {u : Tree} {i : Nat} (found : t.child i = .ok u) : G u :=
    Admits.child admitted kind (Tree.mem_of_child found)
  refine .check fun first found => (Walks.flows _ (child found) true).bind fun _ _ => ?_
  refine .check fun last found => (Walks.flows _ (child found) true).bind fun _ _ => ?_
  split
  · exact .pure trivial
  · exact raisingCall_flows (Stable.builtin _ (by decide))

omit [P.Stable] in
theorem constantScope_flows (admitted : G t) : Flows P (constantScope walk t) Whatever := by
  unfold constantScope
  split
  · rename_i kind
    refine .check fun scope found => Walks.flows scope ?_ true
    exact Admits.child admitted (by rw [kind]; decide) (Tree.mem_of_child found)
  · exact .pure trivial
  · exact .read fun c _ => .pure trivial

theorem getConstant_flows {scope : Operand} {name : String} :
    Flows P (getConstant scope name) Whatever :=
  raisingCall_flows (Stable.builtin _ (by decide))

theorem lowerConstant_flows (admitted : G t) : Flows P (lowerConstant walk t) Whatever := by
  refine (constantScope_flows admitted).bind fun scope _ => ?_
  exact .check fun name _ => getConstant_flows

theorem getInstanceVariable_flows {name : String} : Flows P (getInstanceVariable name) Whatever :=
  .read fun c _ => emitCall_flows (Stable.builtin "instance_variable_get" (by decide))

theorem getGlobal_flows {name : String} : Flows P (getGlobal name) Whatever :=
  newParam_flows.bind fun _ _ => .pure trivial

end

end ScriptFlow.Lowering
