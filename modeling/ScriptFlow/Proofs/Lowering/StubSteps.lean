import Mathlib.Data.List.Perm.Basic
import ScriptFlow.Proofs.Lowering.Stubs

/-! How the elementary steps of a lowering open, write and seal stubs. -/

namespace ScriptFlow.Lowering

open Policy

variable {name : String} {want : Bool} {x : Stub} {b t : Nat} {site : CallSite}
variable {P : Policy} [P.Stable] {α β : Type} {L : Set Nat} {here : Nat} {O : List Stub}

/-! Steps that change no block. -/

theorem Flows.updateGet {f : State → α × State} {Q : α → Prop}
    (blocks : ∀ s, (f s).2.graph.blocks = s.graph.blocks)
    (instrs : ∀ s, (f s).2.graph.instrs = s.graph.instrs)
    (stays : ∀ s, (f s).2.current = s.current) (post : ∀ s, Q (f s).1) :
    Flows P (modifyGet f : Lower α) Q := by
  intro L here O c s _ at_here inv a s' run
  cases run
  refine ⟨_, ⟨?_, post s⟩, Stable.same inv (blocks s) (instrs s)⟩
  rw [stays, at_here]

theorem newBinding_flows {kind : BindingKind} : Flows P (newBinding name kind) Whatever :=
  .updateGet (fun _ => rfl) (fun _ => rfl) (fun _ => rfl) fun _ => trivial

theorem newTemp_flows : Flows P newTemp Whatever := by
  refine .bind (Q := Whatever)
    (.updateGet (fun _ => rfl) (fun _ => rfl) (fun _ => rfl) fun _ => trivial) fun _ _ => ?_
  exact .get fun _ => newBinding_flows

/-- A temporary may be made while no block is open. -/
theorem Moves.newTemp {f : BindingId → Lower β} {R : β → Nat → List Stub → Prop}
    (rest : ∀ t, Moves P L here O (f t) R) : Moves P L here O (Lowering.newTemp >>= f) R := by
  intro c s obeys at_here inv a s' run
  obtain ⟨t, s₁, run₁, run⟩ := run_bind run
  have blocks : s₁.graph.blocks = s.graph.blocks := by cases run₁; rfl
  have instrs : s₁.graph.instrs = s.graph.instrs := by cases run₁; rfl
  have stays : s₁.current = s.current := by cases run₁; rfl
  exact rest t c s₁ obeys (stays.trans at_here) (Stable.same inv blocks instrs) a s' run

theorem tempIf_flows : Flows P (tempIf want) fun t => (want && t.isNone) = false := by
  unfold tempIf
  split
  · exact newTemp_flows.bind fun _ _ => .pure (by simp)
  · rename_i unwanted
    exact .pure (by simp [unwanted])

theorem variableBinding_flows : Flows P (variableBinding name) Whatever := by
  refine .get fun s => ?_
  split
  · exact .pure trivial
  · refine newBinding_flows.bind fun b _ => .bind (Q := Whatever) ?_ fun _ _ => .pure trivial
    exact .updateGet (fun _ => rfl) (fun _ => rfl) (fun _ => rfl) fun _ => trivial

theorem registerLiteral_flows {t : BlockTree} {lambda : Bool} :
    Flows P (registerLiteral t lambda) Whatever :=
  .updateGet (fun _ => rfl) (fun _ => rfl) (fun _ => rfl) fun _ => trivial

theorem report_flows {kind : FindingKind} {message : String} :
    Flows P (report kind message) Whatever :=
  .currentBlock fun _ =>
    .updateGet (fun _ => rfl) (fun _ => rfl) (fun _ => rfl) fun _ => trivial

/-! Opening blocks. -/

/-- Puts the stub at a place to the front. -/
theorem Policy.Stable.front (k : Nat) {g : FlowGraph} (found : O[k]? = some x)
    (inv : P.invariant L g O) : P.invariant L g (x :: O.eraseIdx k) := by
  obtain ⟨inside, same⟩ := List.getElem?_eq_some_iff.mp found
  have moved := (List.getElem_cons_eraseIdx_perm inside).symm
  rw [same] at moved
  exact Stable.perm inv moved

omit [P.Stable] in
theorem run_newBlock (c : Context) (s : State) : newBlock c s = .ok s.graph.blocks.size
    { s with
      blockCount := s.blockCount + 1
      graph := (s.graph.pushBlock ("B" ++ toString (s.blockCount + 1))).2 } :=
  rfl

namespace Moves

variable {R : β → Nat → List Stub → Prop}

/-- A larger set of blocks to lead to may be used on the way. -/
theorem grow {L' : Set Nat} {act : Lower β} {c : Context} {s s' : State} {b : β}
    (moves : Moves P L' here O act R) (run : act c s = .ok b s') (le : L ⊆ L') (obeys : c.Obeys P L)
    (at_here : s.current = here) (inv : P.invariant L' s.graph O) :
    ∃ O', R b s'.current O' ∧ P.invariant L s'.graph O' := by
  obtain ⟨O', post, inv'⟩ := moves c s (obeys.mono le) at_here inv b s' run
  exact ⟨O', post, Stable.mono inv' le⟩

theorem newBlock {f : BlockId → Lower β}
    (rest : ∀ b, Moves P (insert b L) here (.opened b :: O) (f b) R) :
    Moves P L here O (Lowering.newBlock >>= f) R := by
  intro c s obeys at_here inv a s' run
  obtain ⟨b, s₁, run₁, run⟩ := run_bind run
  rw [run_newBlock] at run₁
  obtain ⟨rfl, rfl⟩ := EStateM.Result.ok.inj run₁
  exact (rest _).grow run (Set.subset_insert _ _) obeys at_here (Stable.pushBlock _ inv)

/-- A block is opened for later, and control stays where it is. -/
theorem reserveNew {f : BlockId → Lower β}
    (rest : ∀ b, b ∉ L → Moves P (insert b L) here (x :: .opened b :: O) (f b) R) :
    Moves P L here (x :: O) (Lowering.newBlock >>= f) R := by
  intro c s obeys at_here inv a s' run
  obtain ⟨b, s₁, run₁, run⟩ := run_bind run
  rw [run_newBlock] at run₁
  obtain ⟨rfl, rfl⟩ := EStateM.Result.ok.inj run₁
  exact (rest _ fun known => Nat.lt_irrefl _ (Stable.inside inv known)).grow run
    (Set.subset_insert _ _) obeys at_here (Stable.perm (Stable.pushBlock _ inv) (.swap _ _ _))

theorem reserve {f : BlockId → Lower β}
    (rest : ∀ b, Moves P (insert b L) here (x :: .opened b :: O) (f b) R) :
    Moves P L here (x :: O) (Lowering.newBlock >>= f) R :=
  reserveNew fun b _ => rest b

theorem reserveNamed {f : BlockId → Lower β}
    (rest : ∀ b, Moves P (insert b L) here (x :: .opened b :: O) (f b) R) :
    Moves P L here (x :: O) (Lowering.namedBlock name >>= f) R := by
  intro c s obeys at_here inv a s' run
  exact (rest _).grow (s := { s with graph := (s.graph.pushBlock name).2 }) run
    (Set.subset_insert _ _) obeys at_here (Stable.perm (Stable.pushBlock _ inv) (.swap _ _ _))

theorem reserveExit {f : BlockId → Lower β}
    (rest : ∀ b, Moves P (insert b L) here (x :: .exit b [] :: O) (f b) R) :
    Moves P L here (x :: O) (Lowering.namedBlock (name ++ "-Exit") >>= f) R := by
  intro c s obeys at_here inv a s' run
  exact (rest _).grow (s := { s with graph := (s.graph.pushBlock (name ++ "-Exit")).2 }) run
    (Set.subset_insert _ _) obeys at_here (Stable.perm (Stable.pushExit _ inv) (.swap _ _ _))

theorem front (k : Nat) {act : Lower β} (found : O[k]? = some x)
    (rest : Moves P L here (x :: O.eraseIdx k) act R) : Moves P L here O act R :=
  fun c s obeys at_here inv => rest c s obeys at_here (Stable.front k found inv)

/-- Goes on in a block that was opened before. -/
theorem start (k : Nat) {act : Lower β} (found : O[k]? = some (.opened b))
    (rest : Moves P L b (.opened b :: O.eraseIdx k) act R) :
    Moves P L here O (Lowering.startBlock b >>= fun _ => act) R :=
  front k found fun c s obeys _ inv a s' run =>
    rest c { s with current := b } obeys rfl inv a s' run

omit [P.Stable] in
theorem startAny {act : Lower β} (rest : Moves P L b O act R) :
    Moves P L here O (Lowering.startBlock b >>= fun _ => act) R :=
  fun c s obeys _ inv a s' run => rest c { s with current := b } obeys rfl inv a s' run

/-! Edges. -/

theorem link {f : EdgeFlags} {act : Lower β} (lands : t ∈ L)
    (rest : Moves P L here (x.link t f :: O) act R) :
    Moves P L here (x :: O) (Lowering.addEdge x.block t f >>= fun _ => act) R :=
  fun c s obeys at_here inv a s' run =>
    rest c { s with graph := s.graph.addEdge x.block t f } obeys at_here (Stable.link f lands inv) a
      s' run

theorem close {act : Lower β} (complete : x.Complete) (rest : Moves P L here O act R) :
    Moves P L here (x :: O) act R :=
  fun c s obeys at_here inv => rest c s obeys at_here (Stable.close complete inv)

theorem finish {x : Instr} {act : Lower β} (leaves : x.leaves = true)
    (calls : ∀ s, x.site? = some s → P.calls s.method)
    (rest : Moves P L here (.code here (some x) [] :: O) act R) :
    Moves P L here (.opened here :: O) (Lowering.emit x >>= fun _ => act) R := by
  intro c s obeys at_here inv a s' run
  subst at_here
  exact rest c { s with graph := s.graph.pushInstr s.current x } obeys rfl
    (Stable.finish leaves calls inv) a s' run

theorem jumpWith {f : EdgeFlags} {act : Lower β} (lands : t ∈ L) (rest : Moves P L here O act R) :
    Moves P L here (.opened here :: O) (Lowering.jumpWith t f >>= fun _ => act) R := by
  unfold Lowering.jumpWith
  rw [bind_assoc]
  refine finish rfl (by simp [Instr.site?]) ?_
  rw [bind_assoc]
  refine currentBlock ?_
  exact link (x := .code here _ []) lands (close (.jump _ _ _) rest)

theorem jump {act : Lower β} (lands : t ∈ L) (rest : Moves P L here O act R) :
    Moves P L here (.opened here :: O) (Lowering.jump t >>= fun _ => act) R :=
  jumpWith lands rest

theorem branch {condition : Operand} {yes no : Nat} {act : Lower β} (to_yes : yes ∈ L)
    (to_no : no ∈ L) (rest : Moves P L here O act R) :
    Moves P L here (.opened here :: O) (Lowering.branch condition yes no >>= fun _ => act) R := by
  unfold Lowering.branch
  simp only [bind_assoc]
  refine finish rfl (by simp [Instr.site?]) ?_
  refine currentBlock <| link (x := .code here _ []) to_yes ?_
  refine currentBlock <| link (x := .code here _ [(yes, .none)]) to_no ?_
  exact close (.branch _ _ _ _) rest

/-- Control goes on in a block that nothing leads to. -/
theorem startUnreachable {act : Lower β} (rest : ∀ b, Moves P (insert b L) b (.opened b :: O) act R) :
    Moves P L here O (Lowering.startUnreachable >>= fun _ => act) R := by
  unfold Lowering.startUnreachable
  rw [bind_assoc]
  exact newBlock fun b => startAny (rest b)

/-- Such a block is wasted when control goes on elsewhere. -/
theorem skipUnreachable {act : Lower β} (rest : Moves P L b O act R) :
    Moves P L here O (Lowering.startUnreachable >>= fun _ => Lowering.startBlock b >>= fun _ => act)
      R := by
  intro c s obeys _ inv a s' run
  exact rest c { s with
      blockCount := s.blockCount + 1, current := b
      graph := (s.graph.pushBlock ("B" ++ toString (s.blockCount + 1))).2 }
    obeys rfl (Stable.waste _ inv) a s' run

end Moves

theorem jumpWith_moves {f : EdgeFlags} (lands : t ∈ L) :
    Moves P L here (.opened here :: O) (jumpWith t f) fun _ _ O' => O' = O := by
  have step : Moves P L here (.opened here :: O) (jumpWith t f >>= fun _ => pure ())
      fun _ _ O' => O' = O := .jumpWith lands (.pure rfl)
  simpa using step

theorem jump_moves (lands : t ∈ L) :
    Moves P L here (.opened here :: O) (jump t) fun _ _ O' => O' = O :=
  jumpWith_moves lands

/-! Instructions. -/

theorem emit_flows {x : Instr} (stays : x.leaves = false)
    (calls : ∀ s, x.site? = some s → P.calls s.method) : Flows P (emit x) Whatever := by
  intro L here O c s _ at_here inv a s' run
  cases run
  subst at_here
  exact ⟨_, ⟨rfl, trivial⟩, Stable.emit stays calls inv⟩

theorem copy_flows {target : Nat} {source : Operand} : Flows P (copy target source) Whatever :=
  emit_flows rfl (by simp [Instr.site?])

theorem copyIf_flows {target : Option BindingId} {source : Operand} :
    Flows P (copyIf target source) Whatever := by
  cases target with
  | none => exact .pure trivial
  | some t => exact copy_flows

theorem paramInto_flows {target : Nat} {p : Param} {frame : Frame} :
    Flows P (paramInto target p frame) Whatever :=
  emit_flows rfl (by simp [Instr.site?])

theorem newParam_flows {p : Param} {frame : Frame} : Flows P (newParam p frame) Whatever :=
  newTemp_flows.bind fun _ _ => paramInto_flows.bind fun _ _ => .pure trivial

/-! Calls. -/

/-- The way of an exception: it is read where it lands, and goes on to the rescue target. -/
theorem landing_moves {act : Nat → Lower α} {Q : α → Nat → List Stub → Prop}
    (rest : ∀ landing here', landing ∉ L →
      Moves P (insert landing L) here' (x.link landing abnormal :: O) (act landing) Q) :
    Moves P L here (x :: O) (do
      let landing ← newBlock
      addEdge x.block landing abnormal
      startBlock landing
      paramInto (← read).exception .justRaised .method
      jumpWith (← read).targets.rescueTo abnormal
      act landing) Q := by
  refine .reserveNew fun landing new => .link (by simp) <| .start 1 rfl ?_
  refine .read fun c obeys => paramInto_flows.into fun _ here' _ => ?_
  exact .read fun c obeys => .jumpWith obeys.targets.rescueTo (rest landing here' new)

/-- After a call that may raise, the block that the exception lands in is complete, and control goes
on in a fresh block. The calling block has its two edges. -/
theorem raiseEdge_moves {x : Instr} {act : Lower α} {Q : α → Nat → List Stub → Prop}
    (rest : ∀ landing after, after ≠ landing →
      Moves P (insert after (insert landing L)) after
        (.opened after :: .code here (some x) [(landing, abnormal), (after, .none)] :: O) act Q) :
    Moves P L here (.code here (some x) [] :: O) (raiseEdge true >>= fun _ => act) Q := by
  have shape : (raiseEdge true >>= fun _ => act) = (do
      let origin ← currentBlock
      let landing ← newBlock
      addEdge origin landing abnormal
      startBlock landing
      paramInto (← read).exception .justRaised .method
      jumpWith (← read).targets.rescueTo abnormal
      let after ← newBlock
      addEdge origin after .none
      startBlock after
      act) := by
    simp [raiseEdge]
  rw [shape]
  refine .currentBlock <| landing_moves (x := .code here (some x) []) fun landing _ _ => ?_
  refine .reserveNew fun after new => ?_
  have other : after ≠ landing := fun same => new (by simp [same])
  have absent : after ∉ [(landing, abnormal)].map (·.1) := by simpa using other
  refine .link (x := .code here (some x) [(landing, abnormal)]) (by simp) ?_
  refine .start 1 rfl ?_
  rw [Stub.link, FlowGraph.link_new absent]
  exact rest landing after other

/-- An exception leaves a block, and control goes on elsewhere. -/
theorem raiseEdge_away_moves {act : Lower α} {Q : α → Nat → List Stub → Prop}
    (rest : ∀ landing, landing ∉ L →
      Moves P (insert landing L) b (x.link landing abnormal :: O) act Q) :
    Moves P L x.block (x :: O) (raiseEdge false >>= fun _ => startBlock b >>= fun _ => act) Q := by
  have shape : (raiseEdge false >>= fun _ => startBlock b >>= fun _ => act) = (do
      let origin ← currentBlock
      let landing ← newBlock
      addEdge origin landing abnormal
      startBlock landing
      paramInto (← read).exception .justRaised .method
      jumpWith (← read).targets.rescueTo abnormal
      startUnreachable
      startBlock b
      act) := by
    simp [raiseEdge]
  rw [shape]
  refine .currentBlock <| landing_moves fun landing _ new => ?_
  exact .skipUnreachable (rest landing new)

/-- The target of a call: a new temporary if a value is wanted and the site names none. -/
abbrev callTarget (site : CallSite) (want : Bool) : Lower (Option BindingId) :=
  if want && site.target.isNone then tempIf true else pure site.target

omit [P.Stable] in
theorem emitCall_of_raises (raises : site.mayRaise = true) (want : Bool) :
    emitCall site want = (do
      let target ← callTarget site want
      emit (.call { site with target })
      raiseEdge true
      pure (valueOf target)) := by
  cases fresh : want && site.target.isNone <;> simp [emitCall, callTarget, raises, fresh]

omit [P.Stable] in
theorem emitCall_of_safe (safe : site.mayRaise = false) (want : Bool) :
    emitCall site want = (do
      let target ← callTarget site want
      emit (.call { site with target })
      pure (valueOf target)) := by
  cases fresh : want && site.target.isNone <;> simp [emitCall, callTarget, safe, fresh]

/-- A call that may raise, before its block is sealed. -/
theorem emitCall_moves {f : Operand → Lower α}
    {Q : α → Nat → List Stub → Prop} (raises : site.mayRaise = true)
    (settled : (want && site.target.isNone) = false) (calls : P.calls site.method)
    (rest : ∀ value landing after, after ≠ landing →
      Moves P (insert after (insert landing L)) after
        (.opened after :: .code here (some (.call site)) [(landing, abnormal), (after, .none)] :: O)
        (f value) Q) :
    Moves P L here (.opened here :: O) (emitCall site want >>= f) Q := by
  rw [emitCall_of_raises raises, callTarget, settled, if_neg Bool.false_ne_true, pure_bind]
  simp only [bind_assoc, pure_bind]
  refine .finish raises (by simpa [Instr.site?] using calls) ?_
  exact raiseEdge_moves fun landing after other => rest _ landing after other

theorem callTarget_flows : Flows P (callTarget site want) Whatever := by
  unfold callTarget
  split
  · exact .any tempIf_flows
  · exact .pure trivial

theorem emitCall_flows (calls : P.calls site.method) : Flows P (emitCall site want) Whatever := by
  cases raises : site.mayRaise with
  | true =>
    rw [emitCall_of_raises raises]
    refine callTarget_flows.bind fun target _ L here O => ?_
    refine .finish raises (by simpa [Instr.site?] using calls) ?_
    refine raiseEdge_moves fun landing after _ => .front 1 rfl ?_
    exact .close (.call _ { site with target } raises _ _) <| .pure ⟨rfl, trivial⟩
  | false =>
    rw [emitCall_of_safe raises]
    refine callTarget_flows.bind fun target _ => .bind (emit_flows raises ?_) ?_
    · simpa [Instr.site?] using calls
    · exact fun _ _ => .pure trivial

theorem plainCall_flows {receiver : Operand} {method : String} {args : List Operand}
    (builtin : method ∈ builtinCalls) : Flows P (plainCall receiver method args) Whatever :=
  emitCall_flows (Stable.builtin _ builtin)

theorem raisingCall_flows {receiver : Operand} {method : String} {args : List Operand}
    {ignoreVisibility : Bool} (calls : P.calls method) :
    Flows P (raisingCall receiver method args ignoreVisibility want) Whatever :=
  emitCall_flows calls

end ScriptFlow.Lowering
