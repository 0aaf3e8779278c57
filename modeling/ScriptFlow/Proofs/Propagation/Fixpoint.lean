import ScriptFlow.Proofs.Propagation.Outcome

/-! A propagation that has come to its end is at rest. Evaluating an instruction once more changes
nothing that was found out, nor does marking edges once more, and a phi holds exactly what comes in
over the edges that are taken. -/

namespace ScriptFlow

open Relation (ReflTransGen)

variable {t : BindingId} {b : BlockId}

/-- The operands of a phi that come in over edges that were found to be taken. -/
def FlowGraph.incoming (g : FlowGraph) (b : BlockId) (os : List (BlockId × BindingId)) :
    List BindingId :=
  (os.filter fun o => (g.edge? o.1 b).any (·.executable)).map (·.2)

namespace Propagation

variable {σ : Type} {p : Propagation σ} {r r' : Run σ} {i : InstrId}

/-! Phis. -/

theorem phiValue_eq_incoming (g : FlowGraph) (b : BlockId) (os : List (BlockId × BindingId)) :
    phiValue g b os =
      ⟨((g.incoming b os).map fun v => (g.binding v).cell).foldl Cell.join .undefined,
        .joinAll ((g.incoming b os).map fun v => (g.binding v).ty)⟩ := by
  have folded : ∀ x : Component, os.foldl (phiStep g b) x =
      ⟨((g.incoming b os).map fun v => (g.binding v).cell).foldl Cell.join x.cell,
        ((g.incoming b os).map fun v => (g.binding v).ty).foldl Ty.join x.ty⟩ := by
    induction os with
    | nil => exact fun x => rfl
    | cons o os ih =>
      intro x
      rw [List.foldl_cons, ih, phiStep, FlowGraph.incoming, FlowGraph.incoming, List.filter_cons]
      split <;> rfl
  rw [phiValue_eq, folded]
  rfl

theorem phiValue_mono {g h : FlowGraph} (grows : g.Grows h) (b : BlockId)
    (os : List (BlockId × BindingId)) : (phiValue g b os).Below (phiValue h b os) := by
  refine phiValue_below_iff.mpr fun o member taken => ?_
  have above := phiValue_below_iff.mp (.refl (phiValue h b os)) o member (grows.taken _ _ taken)
  exact (grows.component o.2).trans above

/-! Types are kept in order, and phis hold no more than what comes in. -/

structure Tidy (r : Run σ) : Prop where
  types : ∀ v, (r.graph.binding v).ty.Sorted
  variables' : ∀ key t, r.graph.variableTypes.lookup key = some t → t.Sorted
  phis : ∀ i, r.graph.Listed i → ∀ t os, r.graph.instr i = .phi t os →
    (r.graph.component t).Below (phiValue r.graph (r.graph.blockOf i) os)

namespace Tidy

/-- Phis keep up with the edges that are taken and with all other bindings. -/
theorem phis_of_grows (tidy : Tidy r) (grows : r.graph.Grows r'.graph) {j : InstrId}
    (listed : r'.graph.Listed j) {os : List (BlockId × BindingId)}
    (is_phi : r'.graph.instr j = .phi t os) (same : r'.graph.component t = r.graph.component t) :
    (r'.graph.component t).Below (phiValue r'.graph (r'.graph.blockOf j) os) := by
  have outline := grows.toSameOutline
  rw [same, outline.blockOf]
  have held := tidy.phis j ((outline.listed j).mp listed) t os ((outline.instr_eq_iff rfl).mp is_phi)
  exact held.trans (phiValue_mono grows _ os)

theorem of_grows (tidy : Tidy r) (grows : r.graph.Grows r'.graph)
    (bindings : r'.graph.bindings = r.graph.bindings)
    (variables' : r'.graph.variableTypes = r.graph.variableTypes) : Tidy r' where
  types v := by
    rw [FlowGraph.binding_congr bindings]
    exact tidy.types v
  variables' := by
    rw [variables']
    exact tidy.variables'
  phis j listed t os is_phi := by
    apply tidy.phis_of_grows grows listed is_phi
    rw [FlowGraph.component, FlowGraph.binding_congr bindings]
    rfl

theorem learn (tidy : Tidy r) (operable : r.graph.Operable) (listed : r.graph.Listed i) {cell : Cell} {ty : Ty} (target : (r.graph.instr i).target? = some t)
    (phi : ∀ t os, r.graph.instr i = .phi t os →
      ⟨cell, ty⟩ = phiValue r.graph (r.graph.blockOf i) os) : Tidy (r.learn t cell ty) := by
  rw [learn_eq]
  split
  · have grows : r.graph.Grows (r.joined t cell ty).graph := FlowGraph.grows_learn r.graph t cell ty
    have joined : Tidy (r.joined t cell ty) := by
      refine ⟨fun v => ?_, tidy.variables', fun j listed' t' os is_phi => ?_⟩
      · change ((r.graph.modifyBinding t _).binding v).ty.Sorted
        rw [FlowGraph.binding_modifyBinding]
        split
        · exact (tidy.types t).join ty
        · exact tidy.types v
      · by_cases here : t = t' ∧ t < r.graph.bindings.size
        · -- only the phi itself has this target
          obtain ⟨rfl, inside⟩ := here
          have outline := grows.toSameOutline
          have is_phi₀ := (outline.instr_eq_iff rfl).mp is_phi
          have listed₀ := (outline.listed j).mp listed'
          obtain rfl : i = j := operable.single _ _ i listed j listed₀ t target (by rw [is_phi₀]; rfl)
          have held := tidy.phis i listed t os is_phi₀
          have learned := phi t os is_phi₀
          have component : (r.joined t cell ty).graph.component t =
              ⟨(r.graph.component t).cell.join cell, (r.graph.component t).ty.join ty⟩ := by
            change FlowGraph.component (r.graph.modifyBinding t _) t = _
            rw [FlowGraph.component, FlowGraph.binding_modifyBinding, if_pos ⟨rfl, inside⟩]
            rfl
          have below : Component.Below ⟨cell, ty⟩ (phiValue r.graph (r.graph.blockOf i) os) := by
            rw [learned]
            exact .refl _
          rw [component, outline.blockOf]
          apply Component.Below.trans _ (phiValue_mono grows _ os)
          refine ⟨Cell.join_le held.cell below.cell, fun m member => ?_⟩
          exact (Ty.mem_join.mp member).elim (fun old => held.ty old) fun new => below.ty new
        · apply tidy.phis_of_grows grows listed' is_phi
          change FlowGraph.component (r.graph.modifyBinding t _) t' = _
          rw [FlowGraph.component, FlowGraph.binding_modifyBinding, if_neg here]
          rfl
    obtain ⟨queue, enqueued⟩ := Run.enqueueAll_eq (r.joined t cell ty) (r.graph.binding t).uses
    rw [enqueued]
    exact joined.of_grows (.refl _) rfl rfl
  · exact tidy

theorem assignVariable (tidy : Tidy r) (ty : Ty) (key : VariableKey) :
    Tidy (r.assignVariable ty key) := by
  have aside := Aside.assignVariable r ty key
  have sorted : (r.variableType key).Sorted := by
    unfold Run.variableType
    cases found : r.graph.variableTypes.lookup key with
    | none => exact Ty.sorted_empty
    | some t => exact tidy.variables' key t found
  refine ⟨fun v => ?_, fun k t found => ?_, fun j listed t os is_phi => ?_⟩
  · rw [FlowGraph.binding_congr aside.bindings]
    exact tidy.types v
  · rw [lookup_assignVariable] at found
    split at found
    · cases found
      exact sorted.join ty
    · exact tidy.variables' k t found
  · apply tidy.phis_of_grows aside.grows listed is_phi
    rw [FlowGraph.component, FlowGraph.binding_congr aside.bindings]
    rfl

theorem marks (tidy : Tidy r) (a : BlockId) (ts : List BlockId) :
    Tidy (ts.foldl (Run.markEdge a) r) := by
  have grows := grows_marks a ts r
  obtain ⟨edges, queue, marked⟩ := exists_marks_eq a ts r
  rw [marked] at grows ⊢
  exact tidy.of_grows grows rfl rfl

theorem change (tidy : Tidy r) (operable : r.graph.Operable) (listed : r.graph.Listed i)
    (change : Change p i (r.graph.blockOf i) r r') : Tidy r' := by
  have grows := change.grows
  cases change with
  | look look =>
    cases look with
    | ask query => exact tidy.of_grows grows rfl rfl
    | read key => exact tidy.of_grows grows rfl rfl
    | write ty key => exact tidy.assignVariable ty key
  | count => exact tidy.of_grows grows rfl rfl
  | learn t cell ty target phi => exact tidy.learn operable listed target phi
  | store name value => exact tidy.of_grows grows rfl rfl
  | report f =>
    obtain ⟨findings, reported⟩ := exists_report_eq r f
    rw [reported] at grows ⊢
    exact tidy.of_grows grows rfl rfl
  | record s s' is_call same raises methods frequency => exact tidy.of_grows grows rfl rfl
  | caller => exact tidy.of_grows grows rfl rfl
  | notify => exact tidy.of_grows grows rfl rfl
  | mark c last => exact tidy.marks _ [c]

theorem changes (tidy : Tidy r) (operable : r.graph.Operable) (listed : r.graph.Listed i)
    (changes : ReflTransGen (Change p i (r.graph.blockOf i)) r r') : Tidy r' := by
  induction changes with
  | refl => exact tidy
  | tail before change ih =>
    have same := (grows_of_changes before).toSameOutline
    rw [← same.blockOf] at change
    exact ih.change (same.operable operable) ((same.listed i).mpr listed) change

/-- Tidiness is kept within graphs of one outline. -/
def Keeps (g : FlowGraph) (r r' : Run σ) : Prop :=
  g.SameOutline r.graph ∧ Tidy r → g.SameOutline r'.graph ∧ Tidy r'

theorem chains_keeps (g : FlowGraph) : Chains (Keeps (σ := σ) g) :=
  ⟨fun _ => id, fun first second before => second (first before)⟩

theorem keeps_evaluate {g : FlowGraph} (operable : g.Operable) (listed : g.Listed i) :
    Along (Keeps g) (p.evaluate i) := by
  rintro r ⟨same, tidy⟩
  have changes := p.changes_evaluate i r
  refine ⟨same.trans (grows_of_changes changes).toSameOutline, ?_⟩
  exact tidy.changes (same.operable operable) ((same.listed i).mpr listed) changes

theorem visit (tidy : Tidy r) (operable : r.graph.Operable) (b : BlockId) :
    Tidy ((p.visit b).run r).2 := by
  have chains := chains_keeps (σ := σ) r.graph
  have along : Along (Keeps r.graph)
      ((r.graph.block b).instrs.forM (p.revisit (!r.visited.contains b))) := by
    refine .forM chains fun i member => .bind chains (fun r => chains.refl r) fun _ => ?_
    refine .ite (fun _ => ?_) fun _ => .pure chains _
    apply keeps_evaluate operable
    rw [FlowGraph.Listed, (operable.placed b i member).2]
    exact member
  rw [visit_run]
  exact ((along (r.entered b) ⟨.refl _, tidy.of_grows (.refl _) rfl rfl⟩).2).marks b _

theorem step {K : Run σ → InstrId → CallSite → Prop} (tidy : Tidy r)
    (balanced : p.Balanced K .none r) : Tidy (p.step.run r).2 := by
  obtain ⟨b, rest, -, stepped⟩ | ⟨j, rest, -, instrs, stepped⟩ | ⟨-, stepped⟩ := p.step_run r
  · have next : Tidy { r with blocks := rest, steps := r.steps + 1 } :=
      tidy.of_grows (.refl _) rfl rfl
    rw [stepped]
    exact next.visit balanced.operable b
  · have taken : Tidy { r with instrs := rest, steps := r.steps + 1 } :=
      tidy.of_grows (.refl _) rfl rfl
    have listed := balanced.queued j (instrs ▸ List.mem_cons_self)
    have evaluated := keeps_evaluate (p := p) (g := r.graph) balanced.operable listed
      { r with instrs := rest, steps := r.steps + 1 } ⟨.refl _, taken⟩
    rw [stepped]
    split
    · exact evaluated.2
    · exact taken
  · rw [stepped]
    exact tidy

theorem loop {K : Run σ → InstrId → CallSite → Prop} (lasts : Lasts K) (upholds : p.Upholds K)
    (n : Nat) (tidy : Tidy r) (balanced : p.Balanced K .none r) : Tidy (p.loop n r) := by
  induction n generalizing r with
  | zero => exact tidy
  | succ n ih =>
    rw [Propagation.loop]
    split
    · exact tidy
    · exact ih (tidy.step balanced) (balanced.stepped lasts upholds)

theorem start (g : FlowGraph) (source : σ) : Tidy (.start g.resetPropagation source) := by
  have fresh : ∀ v, g.resetPropagation.component v = ⟨.undefined, .empty⟩ := by
    intro v
    rw [FlowGraph.component, FlowGraph.binding_reset]
    rfl
  refine ⟨fun v => ?_, fun key t found => ?_, fun i _ t os _ => ?_⟩
  · have ty : (g.resetPropagation.binding v).ty = .empty := congrArg Component.ty (fresh v)
    change (g.resetPropagation.binding v).ty.Sorted
    rw [ty]
    exact Ty.sorted_empty
  · cases found
  · change (g.resetPropagation.component t).Below _
    rw [fresh]
    exact ⟨rfl, List.nil_subset _⟩

end Tidy

/-! Doing the same again. -/

/-- Neither what is known of bindings nor what is recorded of calls is changed, nor the edges that
are taken, nor the types of instance variables. -/
structure Unmoved (r r' : Run σ) : Prop where
  bindings : r'.graph.bindings = r.graph.bindings
  instrs : r'.graph.instrs = r.graph.instrs
  blocks : r'.graph.blocks = r.graph.blocks
  variables' : r'.graph.variableTypes = r.graph.variableTypes
  callers : ∀ i, i ∈ r'.blockCallers ↔ i ∈ r.blockCallers

theorem Unmoved.refl (r : Run σ) : Unmoved r r := ⟨rfl, rfl, rfl, rfl, fun _ => Iff.rfl⟩

/-- Nothing is learned from what is known. -/
theorem learn_of_below {x : Component} (sorted : (r.graph.binding t).ty.Sorted)
    (below : x.Below (r.graph.component t)) : r.learn t x.cell x.ty = r := by
  rw [learn_eq, if_neg]
  rintro (cell | ty)
  · exact cell (Cell.join_eq_left_iff.mpr below.cell)
  · rw [Ty.extend_of_join_eq (sorted.join_eq below.ty)] at ty
    cases ty

theorem putVariable_of_lookup {α : Type} {key : VariableKey} {a : α} {es : List (VariableKey × α)}
    (found : es.lookup key = some a) : Run.putVariable key a es = es := by
  induction es with
  | nil => cases found
  | cons e es ih =>
    obtain ⟨k, b⟩ := e
    rw [Run.putVariable]
    split
    · rename_i here
      change k = key at here
      rw [here, List.lookup_cons_self] at found
      cases found
      rw [here]
    · rename_i other
      rw [List.lookup_cons, beq_eq_false_iff_ne.mpr fun same => other same.symm] at found
      rw [ih found]

theorem assignVariable_of_lookup {key : VariableKey} {t ty : Ty}
    (found : r.graph.variableTypes.lookup key = some t) (sorted : t.Sorted)
    (there : ty.members ⊆ t.members) : r.assignVariable ty key = r := by
  have known : r.variableType key = t := by rw [Run.variableType, found, Option.getD_some]
  have same : t.join ty = t := sorted.join_eq there
  rw [assignVariable_eq, known, Ty.extend_of_join_eq same, if_neg Bool.false_ne_true, Run.assigned,
    known, same, putVariable_of_lookup found]

theorem assignVariables_of_lookup (tidy : Tidy r) {ty : Ty} {keys : List VariableKey}
    (there : ∀ key ∈ keys, ∃ t, r.graph.variableTypes.lookup key = some t ∧ ty.members ⊆ t.members) :
    keys.foldl (Run.assignVariable ty) r = r := by
  induction keys with
  | nil => rfl
  | cons key keys ih =>
    obtain ⟨t, found, more⟩ := there key List.mem_cons_self
    rw [List.foldl_cons, assignVariable_of_lookup found (tidy.variables' key t found) more]
    exact ih fun k member => there k (List.mem_cons_of_mem key member)

/-- A deed whose traces are there leaves no new ones. -/
theorem Deed.Noted.exists_perform_eq {call : Call} {d : Deed} (noted : d.Noted p call r)
    (tidy : Tidy r) : ∃ readers, ((d.perform p call).run r).2 = { r with readers } := by
  cases d with
  | answer e => exact ⟨_, rfl⟩
  | read name methods =>
    rw [perform, readVariable_snd]
    exact exists_addReaders_eq _ _ r
  | write name value methods =>
    rw [perform, writeVariable_run]
    exact ⟨_, assignVariables_of_lookup tidy noted⟩

/-- Recording what is known of a call changes nothing. -/
theorem Evaluation.Known.unmoved_record {x : Evaluation} {s : CallSite} (known : x.Known r i s)
    (types : ∀ v, (r.graph.binding v).ty.Sorted) (is_call : r.graph.instr i = .call s) (b : BlockId) :
    Unmoved r (record i b s x r) := by
  obtain ⟨findings, noted⟩ := exists_arityNoted_eq b x i s r
  rw [known.site, FlowGraph.setInstr_of_instr is_call] at noted
  obtain ⟨blocks, raised⟩ := exists_raiseNoted_eq b s x (targetLearned s x
    (arityNoted i b s x (blockNoted i x (written i s x r))))
  have learned : targetLearned s x (arityNoted i b s x (blockNoted i x (written i s x r))) =
      arityNoted i b s x (blockNoted i x (written i s x r)) := by
    unfold targetLearned
    cases target : s.target with
    | none => rfl
    | some t =>
      rw [Option.elim_some, noted]
      exact learn_of_below (x := ⟨x.cell, x.ty⟩) (types t) (known.target t target)
  rw [record_eq is_call, raised, learned, noted]
  refine ⟨rfl, rfl, rfl, rfl, fun j => ?_⟩
  dsimp only
  split
  · rename_i calls
    rw [mem_insertNat]
    constructor
    · rintro (rfl | old)
      · exact known.caller calls
      · exact old
    · exact .inr
  · exact Iff.rfl

/-! Edges. -/

theorem marks_of_taken {ts : List BlockId}
    (taken : ∀ c ∈ ts, (r.graph.edge? b c).isSome = true → r.graph.Taken b c) :
    ts.foldl (Run.markEdge b) r = r := by
  induction ts with
  | nil => rfl
  | cons c ts ih =>
    have marked : r.markEdge b c = r := by
      obtain same | ⟨f, found, -, fresh, -⟩ := markEdge_cases r b c
      · exact same
      · have old := taken c List.mem_cons_self (by rw [found]; rfl)
        rw [FlowGraph.Taken, found, Option.any_some, fresh] at old
        cases old
    rw [List.foldl_cons, marked]
    exact ih fun d member => taken d (List.mem_cons_of_mem c member)

theorem Run.Marked.updateEdges (marked : r.Marked b) : r.updateEdges b = r :=
  marks_of_taken marked

theorem Unmoved.marked (unmoved : Unmoved r r') (same : r.graph.SameOutline r'.graph)
    (marked : r.Marked b) : r'.Marked b := by
  have edge : r'.graph.edge? = r.graph.edge? := by
    funext a c
    rw [FlowGraph.edge?, FlowGraph.edge?, FlowGraph.block_congr unmoved.blocks]
  have taken : r'.graph.Taken = r.graph.Taken := by
    funext a c
    rw [FlowGraph.Taken, FlowGraph.Taken, edge]
  have targets : r'.targets b = r.targets b := by
    apply targets_congr same
    · intro _ a
      rw [taken]
    · refine fun l _ => ⟨⟨FlowGraph.instr_congr unmoved.instrs l, fun v _ => ?_⟩, unmoved.callers l⟩
      rw [FlowGraph.component, FlowGraph.binding_congr unmoved.bindings]
      rfl
  intro c
  rw [targets, edge, taken]
  exact marked c

/-! Settled runs. -/

section Settled

variable (settled : p.Settled p.Concluded r) (tidy : Tidy r)
include settled tidy

theorem unmoved_evaluateCall (visited : b ∈ r.visited)
    (listed : i ∈ (r.graph.block b).instrs) {s : CallSite} (is_call : r.graph.instr i = .call s) :
    Unmoved r ((p.evaluateCall i b s).run r).2 := by
  rcases evaluateCall_cases p i b s r with ⟨-, ran⟩ | ⟨defined, ran⟩
  · rw [ran]
    exact .refl r
  · obtain ⟨d, does, noted, known⟩ :=
      ((settled.stable b visited i listed).call s is_call).resolve_left defined
    obtain ⟨readers, performed⟩ := noted.exists_perform_eq tidy
    rw [ran, does r rfl, performed]
    have recorded := Evaluation.Known.unmoved_record (r := { r with readers })
      ⟨known.site, known.caller, known.target⟩ tidy.types is_call b
    exact ⟨recorded.bindings, recorded.instrs, recorded.blocks, recorded.variables',
      recorded.callers⟩

omit tidy in
/-- What a landing block hears of is known to it. -/
theorem below_justRaised (visited : b ∈ r.visited) (listed : i ∈ (r.graph.block b).instrs)
    {frame : Frame} (is_landing : r.graph.instr i = .param t .justRaised frame) :
    (Component.varying (p.justRaised r.graph b)).Below (r.graph.component t) := by
  have operable := settled.operable
  obtain ⟨cell, heard⟩ := (settled.stable b visited i listed).landing t frame is_landing
  rw [(operable.placed b i listed).2] at heard
  have instrs : r.instrs = [] := List.isEmpty_iff.mp (Bool.and_eq_true_iff.mp settled.done).2
  refine ⟨cell, fun m member => ?_⟩
  obtain ⟨a, throws, thrown⟩ := (p.mem_justRaised operable.toLinked operable.guarded
    (List.ne_nil_of_mem listed)).mp member
  rcases heard a throws with none | ⟨l, v, -, -, queued⟩ | covered
  · exact none.elim
  · rw [instrs] at queued
    cases queued
  · exact covered thrown

theorem unmoved_evaluateInstr (visited : b ∈ r.visited) (listed : i ∈ (r.graph.block b).instrs) :
    Unmoved r ((p.evaluateInstr i b (r.graph.instr i)).run r).2 := by
  have stable := settled.stable b visited i listed
  have place := (settled.operable.placed b i listed).2
  have learned : ∀ {t x}, x.Below (r.graph.component t) → Unmoved r (learnComponent t x r) := by
    intro t x below
    rw [learnComponent, learn_of_below (tidy.types t) below]
    exact .refl r
  cases is_i : r.graph.instr i with
  | assign t s => exact learned (stable.value _ t (by rw [value?, is_i]) (by rw [is_i]; rfl))
  | phi t os => exact learned (stable.value _ t (by rw [value?, is_i, place]) (by rw [is_i]; rfl))
  | call s => exact unmoved_evaluateCall settled tidy visited listed is_i
  | param t q frame =>
    apply learned
    by_cases landing : q = .justRaised
    · subst landing
      have below := below_justRaised settled visited listed is_i
      cases frame <;> exact below
    · apply stable.value _ t _ (by rw [is_i]; rfl)
      rw [value?, is_i, place]
      cases q <;> first | exact absurd rfl landing | rfl
  | raise v => exact ⟨rfl, rfl, rfl, rfl, fun _ => Iff.rfl⟩
  | storeGlobal name v => exact ⟨rfl, rfl, rfl, rfl, fun _ => Iff.rfl⟩
  | declare d =>
    cases d with
    | expectSize test size array =>
      change Unmoved r (p.evaluateSize i b test size array r)
      unfold evaluateSize
      split
      · split
        · obtain ⟨findings, reported⟩ := exists_report_eq r _
          rw [reported]
          exact ⟨rfl, rfl, rfl, rfl, fun _ => Iff.rfl⟩
        · exact .refl r
      · exact .refl r
    | «alias» a v => exact .refl r
  | jump t => exact .refl r
  | branch c yes no => exact .refl r
  | returnWith v => exact .refl r

/-- A phi is what comes in over the edges that are taken, no less and no more. -/
theorem component_eq_phiValue (visited : b ∈ r.visited)
    (listed : i ∈ (r.graph.block b).instrs) {os : List (BlockId × BindingId)}
    (is_phi : r.graph.instr i = .phi t os) : r.graph.component t = phiValue r.graph b os := by
  have place := (settled.operable.placed b i listed).2
  have least := (settled.stable b visited i listed).value (phiValue r.graph b os) t
    (by rw [value?, is_phi, place]) (by rw [is_phi]; rfl)
  have most := tidy.phis i (by rw [FlowGraph.Listed, place]; exact listed) t os is_phi
  rw [place] at most
  have sorted : (phiValue r.graph b os).ty.Sorted := by
    rw [phiValue_eq_incoming]
    exact Ty.sorted_joinAll _
  have cell := Cell.le_antisymm most.cell least.cell
  have ty := (tidy.types t).ext sorted fun m => ⟨fun old => most.ty old, fun new => least.ty new⟩
  exact congrArg₂ Component.mk cell ty

end Settled

/-- A run at which nothing is left to be found out. -/
structure AtRest (p : Propagation σ) (r : Run σ) : Prop where
  evaluate : ∀ b ∈ r.visited, ∀ i ∈ (r.graph.block b).instrs, Unmoved r ((p.evaluate i).run r).2
  updateEdges : ∀ b ∈ r.visited, Unmoved r (r.updateEdges b)
  phi : ∀ b ∈ r.visited, ∀ i ∈ (r.graph.block b).instrs, ∀ t os, r.graph.instr i = .phi t os →
    (r.graph.binding t).cell =
      ((r.graph.incoming b os).map fun v => (r.graph.binding v).cell).foldl Cell.join .undefined ∧
    (r.graph.binding t).ty = .joinAll ((r.graph.incoming b os).map fun v => (r.graph.binding v).ty)

theorem Balanced.atRest (balanced : p.Balanced p.Concluded .none r) (tidy : Tidy r)
    (done : r.isDone = true) : p.AtRest r := by
  have settled := balanced.settled done
  refine ⟨fun b visited i listed => ?_, fun b visited => ?_, fun b visited i listed t os is_phi => ?_⟩
  · have place := (settled.operable.placed b i listed).2
    have counted : p.Settled p.Concluded { r with evaluations := r.evaluations + 1 } := by
      refine Balanced.settled ?_ (show Run.isDone { r with evaluations := _ } = true from done)
      exact balanced.of_same p.lasts_concluded ⟨rfl, rfl, rfl, rfl, rfl, rfl, rfl⟩ rfl rfl rfl
    have evaluated := unmoved_evaluateInstr counted (tidy.of_grows (.refl _) rfl rfl) visited listed
    have changes := p.changes_evaluateInstr (i := i) (b := b)
      (r := { r with evaluations := r.evaluations + 1 }) rfl
    have marked := evaluated.marked (grows_of_changes changes).toSameOutline
      (counted.marked b visited)
    rw [evaluate_run, place, Run.concluded, marked.updateEdges, ite_self]
    exact ⟨evaluated.bindings, evaluated.instrs, evaluated.blocks, evaluated.variables',
      evaluated.callers⟩
  · rw [(settled.marked b visited).updateEdges]
    exact .refl r
  · have same := component_eq_phiValue settled tidy visited listed is_phi
    rw [phiValue_eq_incoming] at same
    exact Component.mk.inj same

/-- With a source of summaries that keeps no state, as declarations do, an analysis that succeeds has
come to rest: it hands out the graph of a run that nothing moves any more. -/
theorem atRest_of_analyze (p : Propagation Unit) {l : Lowering} {body : Tree} {formals : List Formal}
    {next next' : Serial} {g g' h : FlowGraph} (built : l.build body formals next = .ok g next')
    (converted : g.toSingleAssignment = .ok () g') {stats : Stats}
    (analyzed : p.analyze (g', ()) = .ok stats (h, ())) :
    ∃ n, (p.moment g' () n).isDone = true ∧
      h = { (p.moment g' () n).graph with constants := knownValues (p.moment g' () n).graph } ∧
      (∀ b, b ∈ (p.moment g' () n).visited ↔ h.Entered b) ∧ p.AtRest (p.moment g' () n) := by
  have operable := (Lowering.build_wellFormed built).operable converted
  obtain ⟨n, done, rfl⟩ := p.exists_moment_of_analyze () analyzed
  have lasts := p.lasts_concluded
  have upholds := p.upholds_concluded
  have start := balanced_start (p := p) (K := p.Concluded) operable ()
  have balanced := start.loop lasts upholds n
  have tidy := (Tidy.start g' ()).loop lasts upholds n start
  exact ⟨n, done, rfl, balanced.tracked.mem_visited_iff done, balanced.atRest tidy done⟩

/-- `y = true; while y; @a = nil; y = @a; end; y`. -/
def flaggedLoop : Tree :=
  .sequence [.assign (.localVar "y") (.bool true),
    .whileLoop (.localVar "y") (.sequence [.assign (.instanceVar "@a") .nil,
      .assign (.localVar "y") (.instanceVar "@a")]), .localVar "y"]

/-- The phi of the loop takes its second operand from a variable that the loop assigns. -/
theorem atRest_flaggedLoop :
    ∃ g next g' stats h n,
      Lowering.build ⟨20, .topLevel, some "f", false⟩ flaggedLoop [] 0 = .ok g next ∧
      g.toSingleAssignment = .ok () g' ∧
      analyze ⟨.core, .standard, .declared .core, .none⟩ (g', ()) = .ok stats (h, ()) ∧
      (moment ⟨.core, .standard, .declared .core, .none⟩ g' () n).isDone = true ∧
      h = { (moment ⟨.core, .standard, .declared .core, .none⟩ g' () n).graph with
        constants := knownValues (moment ⟨.core, .standard, .declared .core, .none⟩ g' () n).graph } ∧
      (∀ b, b ∈ (moment ⟨.core, .standard, .declared .core, .none⟩ g' () n).visited ↔ h.Entered b) ∧
      AtRest ⟨.core, .standard, .declared .core, .none⟩
        (moment ⟨.core, .standard, .declared .core, .none⟩ g' () n) ∧
      h.instr 12 = .phi 4 [(6, 3), (8, 6)] ∧ h.incoming 7 [(6, 3), (8, 6)] = [3, 6] ∧
      (h.binding 4).cell = .varying ∧ h.variableTypes = [((1, "@a"), .nil)] := by
  obtain ⟨g, next, built, found⟩ :
      ∃ g next, Lowering.build ⟨20, .topLevel, some "f", false⟩ flaggedLoop [] 0 = .ok g next ∧
        finds ⟨.core, .standard, .declared .core, .none⟩ g () (fun h => decide (
          h.instr 12 = .phi 4 [(6, 3), (8, 6)] ∧ h.incoming 7 [(6, 3), (8, 6)] = [3, 6] ∧
          (h.binding 4).cell = .varying ∧ h.variableTypes = [((1, "@a"), .nil)])) = true :=
    Lowering.exists_built _ (by decide +kernel)
  obtain ⟨g', stats, h, ⟨⟩, converted, analyzed, described⟩ := exists_found found
  obtain ⟨n, done, result, visited, atRest⟩ := atRest_of_analyze _ built converted analyzed
  exact ⟨g, next, g', stats, h, n, built, converted, analyzed, done, result, visited, atRest,
    of_decide_eq_true described⟩

end Propagation

end ScriptFlow
