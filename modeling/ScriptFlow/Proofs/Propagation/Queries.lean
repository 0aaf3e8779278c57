import ScriptFlow.Findings.All
import ScriptFlow.Proofs.Propagation.Changes

/-! A propagation touches the state of its source of summaries by asking it, and in no other way. -/

namespace ScriptFlow.Propagation

variable {σ : Type}

open Relation (ReflTransGen)

/-- The states of a source before and after some questions. -/
def Asked (source : Summaries σ) : σ → σ → Prop := ReflTransGen (Query source)

theorem chains_asked (source : Summaries σ) : Chains (Asked source) := chains_of_steps _

theorem source_learn (r : Run σ) (t : BindingId) (cell : Cell) (ty : Ty) :
    (r.learn t cell ty).source = r.source := by
  rw [learn_eq]
  split
  · obtain ⟨queue, enqueued⟩ := Run.enqueueAll_eq (r.joined t cell ty) (r.graph.binding t).uses
    rw [enqueued]
    rfl
  · rfl

theorem source_assignVariable (r : Run σ) (ty : Ty) (key : VariableKey) :
    (r.assignVariable ty key).source = r.source := by
  unfold Run.assignVariable
  generalize (r.variableType key).extend ty = extended
  obtain ⟨grew, joined⟩ := extended
  dsimp only
  split
  · obtain ⟨queue, enqueued⟩ := Run.enqueueAll_eq
      { r with graph := { r.graph with
        variableTypes := Run.putVariable key joined r.graph.variableTypes } }
      ((r.readers.lookup key).getD [])
    rw [enqueued]
  · rfl

theorem source_report (r : Run σ) (f : Finding) : (r.report f).source = r.source := by
  unfold Run.report
  split <;> rfl

theorem source_markEdge (r : Run σ) (a b : BlockId) : (r.markEdge a b).source = r.source := by
  unfold Run.markEdge
  split
  · split <;> rfl
  · rfl

theorem source_updateEdges (r : Run σ) (b : BlockId) : (r.updateEdges b).source = r.source := by
  unfold Run.updateEdges
  generalize r.targets b = ts
  induction ts generalizing r with
  | nil => rfl
  | cons t ts ih => exact (ih _).trans (source_markEdge r b t)

theorem Change.asked {p : Propagation σ} {i : InstrId} {b : BlockId} {r r' : Run σ}
    (change : Change p i b r r') : Asked p.source r.source r'.source := by
  cases change with
  | look look =>
    cases look with
    | ask query => exact .single query
    | read key => exact .refl
    | write ty key =>
      rw [source_assignVariable]
      exact .refl
  | count => exact .refl
  | learn t cell ty target phi =>
    rw [source_learn]
    exact .refl
  | store name value => exact .refl
  | report f =>
    rw [source_report]
    exact .refl
  | record s s' is_call same raises methods frequency => exact .refl
  | caller => exact .refl
  | notify => exact .refl
  | mark c last =>
    rw [source_markEdge]
    exact .refl

variable (p : Propagation σ)

/-- A run in which only questions were asked, as far as the source is concerned. -/
def Asks (r r' : Run σ) : Prop := Asked p.source r.source r'.source

theorem chains_asks : Chains p.Asks := ⟨fun _ => .refl, fun first second => first.trans second⟩

theorem asks_evaluate (i : InstrId) : Along p.Asks (p.evaluate i) := by
  intro r
  have changes := p.changes_evaluate i r
  generalize ((p.evaluate i).run r).2 = r' at changes
  induction changes with
  | refl => exact .refl
  | tail _ change ih => exact ih.trans change.asked

theorem asks_visit (b : BlockId) : Along p.Asks (p.visit b) := by
  intro r
  rw [visit_run, Asks, source_updateEdges]
  have evaluations : Along p.Asks
      ((r.graph.block b).instrs.forM (p.revisit (!r.visited.contains b))) := by
    refine .forM p.chains_asks fun i _ => .bind p.chains_asks (fun r => .refl) fun r => ?_
    exact .ite (fun _ => p.asks_evaluate i) fun _ => .pure p.chains_asks _
  exact evaluations (r.entered b)

theorem asks_step : Along p.Asks p.step := by
  intro r
  obtain ⟨b, rest, -, stepped⟩ | ⟨i, rest, -, -, stepped⟩ | ⟨-, stepped⟩ := p.step_run r
  · rw [stepped]
    exact p.asks_visit b { r with blocks := rest, steps := r.steps + 1 }
  · rw [stepped]
    split
    · exact p.asks_evaluate i { r with instrs := rest, steps := r.steps + 1 }
    · exact .refl
  · rw [stepped]
    exact .refl

theorem asks_loop (fuel : Nat) (r : Run σ) : p.Asks r (p.loop fuel r) := by
  induction fuel generalizing r with
  | zero => exact .refl
  | succ fuel ih =>
    rw [loop]
    split
    · exact .refl
    · exact (p.asks_step r).trans (ih _)

/-- The same of a propagation that may fail. -/
def AsksOf (source : Summaries σ) (s s' : FlowGraph × σ) : Prop := Asked source s.2 s'.2

theorem chains_asksOf (source : Summaries σ) : Chains (AsksOf source) :=
  ⟨fun _ => .refl, fun first second => first.trans second⟩

theorem asks_analyze : Through (AsksOf p.source) p.analyze := by
  intro s
  have asks := p.asks_loop (p.config.maxSteps.getD endless) (.start s.1.resetPropagation s.2)
  unfold analyze
  split
  split
  · exact .refl
  · extract_lets limit r
    split
    · exact asks
    · exact asks

theorem asks_analyzeCopy (s : Specialization) : Through (AsksOf p.source) (p.analyzeCopy s) := by
  intro t
  have asks := asks_analyze { p with specialization := s } (t.1.duplicate, t.2)
  unfold analyzeCopy
  split
  split
  · rename_i ran
    rw [ran] at asks
    exact asks
  · rename_i ran
    rw [ran] at asks
    exact asks

theorem asks_anyCallsBlock (source : Summaries σ) (ms : List MethodId) :
    Along (Asked source) (FlowGraph.anyCallsBlock source ms) := by
  induction ms with
  | nil => exact .pure (chains_asked source) _
  | cons m ms ih =>
    refine .bind (chains_asked source) (fun a => .single (.blockUse a m)) fun use => ?_
    exact .ite (fun _ => .pure (chains_asked source) _) fun _ => ih

theorem asks_blockCalls (c : ClassTable) (source : Summaries σ) (g : FlowGraph) :
    Along (Asked source) (g.blockCalls c source) := by
  have chains := chains_asked source
  refine .foldlM chains (fun found s => ?_) _ _
  unfold FlowGraph.addBlockCall
  obtain ⟨calls, arities⟩ := found
  refine .ite (fun _ => .pure chains _) fun _ => .ite (fun _ => .pure chains _) fun _ => ?_
  refine .ite (fun _ => ?_) fun _ => .pure chains _
  exact .bind chains (asks_anyCallsBlock source _) fun _ => .pure chains _

theorem asks_analyzeBlockUse : Through (AsksOf p.source) p.analyzeBlockUse := by
  have chains := chains_asksOf p.source
  have recorded : ∀ use arities, Through (AsksOf p.source) (recordBlockUse use arities) :=
    fun use arities s => .refl
  unfold analyzeBlockUse
  refine .bind chains (fun s => .refl) fun s => ?_
  split
  · exact .bind chains (recorded _ _) fun _ => .pure chains _
  · refine .bind chains (p.asks_analyzeCopy _) fun without => ?_
    refine .bind chains (p.asks_analyzeCopy _) fun given => ?_
    refine .bind chains (fun s => asks_blockCalls p.table p.source given s.2) fun found => ?_
    exact .bind chains (recorded _ _) fun _ => .pure chains _

theorem asks_inspect : Through (AsksOf p.source) p.inspect := by
  have chains := chains_asksOf p.source
  unfold inspect
  split
  · exact .bind chains p.asks_analyzeBlockUse fun _ => fun s => .refl
  · exact fun s => .refl

end ScriptFlow.Propagation
