import ScriptFlow.Proofs.Propagation.Marking

/-! Every step keeps a run in balance, so that in the end everything is settled: no instruction would
find out anything new, and all edges that control may take are marked. -/

namespace ScriptFlow.Propagation

variable {b : BlockId}
variable {σ : Type} {p : Propagation σ} {K : Run σ → InstrId → CallSite → Prop} {e : Slack}
  {r : Run σ} {i : InstrId}

open Relation (ReflTransGen)

/-! Evaluation of one instruction. -/

/-- What is left out of account when instruction `i` is about to be evaluated. -/
def Slack.before (e : Slack) (g : FlowGraph) (i : InstrId) : Slack where
  instr j := e.instr j ∨ j = i
  block a := e.block a ∨ g.last? a = some i
  thrower a := e.thrower a ∨ g.last? a = some i ∧ ∃ v, g.instr i = .raise v
  exit a := e.exit a ∨ g.last? a = some i ∧ ∃ v, g.instr i = .raise v

/-- For instructions other than raises that is less. -/
def Slack.during (e : Slack) (g : FlowGraph) (i : InstrId) : Slack where
  instr j := e.instr j ∨ j = i
  block a := e.block a ∨ g.last? a = some i
  thrower := e.thrower
  exit := e.exit

/-- A call that has just been found to raise. -/
def Slack.leaving (e : Slack) (g : FlowGraph) (i : InstrId) : Slack where
  instr j := e.instr j ∨ j = i
  block a := e.block a ∨ g.last? a = some i
  thrower := e.thrower
  exit a := e.exit a ∨ g.last? a = some i

/-- What is left out of account until the edges of its block are marked. -/
def Slack.after (e : Slack) (g : FlowGraph) (i : InstrId) : Slack where
  instr := e.instr
  block a := e.block a ∨ g.last? a = some i
  thrower := e.thrower
  exit a := e.exit a ∨ g.last? a = some i

variable (p K) in
structure Evaluated (e : Slack) (g : FlowGraph) (i : InstrId) (r : Run σ) : Prop where
  balanced : p.Balanced K (e.after g i) r
  heard : ∀ a, g.last? a = some i → ∀ c ∈ r.targets a, p.Heard r a c

theorem Balanced.settle {g : FlowGraph} (balanced : p.Balanced K (e.leaving g i) r)
    (settled : p.Stable K e.thrower r i ∨ r.Pending i) : p.Balanced K (e.after g i) r := by
  refine ⟨balanced.operable, balanced.tracked, balanced.queued, balanced.readers, ?_, balanced.edges,
    balanced.landed⟩
  intro j listed visited
  rcases balanced.instr j listed visited with (slack | rfl) | rest
  · exact .inl slack
  · exact .inr settled
  · exact .inr rest

/-- Instructions other than raises leave no landing block in the dark. -/
theorem Balanced.of_before {g : FlowGraph} (balanced : p.Balanced K (e.before g i) r)
    (other : ∀ v, g.instr i ≠ .raise v) : p.Balanced K (e.during g i) r := by
  have none : ∀ a, ¬(g.last? a = some i ∧ ∃ v, g.instr i = .raise v) := by
    rintro a ⟨-, v, is_raise⟩
    exact other v is_raise
  exact balanced.mono (fun _ => id) (fun _ => id) (fun a slack => slack.resolve_right (none a))
    fun a slack => slack.resolve_right (none a)

theorem Balanced.leaving {g : FlowGraph} (balanced : p.Balanced K (e.during g i) r) :
    p.Balanced K (e.leaving g i) r :=
  balanced.mono (fun _ => id) (fun _ => id) (fun _ => id) fun _ => .inl

theorem thrown_eq_nil {g : FlowGraph} {a : BlockId} (last : g.last? a = some i)
    (no_call : ∀ s, g.instr i ≠ .call s) (no_raise : ∀ v, g.instr i ≠ .raise v) :
    (p.thrown g a).members = [] := by
  unfold thrown
  rw [show (g.block a).instrs.getLast? = some i from last, Option.map_some]
  cases is_i : g.instr i with
  | call s => exact absurd is_i (no_call s)
  | raise v => exact absurd is_i (no_raise v)
  | _ => rfl

/-- When an instruction has learned what it finds out, it finds out no more. -/
theorem stable_learn {N : BlockId → Prop} (operable : r.graph.Operable) (listed : r.graph.Listed i)
    {t : BindingId} {x : Component} (target : (r.graph.instr i).target? = some t)
    (no_call : ∀ s, r.graph.instr i ≠ .call s)
    (value : ∀ y, p.value? r.graph i = some y → y = x)
    (landing : ∀ t frame, r.graph.instr i = .param t .justRaised frame →
      x = .varying (p.justRaised r.graph (r.graph.blockOf i))) :
    p.Stable K N (r.learn t x.cell x.ty) i ∨ (r.learn t x.cell x.ty).Pending i := by
  have inside : t < r.graph.bindings.size :=
    (operable.inScope _ i listed).target t target
  have below := below_learn r inside x
  have grows := grows_learn r t x.cell x.ty
  have reads := fun j => untouched_learn (j := j) operable t x.cell x.ty
  obtain ⟨bindings, queue, learned, -⟩ := exists_learn_eq r t x.cell x.ty
  rw [learned] at below grows reads ⊢
  rcases reads i listed with waits | untouched
  · exact .inr (.inl waits)
  · refine .inl ⟨?_, ?_, fun s is_call => absurd is_call (no_call s)⟩
    · intro y t' found target'
      have same := p.value?_congr untouched.site (grows.blockOf i) grows.scope untouched.operands
        fun _ _ _ _ => Iff.rfl
      rw [same] at found
      cases target.symm.trans target'
      rw [value y found]
      exact below
    · intro t' frame is_landing
      have is_landing' : r.graph.instr i = .param t' .justRaised frame := is_landing
      rw [is_landing'] at target
      cases target
      rw [landing t frame is_landing'] at below
      refine ⟨below.cell, fun a throws => ?_⟩
      by_cases roused : ∃ l v, r.graph.last? a = some l ∧ r.graph.instr l = .raise v ∧ l ∈ queue
      · exact .inr (.inl roused)
      · refine .inr (.inr fun m thrown => below.ty ?_)
        rw [p.thrown_congr grows.toSameOutline fun _ _ => rfl] at thrown
        · have proper : ¬Passes r.graph (r.graph.blockOf i) := List.ne_nil_of_mem listed
          exact (p.mem_justRaised operable.toLinked operable.guarded proper).mpr
            ⟨a, throws, thrown⟩
        · intro l v last is_raise
          apply (reads l (FlowGraph.listed_of_last operable.toClosed last).1).resolve_left
          exact fun queued => roused ⟨l, v, last, is_raise, queued⟩

/-- Evaluation of an instruction that learns something for its target. -/
theorem Evaluated.learn (lasts : Lasts K) (balanced : p.Balanced K (e.before r.graph i) r)
    (listed : r.graph.Listed i) {t : BindingId} {x : Component}
    (target : (r.graph.instr i).target? = some t) (no_call : ∀ s, r.graph.instr i ≠ .call s)
    (no_raise : ∀ v, r.graph.instr i ≠ .raise v)
    (value : ∀ y, p.value? r.graph i = some y → y = x)
    (landing : ∀ t frame, r.graph.instr i = .param t .justRaised frame →
      x = .varying (p.justRaised r.graph (r.graph.blockOf i))) :
    p.Evaluated K e r.graph i (r.learn t x.cell x.ty) where
  balanced := by
    have learned := (balanced.of_before no_raise).learn lasts t x.cell x.ty
    apply learned.leaving.settle
    exact stable_learn balanced.operable listed target no_call value landing
  heard a last c _ := by
    have same := (grows_learn r t x.cell x.ty).toSameOutline
    have site : (r.learn t x.cell x.ty).graph.instr i = r.graph.instr i := by
      obtain ⟨bindings, queue, learned, -⟩ := exists_learn_eq r t x.cell x.ty
      rw [learned]
      rfl
    refine .inl (thrown_eq_nil ((same.last a).trans last) ?_ ?_)
    · rw [site]
      exact no_call
    · rw [site]
      exact no_raise

/-- Evaluation of an instruction that has no target and raises nothing. -/
theorem Evaluated.quiet {r' : Run σ} (balanced : p.Balanced K (e.before r.graph i) r')
    (same : r.graph.SameOutline r'.graph) (site : r'.graph.instr i = r.graph.instr i)
    (no_target : (r.graph.instr i).target? = none) (no_call : ∀ s, r.graph.instr i ≠ .call s)
    (no_raise : ∀ v, r.graph.instr i ≠ .raise v) : p.Evaluated K e r.graph i r' where
  balanced := by
    apply (balanced.of_before no_raise).leaving.settle
    refine .inl ⟨?_, ?_, ?_⟩
    · intro x t _ target
      rw [site, no_target] at target
      cases target
    · intro t frame is_landing
      rw [site] at is_landing
      rw [is_landing] at no_target
      cases no_target
    · intro s is_call
      exact absurd (site.symm.trans is_call) (no_call s)
  heard a last c _ := by
    refine .inl (thrown_eq_nil ((same.last a).trans last) ?_ ?_)
    · rw [site]
      exact no_call
    · rw [site]
      exact no_raise

theorem Evaluated.raise (lasts : Lasts K) (balanced : p.Balanced K (e.before r.graph i) r)
    {v : Operand} (is_raise : r.graph.instr i = .raise v) :
    p.Evaluated K e r.graph i (r.notifyRaise (r.graph.blockOf i)) where
  balanced := by
    have placed : ∀ a, r.graph.last? a = some i → a = r.graph.blockOf i :=
      fun a last => (FlowGraph.listed_of_last balanced.operable.toClosed last).2.symm
    apply Balanced.settle
    · apply Balanced.notify lasts
      exact balanced.mono (fun _ => id) (fun _ => id)
        (fun a => Or.imp_right fun here => placed a here.1) fun a => Or.imp_right And.left
    · refine .inl ⟨?_, ?_, ?_⟩
      · intro x t _ target
        change (r.graph.instr i).target? = some t at target
        rw [is_raise] at target
        cases target
      · intro t frame is_landing
        cases is_raise.symm.trans is_landing
      · intro s is_call
        cases is_raise.symm.trans is_call
  heard a last c _ := by
    rw [← (FlowGraph.listed_of_last balanced.operable.toClosed last).2]
    exact heard_notifyRaise balanced.operable.toLinked balanced.tracked _ c

/-! Calls. -/

def callOf (p : Propagation σ) (g : FlowGraph) (i : InstrId) (s : CallSite) : Call where
  instr := i
  isSuper := s.kind.isSuper
  ignoreVisibility := s.ignoreVisibility
  receiver := p.operand g s.receiver
  name := s.method
  args :=
    if s.kind.isVararg then (s.args.map (p.operand g)).head?.bind p.unpack?
    else some (s.args.map (p.operand g))
  block := s.block.map (p.operand g)

/-- Nothing is known yet of some operand. -/
def Waiting (g : FlowGraph) (s : CallSite) : Prop := ∃ o ∈ s.operands, g.operandCell o = .undefined

theorem evaluateCall_cases (p : Propagation σ) (i : InstrId) (b : BlockId) (s : CallSite)
    (r : Run σ) :
    Waiting r.graph s ∧ ((p.evaluateCall i b s).run r).2 = r ∨
    ¬Waiting r.graph s ∧ ((p.evaluateCall i b s).run r).2 =
      record i b s ((p.dispatch (p.callOf r.graph i s)).run r).1
        ((p.dispatch (p.callOf r.graph i s)).run r).2 := by
  have waiting : (p.operand r.graph s.receiver :: s.args.map (p.operand r.graph) ++
      (s.block.map (p.operand r.graph)).toList).any (·.cell.isUndefined) = true ↔
        Waiting r.graph s := by
    have operands : p.operand r.graph s.receiver :: s.args.map (p.operand r.graph) ++
        (s.block.map (p.operand r.graph)).toList = s.operands.map (p.operand r.graph) := by
      cases block : s.block <;> simp [CallSite.operands, block]
    rw [operands, List.any_map, List.any_eq_true, Waiting]
    simp only [Function.comp, operandCell_eq p, Cell.isUndefined, beq_iff_eq]
  unfold evaluateCall
  rw [run_get_bind]
  extract_lets g receiver args passed
  split
  · rename_i undefined
    exact .inl ⟨waiting.mp undefined, rfl⟩
  · rename_i defined
    exact .inr ⟨fun waits => defined (waiting.mpr waits), rfl⟩

variable (p K) in
/-- Calls meet the condition once they are evaluated. -/
def Upholds : Prop :=
  ∀ r i s, r.graph.Operable → r.graph.Listed i → r.graph.instr i = .call s → ¬Waiting r.graph s →
    ∀ r', r' = ((p.evaluateCall i (r.graph.blockOf i) s).run r).2 →
      ∀ s', r'.graph.instr i = .call s' → i ∈ r'.instrs ∨ K r' i s'

section Recording

variable {s : CallSite} {g : FlowGraph}

/-- Writing down the outcome of a call, apart from telling the landing blocks. -/
theorem Balanced.recorded (lasts : Lasts K) (balanced : p.Balanced K e r)
    (is_call : r.graph.instr i = .call s) (x : Evaluation) (slack : e.instr i)
    (closing : ∀ a, r.graph.last? a = some i → e.block a)
    (news : x.isNews s = true → ∀ a, r.graph.last? a = some i → e.thrower a ∧ e.exit a)
    (b : BlockId) : p.Balanced K e (targetLearned s x
      (arityNoted i b s x (blockNoted i x (Propagation.written i s x r)))) := by
  have wrote := balanced.written lasts is_call x slack closing news
  have noted : p.Balanced K e (blockNoted i x (Propagation.written i s x r)) := by
    unfold blockNoted
    split
    · exact wrote.caller lasts closing
    · exact wrote
  have reported : p.Balanced K e (arityNoted i b s x
      (blockNoted i x (Propagation.written i s x r))) := by
    unfold arityNoted
    split
    · exact noted.report lasts _
    · exact noted
  unfold targetLearned
  cases s.target with
  | none => exact reported
  | some t => exact reported.learn lasts t x.cell x.ty

theorem Balanced.record_quiet (lasts : Lasts K) (balanced : p.Balanced K (e.during g i) r)
    (same : g.SameOutline r.graph) (is_call : r.graph.instr i = .call s) (x : Evaluation)
    (quiet : x.isNews s = false) (b : BlockId) :
    p.Balanced K (e.during g i) (record i b s x r) := by
  rw [record_eq is_call, raiseNoted, quiet, if_neg Bool.false_ne_true]
  apply balanced.recorded lasts is_call x (.inr rfl)
  · exact fun a last => .inr ((same.last a).symm.trans last)
  · intro news
    rw [quiet] at news
    cases news

/-- An outcome with news: the landing blocks are told. -/
theorem Balanced.record_news (lasts : Lasts K) (balanced : p.Balanced K (e.during g i) r)
    (same : g.SameOutline r.graph) (is_call : r.graph.instr i = .call s) (x : Evaluation)
    (news : x.isNews s = true) (placed : ∀ a, g.last? a = some i → a = b) :
    p.Balanced K (e.leaving g i) (record i b s x r) ∧ ∀ c, p.Heard (record i b s x r) b c := by
  rw [record_eq is_call, raiseNoted, news, if_pos rfl]
  have told : p.Balanced K
      { e.leaving g i with thrower := fun a => (e.leaving g i).thrower a ∨ a = b } r :=
    balanced.mono (fun _ => id) (fun _ => id) (fun _ => .inl) fun _ => .inl
  have learned := told.recorded lasts is_call x (.inr rfl)
    (fun a last => .inr ((same.last a).symm.trans last))
    (fun _ a last => ⟨.inr (placed a ((same.last a).symm.trans last)),
      .inr ((same.last a).symm.trans last)⟩) b
  exact ⟨Balanced.notify lasts learned,
    heard_notifyRaise learned.operable.toLinked learned.tracked b⟩

end Recording

theorem Balanced.settle_call {g : FlowGraph} {s : CallSite}
    (balanced : p.Balanced K (e.leaving g i) r) (same : g.SameOutline r.graph)
    (is_call : g.instr i = .call s)
    (condition : ∀ s', r.graph.instr i = .call s' → i ∈ r.instrs ∨ Waiting r.graph s' ∨ K r i s') :
    p.Balanced K (e.after g i) r := by
  apply balanced.settle
  obtain ⟨s', is_call'⟩ : ∃ s', r.graph.instr i = .call s' := by
    rcases Instr.eq_of_outline (same.instr i) with eq | ⟨s', _, is_call', -⟩
    · exact ⟨s, eq.trans is_call⟩
    · exact ⟨s', is_call'⟩
  rcases condition s' is_call' with queued | settled
  · exact .inr (.inl queued)
  · refine .inl ⟨?_, ?_, ?_⟩
    · intro x t found
      unfold value? at found
      rw [is_call'] at found
      cases found
    · intro t frame is_landing
      cases is_call'.symm.trans is_landing
    · intro s'' is_call''
      cases is_call'.symm.trans is_call''
      exact settled

theorem Evaluated.call (lasts : Lasts K) (upholds : p.Upholds K)
    (balanced : p.Balanced K (e.before r.graph i) r) (listed : r.graph.Listed i)
    (visited : r.graph.blockOf i ∈ r.visited)
    (exits : ∀ a, e.exit a → ∃ l v, r.graph.last? a = some l ∧ r.graph.instr l = .raise v)
    {s : CallSite} (is_call : r.graph.instr i = .call s) :
    p.Evaluated K e r.graph i ((p.evaluateCall i (r.graph.blockOf i) s).run r).2 := by
  have no_raise : ∀ v, r.graph.instr i ≠ .raise v := by
    intro v is_raise
    cases is_call.symm.trans is_raise
  have placed : ∀ a, r.graph.last? a = some i → a = r.graph.blockOf i :=
    fun a last => (FlowGraph.listed_of_last balanced.operable.toClosed last).2.symm
  have accounted : ∀ a, r.graph.last? a = some i → ¬e.exit a := by
    intro a last slack
    obtain ⟨l, v, last', is_raise⟩ := exits a slack
    cases last.symm.trans last'
    exact no_raise v is_raise
  -- without news, the block has its exception edges marked already
  have still_heard : ∀ r' : Run σ, p.Balanced K (e.during r.graph i) r' →
      r'.visited = r.visited →
      ∀ a, r.graph.last? a = some i → ∀ c ∈ r'.targets a, p.Heard r' a c := by
    intro r' balanced' kept a last c target
    have visited' : a ∈ r'.visited := by
      rw [placed a last, kept]
      exact visited
    exact heard_of_landed balanced'.operable.toLinked visited'
      ((balanced'.landed a).resolve_left (accounted a last)) target
  rcases evaluateCall_cases p i (r.graph.blockOf i) s r with ⟨waits, ran⟩ | ⟨defined, ran⟩
  · rw [ran]
    have before := balanced.of_before no_raise
    refine ⟨before.leaving.settle_call (.refl _) is_call ?_, still_heard r before rfl⟩
    intro s' is_call'
    cases is_call.symm.trans is_call'
    exact .inr (.inl waits)
  · have upheld := upholds r i s balanced.operable listed is_call defined _ rfl
    rw [ran] at upheld ⊢
    have looks : ReflTransGen (Look p i) r ((p.dispatch (p.callOf r.graph i s)).run r).2 :=
      p.along_dispatch (p.callOf r.graph i s) r
    generalize ((p.dispatch (p.callOf r.graph i s)).run r).1 = x at *
    generalize ((p.dispatch (p.callOf r.graph i s)).run r).2 = r₁ at *
    have aside := Aside.of_looks looks
    have same := aside.grows.toSameOutline
    have is_call₁ : r₁.graph.instr i = .call s := by
      rw [FlowGraph.instr_congr aside.instrs, is_call]
    have before := (balanced.looks lasts listed looks).of_before no_raise
    have changes : ReflTransGen (Change p i (r.graph.blockOf i)) r₁ _ :=
      changes_record p is_call₁ x
    have same' := same.trans (grows_of_changes changes).toSameOutline
    have kept := (visited_of_changes changes).trans aside.visited
    cases new : x.isNews s with
    | true =>
      obtain ⟨recorded, heard⟩ := before.record_news lasts same is_call₁ x new placed
      constructor
      · exact recorded.settle_call same' is_call fun s' here => (upheld s' here).imp_right .inr
      · intro a last c _
        rw [placed a last]
        exact heard c
    | false =>
      have recorded := before.record_quiet lasts same is_call₁ x new (r.graph.blockOf i)
      constructor
      · apply recorded.leaving.settle_call same' is_call
        exact fun s' here => (upheld s' here).imp_right .inr
      · exact still_heard _ recorded kept

/-! Evaluation, visits and steps. -/

section Steps

variable (lasts : Lasts K) (upholds : p.Upholds K)
include lasts upholds

theorem evaluated_evaluateInstr (balanced : p.Balanced K (e.before r.graph i) r)
    (listed : r.graph.Listed i) (visited : r.graph.blockOf i ∈ r.visited)
    (exits : ∀ a, e.exit a → ∃ l v, r.graph.last? a = some l ∧ r.graph.instr l = .raise v) :
    p.Evaluated K e r.graph i
      ((p.evaluateInstr i (r.graph.blockOf i) (r.graph.instr i)).run r).2 := by
  cases is_i : r.graph.instr i with
  | assign t s =>
    apply Evaluated.learn lasts balanced listed (x := p.operand r.graph s)
    · rw [is_i]
      rfl
    · simp [is_i]
    · simp [is_i]
    · simp [value?, is_i]
    · simp [is_i]
  | phi t os =>
    apply Evaluated.learn lasts balanced listed (x := phiValue r.graph (r.graph.blockOf i) os)
    · rw [is_i]
      rfl
    · simp [is_i]
    · simp [is_i]
    · simp [value?, is_i]
    · simp [is_i]
  | param t q frame =>
    apply Evaluated.learn lasts balanced listed
      (x := p.parameter r.graph (r.graph.blockOf i) frame q)
    · rw [is_i]
      rfl
    · simp [is_i]
    · simp [is_i]
    · cases q <;> simp [value?, is_i]
    · intro t' frame' is_landing
      rw [is_i] at is_landing
      cases is_landing
      cases frame <;> rfl
  | call s => exact Evaluated.call lasts upholds balanced listed visited exits is_i
  | raise v => exact Evaluated.raise lasts balanced is_i
  | storeGlobal name v =>
    have aside : Aside r (p.storeGlobal name v r) := ⟨rfl, rfl, rfl, rfl, rfl, rfl, rfl⟩
    apply Evaluated.quiet (balanced.of_same lasts aside rfl rfl rfl) aside.grows.toSameOutline rfl
    all_goals simp [is_i, Instr.target?]
  | declare d =>
    cases d with
    | expectSize test size array =>
      have sized : p.Balanced K (e.before r.graph i)
          (p.evaluateSize i (r.graph.blockOf i) test size array r) := by
        unfold evaluateSize
        split
        · split
          · exact balanced.report lasts _
          · exact balanced
        · exact balanced
      have aside : Aside r (p.evaluateSize i (r.graph.blockOf i) test size array r) := by
        unfold evaluateSize Run.report
        split
        · split
          · split <;> exact ⟨rfl, rfl, rfl, rfl, rfl, rfl, rfl⟩
          · exact .refl r
        · exact .refl r
      apply Evaluated.quiet sized aside.grows.toSameOutline (aside.untouched i).site
      all_goals simp [is_i, Instr.target?]
    | «alias» name v =>
      apply Evaluated.quiet balanced (.refl _) rfl
      all_goals simp [is_i, Instr.target?]
  | jump t =>
    apply Evaluated.quiet balanced (.refl _) rfl
    all_goals simp [is_i, Instr.target?]
  | branch c yes no =>
    apply Evaluated.quiet balanced (.refl _) rfl
    all_goals simp [is_i, Instr.target?]
  | returnWith v =>
    apply Evaluated.quiet balanced (.refl _) rfl
    all_goals simp [is_i, Instr.target?]

theorem Balanced.evaluate (balanced : p.Balanced K (e.before r.graph i) r)
    (listed : r.graph.Listed i) (visited : r.graph.blockOf i ∈ r.visited)
    (exits : ∀ a, e.exit a → ∃ l v, r.graph.last? a = some l ∧ r.graph.instr l = .raise v) :
    p.Balanced K e ((p.evaluate i).run r).2 := by
  have counted : p.Balanced K (e.before r.graph i) { r with evaluations := r.evaluations + 1 } :=
    balanced.of_same lasts ⟨rfl, rfl, rfl, rfl, rfl, rfl, rfl⟩ rfl rfl rfl
  have evaluated := evaluated_evaluateInstr (r := { r with evaluations := r.evaluations + 1 }) lasts
    upholds counted listed visited exits
  have changes := p.changes_evaluateInstr (i := i) (b := r.graph.blockOf i)
    (r := { r with evaluations := r.evaluations + 1 }) rfl
  have same : r.graph.SameOutline _ := (grows_of_changes changes).toSameOutline
  have kept := visited_of_changes changes
  have placed : ∀ a, r.graph.last? a = some i → a = r.graph.blockOf i :=
    fun a last => (FlowGraph.listed_of_last balanced.operable.toClosed last).2.symm
  rw [evaluate_run]
  unfold Run.concluded
  split
  · rename_i last
    have last' : r.graph.last? (r.graph.blockOf i) = some i := (same.last _).symm.trans last
    apply Balanced.updateEdges lasts
    · rw [kept]
      exact visited
    · exact evaluated.balanced.mono (fun _ => id) (fun a => Or.imp_right (placed a)) (fun _ => id)
        fun a => Or.imp_right (placed a)
    · exact evaluated.heard _ last'
  · rename_i inner
    have other : ∀ a, r.graph.last? a ≠ some i := by
      intro a last
      have here := placed a last
      rw [here] at last
      exact inner ((same.last _).trans last)
    exact evaluated.balanced.mono (fun _ => id) (fun a slack => slack.resolve_right (other a))
      (fun _ => id) fun a slack => slack.resolve_right (other a)

/-- What is left out of account during a visit: the instructions that are still to be evaluated. -/
def Slack.visit (g : FlowGraph) (b : BlockId) (is : List InstrId) : Slack where
  instr i := i ∈ is
  block a := a = b
  thrower _ := False
  exit a := ∃ l ∈ is, g.last? a = some l ∧ ∃ v, g.instr l = .raise v

/-- The instructions that a visit evaluates. -/
def revisited (g : FlowGraph) (isFirst : Bool) (is : List InstrId) : List InstrId :=
  is.filter fun i => isFirst || dependsOnEntry (g.instr i)

omit upholds in
/-- What waits for a visit of a block is evaluated when it is entered. -/
theorem Balanced.entered {rest : List BlockId} (balanced : p.Balanced K .none r)
    (next : r.blocks = b :: rest) :
    p.Balanced K (.visit r.graph b (revisited r.graph (!r.visited.contains b)
      (r.graph.block b).instrs)) (Run.entered b { r with blocks := rest, steps := r.steps + 1 }) := by
  have member : ∀ i ∈ (r.graph.block b).instrs, b ∉ r.visited ∨ dependsOnEntry (r.graph.instr i) = true →
      i ∈ revisited r.graph (!r.visited.contains b) (r.graph.block b).instrs := by
    intro i listed again
    refine List.mem_filter.mpr ⟨listed, ?_⟩
    simpa using again
  have before : ∀ a, a ∈ insertNat b r.visited → a = b ∨ a ∈ r.visited := fun a => mem_insertNat.mp
  constructor
  · exact balanced.operable
  · exact balanced.tracked.enter next
  · exact balanced.queued
  · exact balanced.readers
  · intro i listed at_visited
    by_cases again : r.graph.blockOf i = b ∧ (b ∉ r.visited ∨ dependsOnEntry (r.graph.instr i) = true)
    · refine .inl (member i ?_ again.2)
      rw [← again.1]
      exact listed
    · have visited : r.graph.blockOf i ∈ r.visited := by
        rcases before _ at_visited with here | old
        · by_contra new
          exact again ⟨here, .inl (here ▸ new)⟩
        · exact old
      rcases (balanced.instr i listed visited).resolve_left id with stable | waits | ⟨depends, waits⟩
      · refine .inr (.inl (stable.step lasts ?_ (List.Subset.refl _) ?_ ?_))
        · exact ⟨⟨rfl, fun _ _ => rfl⟩, .refl _, id, fun _ => id,
            fun _ t found => ⟨t, found, List.Subset.refl _⟩, fun _ _ => rfl⟩
        · exact fun _ _ _ _ => Iff.rfl
        · exact fun _ _ _ _ throws => .inr (.inr fun _ thrown => ⟨throws, thrown⟩)
      · exact .inr (.inr (.inl waits))
      · rw [next] at waits
        rcases List.mem_cons.mp waits with here | later
        · exact absurd ⟨here, .inr depends⟩ again
        · exact .inr (.inr (.inr ⟨depends, later⟩))
  · intro a at_visited
    rcases before a at_visited with here | old
    · exact .inl here
    · refine (balanced.edges a old).resolve_left id |>.elim (fun marked => .inr (.inl marked)) ?_
      rintro (waits | last)
      · rw [next] at waits
        exact (List.mem_cons.mp waits).elim .inl fun later => .inr (.inr (.inl later))
      · exact .inr (.inr (.inr last))
  · intro a
    by_cases new : a = b ∧ b ∉ r.visited ∧ ∃ l v, r.graph.last? a = some l ∧ r.graph.instr l = .raise v
    · obtain ⟨rfl, new, l, v, last, is_raise⟩ := new
      exact .inl ⟨l, member l (List.mem_of_getLast? last) (.inl new), last, v, is_raise⟩
    · refine .inr fun raising => ?_
      apply (balanced.landed a).resolve_left id
      cases raising with
      | call last is_call mayRaise frequency raises =>
        exact .call last is_call mayRaise frequency raises
      | raise last is_raise visited =>
        refine .raise last is_raise ?_
        rcases before a visited with here | old
        · by_contra unvisited
          exact new ⟨here, here ▸ unvisited, _, _, last, is_raise⟩
        · exact old

theorem Balanced.revisits {g : FlowGraph} {isFirst : Bool} {is : List InstrId}
    (same : g.SameOutline r.graph) (balanced : p.Balanced K (.visit g b (revisited g isFirst is)) r)
    (visited : b ∈ r.visited) (listed : ∀ i ∈ is, i ∈ (g.block b).instrs) :
    p.Balanced K (.visit g b []) ((is.forM (p.revisit isFirst)).run r).2 := by
  induction is generalizing r with
  | nil => exact balanced
  | cons i is ih =>
    have here : i ∈ (r.graph.block b).instrs := by
      rw [same.block_instrs]
      exact listed i List.mem_cons_self
    have place := (balanced.operable.placed b i here).2
    have rest := fun j (member : j ∈ is) => listed j (List.mem_cons_of_mem i member)
    have depends : dependsOnEntry (r.graph.instr i) = dependsOnEntry (g.instr i) := by
      rw [← dependsOnEntry_outline, same.instr, dependsOnEntry_outline]
    change p.Balanced K _ ((is.forM (p.revisit isFirst)).run ((p.revisit isFirst i).run r).2).2
    have ran : ((p.revisit isFirst i).run r).2 =
        if isFirst || dependsOnEntry (r.graph.instr i) then ((p.evaluate i).run r).2 else r := by
      unfold revisit
      rw [run_get_bind]
      split <;> rfl
    rw [ran, depends]
    rw [revisited, List.filter_cons] at balanced
    split
    · rename_i evaluated
      rw [if_pos evaluated] at balanced
      have changes := p.changes_evaluate i r
      have evaluated : p.Balanced K (.visit g b (revisited g isFirst is))
          ((p.evaluate i).run r).2 := by
        apply Balanced.evaluate lasts upholds
        · refine balanced.mono ?_ (fun _ => .inl) (fun _ => .inl) ?_
          · exact fun j member => (List.mem_cons.mp member).symm
          · rintro a ⟨l, member, last, v, is_raise⟩
            rcases List.mem_cons.mp member with rfl | later
            · exact .inr ⟨(same.last a).trans last, v, (same.instr_eq_iff rfl).mpr is_raise⟩
            · exact .inl ⟨l, later, last, v, is_raise⟩
        · rw [FlowGraph.Listed, place]
          exact here
        · rw [place]
          exact visited
        · rintro a ⟨l, -, last, v, is_raise⟩
          exact ⟨l, v, (same.last a).trans last, (same.instr_eq_iff rfl).mpr is_raise⟩
      apply ih (same.trans (grows_of_changes changes).toSameOutline) evaluated _ rest
      rw [visited_of_changes changes]
      exact visited
    · rename_i skipped
      rw [if_neg skipped] at balanced
      exact ih same balanced visited rest

theorem Balanced.visit {rest : List BlockId} (balanced : p.Balanced K .none r)
    (next : r.blocks = b :: rest) :
    p.Balanced K .none ((p.visit b).run { r with blocks := rest, steps := r.steps + 1 }).2 := by
  rw [visit_run]
  have tracked := balanced.tracked.enter next
  have visited : b ∈ (Run.entered b { r with blocks := rest, steps := r.steps + 1 }).visited :=
    mem_insertNat.mpr (.inl rfl)
  have entered := balanced.entered lasts next
  have revisited := Balanced.revisits lasts upholds (.refl _) entered visited fun _ => id
  have visited' := (p.moves_revisits
    (r := Run.entered b { r with blocks := rest, steps := r.steps + 1 })
    (fun a i member => (balanced.operable.placed a i member).2) visited (!r.visited.contains b)).2
  apply Balanced.updateEdges lasts visited'
  · apply revisited.mono
    · intro i member
      cases member
    · exact fun a here => .inr here
    · exact fun _ => id
    · rintro a ⟨l, member, -⟩
      cases member
  · intro c target
    refine heard_of_landed revisited.operable.toLinked visited' ?_ target
    apply (revisited.landed b).resolve_left
    rintro ⟨l, member, -⟩
    cases member

omit upholds in
theorem Balanced.take {j : InstrId} {rest : List InstrId} (balanced : p.Balanced K .none r)
    (next : r.instrs = j :: rest) :
    p.Balanced K (Slack.none.before r.graph j) { r with instrs := rest, steps := r.steps + 1 } := by
  have others : ∀ i ∈ r.instrs, i = j ∨ i ∈ rest := by
    intro i queued
    rw [next] at queued
    exact List.mem_cons.mp queued
  have steady : ∀ i, Steady r { r with instrs := rest, steps := r.steps + 1 } i :=
    fun i => ⟨⟨rfl, fun _ _ => rfl⟩, .refl _, id, fun _ => id,
      fun _ t found => ⟨t, found, List.Subset.refl _⟩, fun _ _ => rfl⟩
  constructor
  · exact balanced.operable
  · exact balanced.tracked.of_same rfl rfl rfl
  · intro i queued
    apply balanced.queued i
    rw [next]
    exact List.mem_cons_of_mem j queued
  · exact balanced.readers
  · intro i listed visited
    rcases (balanced.instr i listed visited).resolve_left id with stable | waits | waits
    · refine .inr (.inl ⟨stable.value, fun t frame is_landing => ?_, fun s is_call => ?_⟩)
      · obtain ⟨cell, heard⟩ := stable.landing t frame is_landing
        refine ⟨cell, fun a throws => ?_⟩
        rcases heard a throws with slack | ⟨l, v, last, is_raise, queued⟩ | covered
        · exact slack.elim
        · rcases others l queued with rfl | later
          · exact .inl (.inr ⟨last, v, is_raise⟩)
          · exact .inr (.inl ⟨l, v, last, is_raise, later⟩)
        · exact .inr (.inr covered)
      · exact (stable.call s is_call).imp_right fun holds => lasts r _ i s is_call holds (steady i)
    · rcases others i waits with rfl | later
      · exact .inl (.inr rfl)
      · exact .inr (.inr (.inl later))
    · exact .inr (.inr (.inr waits))
  · intro b visited
    rcases (balanced.edges b visited).resolve_left id with marked | waits | ⟨l, queued, last⟩
    · exact .inr (.inl marked)
    · exact .inr (.inr (.inl waits))
    · rcases others l queued with rfl | later
      · exact .inl (.inr last)
      · exact .inr (.inr (.inr ⟨l, later, last⟩))
  · intro a
    refine .inr fun raising => ?_
    exact (balanced.landed a).resolve_left id (raising.of_same (.refl _) rfl fun _ _ => rfl)

omit lasts upholds in
/-- An instruction of a block that was not visited need not be evaluated. -/
theorem Balanced.drop {j : InstrId} (balanced : p.Balanced K (Slack.none.before r.graph j) r)
    (unvisited : r.graph.blockOf j ∉ r.visited) : p.Balanced K .none r := by
  have closed : ∀ a, r.graph.last? a = some j → a ∉ r.visited := by
    intro a last
    rw [← (FlowGraph.listed_of_last balanced.operable.toClosed last).2]
    exact unvisited
  refine ⟨balanced.operable, balanced.tracked, balanced.queued, balanced.readers, ?_, ?_, ?_⟩
  · intro i listed visited
    rcases balanced.instr i listed visited with (none | rfl) | stable | waits
    · exact none.elim
    · exact absurd visited unvisited
    · refine .inr (.inl ⟨stable.value, fun t frame is_landing => ?_, stable.call⟩)
      obtain ⟨cell, heard⟩ := stable.landing t frame is_landing
      refine ⟨cell, fun a throws => ?_⟩
      rcases heard a throws with (none | ⟨last, -⟩) | rest
      · exact none.elim
      · obtain ⟨x, raised, -⟩ := throws
        exact absurd (balanced.tracked.left a x raised.taken) (closed a last)
      · exact .inr rest
    · exact .inr (.inr waits)
  · intro b visited
    rcases balanced.edges b visited with (none | last) | rest
    · exact none.elim
    · exact absurd visited (closed b last)
    · exact .inr rest
  · intro a
    rcases balanced.landed a with (none | ⟨last, v, is_raise⟩) | landed
    · exact none.elim
    · refine .inr fun raising => ?_
      cases raising with
      | call last' is_call =>
        cases last.symm.trans last'
        cases is_raise.symm.trans is_call
      | raise last' _ visited => exact absurd visited (closed a last)
    · exact .inr landed

theorem Balanced.stepped (balanced : p.Balanced K .none r) : p.Balanced K .none (p.step.run r).2 := by
  obtain ⟨b, rest, blocks, stepped⟩ | ⟨j, rest, -, instrs, stepped⟩ | ⟨-, stepped⟩ := p.step_run r
  · rw [stepped]
    exact balanced.visit lasts upholds blocks
  · have listed := balanced.queued j (instrs ▸ List.mem_cons_self)
    rw [stepped]
    split
    · rename_i visited
      exact (balanced.take lasts instrs).evaluate lasts upholds listed
        (List.contains_iff_mem.mp visited) fun a slack => slack.elim
    · rename_i unvisited
      apply (balanced.take lasts instrs).drop
      exact fun visited => unvisited (List.contains_iff_mem.mpr visited)
  · rw [stepped]
    exact balanced

theorem Balanced.loop (n : Nat) (balanced : p.Balanced K .none r) :
    p.Balanced K .none (p.loop n r) := by
  induction n generalizing r with
  | zero => exact balanced
  | succ n ih =>
    rw [Propagation.loop]
    split
    · exact balanced
    · exact ih (balanced.stepped lasts upholds)

/-! The end of a run. -/

omit lasts upholds in
theorem balanced_start {g : FlowGraph} (operable : g.Operable) (source : σ) :
    p.Balanced K .none (.start g.resetPropagation source) := by
  have unvisited : ∀ {a : BlockId}, a ∉ (Run.start g.resetPropagation source).visited :=
    List.not_mem_nil
  constructor
  · exact g.sameOutline_reset.operable operable
  · exact tracked_start g source
  · intro i queued
    cases queued
  · intro key i reader
    cases reader
  · exact fun i _ visited => absurd visited unvisited
  · exact fun b visited => absurd visited unvisited
  · refine fun a => .inr fun raising => ?_
    cases raising with
    | @call l s f last is_call mayRaise frequency raises =>
      -- nothing is recorded of calls that were never evaluated
      have fresh := g.instr_reset l
      change g.resetPropagation.instr l = .call s at is_call
      rw [is_call] at fresh
      cases is_l : g.instr l with
      | call s' =>
        rw [is_l] at fresh
        cases fresh
        cases frequency
      | _ =>
        rw [is_l] at fresh
        cases fresh
    | raise last is_raise visited => exact absurd visited unvisited

variable (p K) in
/-- Nothing is left to be found out. -/
structure Settled (r : Run σ) : Prop where
  done : r.isDone = true
  operable : r.graph.Operable
  tracked : Tracked r
  stable : ∀ b ∈ r.visited, ∀ i ∈ (r.graph.block b).instrs, p.Stable K (fun _ => False) r i
  marked : ∀ b ∈ r.visited, r.Marked b

omit lasts upholds in
theorem Balanced.settled (balanced : p.Balanced K .none r) (done : r.isDone = true) :
    p.Settled K r := by
  obtain ⟨no_blocks, no_instrs⟩ := Bool.and_eq_true_iff.mp done
  have blocks : r.blocks = [] := List.isEmpty_iff.mp no_blocks
  have instrs : r.instrs = [] := List.isEmpty_iff.mp no_instrs
  refine ⟨done, balanced.operable, balanced.tracked, fun b visited i member => ?_, fun b visited => ?_⟩
  · have place := (balanced.operable.placed b i member).2
    have listed : r.graph.Listed i := by
      rw [FlowGraph.Listed, place]
      exact member
    rcases (balanced.instr i listed (place ▸ visited)).resolve_left id with stable | waits | waits
    · exact stable
    · simp [instrs] at waits
    · simp [blocks] at waits
  · rcases (balanced.edges b visited).resolve_left id with marked | waits | ⟨l, waits, -⟩
    · exact marked
    · simp [blocks] at waits
    · simp [instrs] at waits

/-- What an analysis hands out is settled. -/
theorem settled_of_analyze {g h : FlowGraph} (operable : g.Operable) {source source' : σ}
    {stats : Stats} (analyzed : p.analyze (g, source) = .ok stats (h, source')) :
    ∃ r : Run σ, r.graph = h ∧ p.Settled K r := by
  obtain ⟨n, done, rfl⟩ := p.exists_moment_of_analyze source analyzed
  have balanced := (balanced_start operable source).loop lasts upholds n
  refine ⟨{ p.moment g source n with graph := _ }, rfl, Balanced.settled ?_ done⟩
  exact balanced.of_same lasts ⟨rfl, rfl, rfl, rfl, rfl, rfl, rfl⟩ rfl rfl rfl

end Steps

end ScriptFlow.Propagation
