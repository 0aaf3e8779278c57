import ScriptFlow.Proofs.Propagation.Balance

/-! What each change does to the balance of a run. -/

namespace ScriptFlow.Propagation

variable {i : InstrId} {g : FlowGraph} {a b : Nat}
variable {σ : Type} {p : Propagation σ} {K : Run σ → InstrId → CallSite → Prop} {e : Slack}
  {r r' : Run σ}

open Relation (ReflTransGen)

theorem mem_enqueueAll (r : Run σ) (is : List InstrId) (j : InstrId) :
    j ∈ (r.enqueueAll is).instrs ↔ j ∈ r.instrs ∨ j ∈ is := by
  induction is generalizing r with
  | nil => simp [Run.enqueueAll]
  | cons i is ih =>
    have first : j ∈ (r.enqueue i).instrs ↔ j ∈ r.instrs ∨ j = i := by
      unfold Run.enqueue
      split
      · rename_i known
        constructor
        · exact .inl
        · rintro (old | rfl)
          · exact old
          · exact List.contains_iff_mem.mp known
      · rw [List.mem_append, List.mem_singleton]
    change j ∈ ((r.enqueue i).enqueueAll is).instrs ↔ _
    rw [ih, first, List.mem_cons, or_assoc]

/-! Changes beside the graph. -/

theorem Aside.grows (aside : Aside r r') : r.graph.Grows r'.graph :=
  .of_same aside.blocks aside.instrs aside.bindings aside.scope

theorem Aside.untouched (aside : Aside r r') (i : InstrId) : Untouched r r' i where
  site := FlowGraph.instr_congr aside.instrs i
  operands v _ := by rw [FlowGraph.component, FlowGraph.binding_congr aside.bindings]; rfl

theorem Run.Raising.of_same {a : BlockId} (raising : r'.Raising a)
    (same : r.graph.SameOutline r'.graph) (visited : r'.visited = r.visited)
    (site : ∀ l, r.graph.last? a = some l → r'.graph.instr l = r.graph.instr l) : r.Raising a := by
  cases raising with
  | call last is_call mayRaise frequency raises =>
    rw [same.last] at last
    rw [site _ last] at is_call
    exact .call last is_call mayRaise frequency raises
  | raise last is_raise at_visited =>
    rw [same.last] at last
    rw [site _ last] at is_raise
    exact .raise last is_raise (visited ▸ at_visited)

theorem Balanced.aside (lasts : Lasts K) (balanced : p.Balanced K e r) (aside : Aside r r')
    (queue : r.instrs ⊆ r'.instrs) (queued : ∀ i ∈ r'.instrs, r.graph.Listed i)
    (readers : ∀ key, ∀ i ∈ r'.readersOf key, r.graph.Listed i)
    (noted : ∀ key, r.readersOf key ⊆ r'.readersOf key)
    (assigned : ∀ key t, r.graph.variableTypes.lookup key = some t →
      ∃ t', r'.graph.variableTypes.lookup key = some t' ∧ t.members ⊆ t'.members)
    (read : ∀ key, ∀ i ∈ r.readersOf key,
      i ∈ r'.instrs ∨ r'.variableType key = r.variableType key) :
    p.Balanced K e r' := by
  have same := aside.grows.toSameOutline
  have tracked := balanced.tracked.of_same aside.blocks aside.visited aside.queue
  apply balanced.still lasts tracked aside.grows aside.blocks aside.visited queue
    (by rw [aside.queue]; exact List.Subset.refl _) queued readers
  · intro i listed _
    by_cases waits : i ∈ r'.instrs
    · exact .inl waits
    · refine .inr ⟨aside.untouched i, aside.grows, ?_, fun key member => noted key member, assigned,
        fun key member => (read key i member).resolve_left waits⟩
      rw [aside.blockCallers]
      exact id
  · intro a
    refine .inr (.inr ?_)
    rw [p.thrown_congr same (fun l _ => (aside.untouched l).site) fun l v _ _ => aside.untouched l]
    exact List.Subset.refl _
  · intro b l _ _
    rw [aside.blockCallers]
    exact .inr ⟨aside.untouched l, Iff.rfl⟩
  · intro a _ raising
    exact raising.of_same same aside.visited fun l _ => (aside.untouched l).site

theorem Balanced.of_same (lasts : Lasts K) (balanced : p.Balanced K e r) (aside : Aside r r')
    (queue : r'.instrs = r.instrs) (readers : r'.readers = r.readers)
    (variables' : r'.graph.variableTypes = r.graph.variableTypes) : p.Balanced K e r' := by
  have noted : ∀ key, r'.readersOf key = r.readersOf key := by
    intro key
    rw [Run.readersOf, readers, Run.readersOf]
  apply balanced.aside lasts aside
  · rw [queue]
    exact List.Subset.refl _
  · rw [queue]
    exact balanced.queued
  · intro key
    rw [noted]
    exact balanced.readers key
  · intro key
    rw [noted]
    exact List.Subset.refl _
  · intro key t found
    rw [variables']
    exact ⟨t, found, List.Subset.refl _⟩
  · intro key i _
    rw [Run.variableType, variables', Run.variableType]
    exact .inr rfl

theorem Balanced.report (lasts : Lasts K) (balanced : p.Balanced K e r) (f : Finding) :
    p.Balanced K e (r.report f) := by
  unfold Run.report
  split
  · exact balanced
  · exact balanced.of_same lasts ⟨rfl, rfl, rfl, rfl, rfl, rfl, rfl⟩ rfl rfl rfl

/-! Instance variables. -/

theorem lookup_putVariable {α : Type} (key k : VariableKey) (a : α) (es : List (VariableKey × α)) :
    (Run.putVariable key a es).lookup k = if k = key then some a else es.lookup k := by
  induction es with
  | nil =>
    rw [Run.putVariable, List.lookup_cons]
    split <;> simp_all
  | cons x es ih =>
    rw [Run.putVariable]
    split
    · rename_i here
      rw [List.lookup_cons, List.lookup_cons, here]
      split <;> simp_all
    · rename_i elsewhere
      rw [List.lookup_cons, List.lookup_cons, ih]
      split
      · rename_i found
        rw [if_neg]
        intro same
        exact elsewhere ((beq_iff_eq.mp found).symm.trans same)
      · rfl

theorem readersOf_addReader (r : Run σ) (i : InstrId) (key k : VariableKey) :
    (r.addReader i key).readersOf k =
      if k = key then insertNat i (r.readersOf key) else r.readersOf k := by
  rw [Run.readersOf, Run.addReader, lookup_putVariable]
  split <;> rfl

theorem Balanced.addReader (lasts : Lasts K) (balanced : p.Balanced K e r)
    (listed : r.graph.Listed i) (key : VariableKey) : p.Balanced K e (r.addReader i key) := by
  have aside : Aside r (r.addReader i key) := .of_look (p := p) (.read r key)
  apply balanced.aside lasts aside (List.Subset.refl _) balanced.queued
  · intro k j member
    rw [readersOf_addReader] at member
    split at member
    · rcases mem_insertNat.mp member with rfl | old
      · exact listed
      · exact balanced.readers key j old
    · exact balanced.readers k j member
  · intro k j member
    rw [readersOf_addReader]
    split
    · rename_i here
      exact mem_insertNat.mpr (.inr (here ▸ member))
    · exact member
  · exact fun k t found => ⟨t, found, List.Subset.refl _⟩
  · exact fun k j _ => .inr rfl

/-- A type is joined to a variable. -/
def Run.assigned (r : Run σ) (ty : Ty) (key : VariableKey) : Run σ :=
  let joined := (r.variableType key).join ty
  { r with graph := { r.graph with variableTypes := putVariable key joined r.graph.variableTypes } }

theorem assignVariable_eq (r : Run σ) (ty : Ty) (key : VariableKey) :
    r.assignVariable ty key =
      if ((r.variableType key).extend ty).1 then (r.assigned ty key).enqueueAll (r.readersOf key)
      else r.assigned ty key := rfl

/-- Apart from the queue, an assignment always does the same. -/
theorem exists_assignVariable_eq (r : Run σ) (ty : Ty) (key : VariableKey) :
    ∃ queue, r.assignVariable ty key = { r.assigned ty key with instrs := queue } := by
  rw [assignVariable_eq]
  split
  · exact Run.enqueueAll_eq _ _
  · exact ⟨_, rfl⟩

theorem lookup_assignVariable (r : Run σ) (ty : Ty) (key k : VariableKey) :
    (r.assignVariable ty key).graph.variableTypes.lookup k =
      if k = key then some ((r.variableType key).join ty) else r.graph.variableTypes.lookup k := by
  obtain ⟨queue, assigned⟩ := exists_assignVariable_eq r ty key
  rw [assigned]
  exact lookup_putVariable key k _ _

theorem readersOf_assignVariable (r : Run σ) (ty : Ty) (key k : VariableKey) :
    (r.assignVariable ty key).readersOf k = r.readersOf k := by
  obtain ⟨queue, assigned⟩ := exists_assignVariable_eq r ty key
  rw [assigned]
  rfl

theorem mem_instrs_assignVariable (r : Run σ) (ty : Ty) (key : VariableKey) (j : InstrId) :
    j ∈ (r.assignVariable ty key).instrs ↔
      j ∈ r.instrs ∨ ((r.variableType key).extend ty).1 = true ∧ j ∈ r.readersOf key := by
  rw [assignVariable_eq]
  split
  · rename_i grew
    rw [mem_enqueueAll]
    simp [grew, Run.assigned]
  · rename_i same
    simp [same, Run.assigned]

theorem Balanced.assignVariable (lasts : Lasts K) (balanced : p.Balanced K e r) (ty : Ty)
    (key : VariableKey) : p.Balanced K e (r.assignVariable ty key) := by
  have noted := readersOf_assignVariable r ty key
  apply balanced.aside lasts (.assignVariable r ty key)
  · exact fun j member => (mem_instrs_assignVariable r ty key j).mpr (.inl member)
  · intro j member
    rcases (mem_instrs_assignVariable r ty key j).mp member with old | ⟨-, reader⟩
    · exact balanced.queued j old
    · exact balanced.readers key j reader
  · intro k
    rw [noted]
    exact balanced.readers k
  · intro k
    rw [noted]
    exact List.Subset.refl _
  · intro k t found
    rw [lookup_assignVariable]
    split
    · rename_i here
      refine ⟨_, rfl, fun m member => Ty.mem_join.mpr (.inl ?_)⟩
      rw [Run.variableType, ← here, found]
      exact member
    · exact ⟨t, found, List.Subset.refl _⟩
  · intro k j reader
    rw [mem_instrs_assignVariable]
    by_cases here : k = key
    · cases grew : ((r.variableType key).extend ty).1 with
      | true => exact .inl (.inr ⟨rfl, here ▸ reader⟩)
      | false =>
        refine .inr ?_
        rw [Run.variableType, lookup_assignVariable, if_pos here, Option.getD_some,
          Ty.join_eq_of_extend grew, here]
    · refine .inr ?_
      rw [Run.variableType, lookup_assignVariable, if_neg here, Run.variableType]

theorem Balanced.looks (lasts : Lasts K) (balanced : p.Balanced K e r)
    (listed : r.graph.Listed i) (looks : ReflTransGen (Look p i) r r') : p.Balanced K e r' := by
  induction looks with
  | refl => exact balanced
  | tail before look ih =>
    have listed' := ((Aside.of_looks before).grows.toSameOutline.listed i).mpr listed
    cases look with
    | ask query => exact ih.of_same lasts ⟨rfl, rfl, rfl, rfl, rfl, rfl, rfl⟩ rfl rfl rfl
    | read key => exact ih.addReader lasts listed' key
    | write ty key => exact ih.assignVariable lasts ty key

/-! Exceptions. -/

theorem isExecuted_of_taken (linked : g.Linked) (taken : g.Taken a b) : g.isExecuted b = true := by
  have pred := (linked.symm a b).mp taken.mem_succIds
  exact Bool.or_eq_true_iff.mpr (.inr (List.any_eq_true.mpr ⟨a, pred, taken⟩))

theorem Raised.taken (raised : Raised g a b) : g.Taken a b := by
  unfold Raised at raised
  unfold FlowGraph.Taken
  cases edge : g.edge? a b with
  | none => simp [edge] at raised
  | some f =>
    rw [edge, Option.any_some] at raised
    exact (Bool.and_eq_true_iff.mp raised).1

theorem Raised.excepts (raised : Raised g a b) : Excepts g a b := by
  obtain ⟨f, edge, -, exceptional⟩ := raised.edge
  exact List.mem_map.mpr ⟨(b, f), List.mem_filter.mpr ⟨edge, exceptional⟩, rfl⟩

/-- The landing blocks that `a` throws to are told. -/
theorem Throws.mem_raiseReaders (linked : g.Linked)
    (throws : Throws g a b) : b ∈ Run.raiseReaders g a := by
  obtain ⟨x, raised, way⟩ := throws
  have executed := isExecuted_of_taken linked raised.taken
  rcases way with rfl | ⟨passes, onward⟩
  · exact Propagation.mem_raiseReaders raised.excepts executed executed (.inl rfl)
  · exact Propagation.mem_raiseReaders raised.excepts executed
      (isExecuted_of_taken linked onward.taken) (.inr ⟨passes, onward.excepts⟩)

theorem Balanced.mono {e' : Slack} (balanced : p.Balanced K e r)
    (instr : ∀ i, e.instr i → e'.instr i) (block : ∀ b, e.block b → e'.block b)
    (thrower : ∀ a, e.thrower a → e'.thrower a) (exit : ∀ a, e.exit a → e'.exit a) :
    p.Balanced K e' r where
  operable := balanced.operable
  tracked := balanced.tracked
  queued := balanced.queued
  readers := balanced.readers
  instr i listed visited := by
    refine (balanced.instr i listed visited).imp (instr i) (Or.imp_left fun stable => ?_)
    refine ⟨stable.value, fun t frame is_landing => ?_, stable.call⟩
    obtain ⟨cell, heard⟩ := stable.landing t frame is_landing
    exact ⟨cell, fun a throws => (heard a throws).imp_left (thrower a)⟩
  edges b visited := (balanced.edges b visited).imp_left (block b)
  landed a := (balanced.landed a).imp_left (exit a)

/-- Once the landing blocks of `a` are told, what it throws is taken into account. -/
theorem Balanced.notify (lasts : Lasts K) {a : BlockId}
    (balanced : p.Balanced K { e with thrower := fun c => e.thrower c ∨ c = a } r) :
    p.Balanced K e (r.notifyRaise a) := by
  have told : p.Balanced K { e with thrower := fun c => e.thrower c ∨ c = a } (r.notifyRaise a) := by
    apply balanced.still lasts (balanced.tracked.notifyRaise a) (.refl _) rfl rfl
      (List.Subset.refl _) (List.subset_append_left _ _) balanced.queued balanced.readers
    · exact fun i _ _ => .inr ⟨⟨rfl, fun _ _ => rfl⟩, .refl _, id, fun _ => id,
        fun _ t found => ⟨t, found, List.Subset.refl _⟩, fun _ _ => rfl⟩
    · exact fun _ => .inr (.inr (List.Subset.refl _))
    · exact fun _ _ _ _ => .inr ⟨⟨rfl, fun _ _ => rfl⟩, Iff.rfl⟩
    · exact fun _ _ raising => raising.of_same (.refl _) rfl fun _ _ => rfl
  refine ⟨told.operable, told.tracked, told.queued, told.readers, ?_, told.edges, told.landed⟩
  intro i listed visited
  refine (told.instr i listed visited).imp_right ?_
  rintro (stable | pending)
  · by_cases lands : (∃ t frame, r.graph.instr i = .param t .justRaised frame) ∧
        Throws r.graph a (r.graph.blockOf i)
    · obtain ⟨⟨t, frame, is_landing⟩, throws⟩ := lands
      have reader := throws.mem_raiseReaders balanced.operable.toLinked
      refine .inr (.inr ⟨?_, List.mem_append_right _ reader⟩)
      change dependsOnEntry (r.graph.instr i) = true
      rw [is_landing]
      rfl
    · refine .inl ⟨stable.value, fun t frame is_landing => ?_, stable.call⟩
      obtain ⟨cell, heard⟩ := stable.landing t frame is_landing
      refine ⟨cell, fun c throws => ?_⟩
      rcases heard c throws with (slack | rfl) | rest
      · exact .inl slack
      · exact absurd ⟨⟨t, frame, is_landing⟩, throws⟩ lands
      · exact .inr rest
  · exact .inr pending

/-! Calls. -/

theorem Balanced.caller (lasts : Lasts K) (balanced : p.Balanced K e r)
    (slack : ∀ a, r.graph.last? a = some i → e.block a) :
    p.Balanced K e { r with blockCallers := insertNat i r.blockCallers } := by
  have tracked : Tracked { r with blockCallers := insertNat i r.blockCallers } :=
    balanced.tracked.of_same rfl rfl rfl
  apply balanced.still lasts tracked (.refl _) rfl rfl (List.Subset.refl _) (List.Subset.refl _)
    balanced.queued balanced.readers
  · intro j _ _
    exact .inr ⟨⟨rfl, fun _ _ => rfl⟩, .refl _, fun known => mem_insertNat.mpr (.inr known),
      fun _ => id, fun _ t found => ⟨t, found, List.Subset.refl _⟩, fun _ _ => rfl⟩
  · exact fun _ => .inr (.inr (List.Subset.refl _))
  · intro b l last accounted
    refine .inr ⟨⟨rfl, fun _ _ => rfl⟩, ?_⟩
    rw [mem_insertNat]
    constructor
    · rintro (rfl | known)
      · exact absurd (slack b last) accounted
      · exact known
    · exact .inr
  · exact fun _ _ raising => raising.of_same (.refl _) rfl fun _ _ => rfl

theorem thrown_of_call {a : BlockId} {l : InstrId} {s : CallSite}
    (last : g.last? a = some l) (is_call : g.instr l = .call s) : p.thrown g a = s.raises := by
  unfold thrown
  rw [show (g.block a).instrs.getLast? = some l from last, Option.map_some, is_call]

/-- When the outcome of a call is written down, all that hangs on it is left out of account; without
news that is less. -/
theorem Balanced.written (lasts : Lasts K) (balanced : p.Balanced K e r)
    {s : CallSite} (is_call : r.graph.instr i = .call s) (x : Evaluation) (slack : e.instr i)
    (closing : ∀ a, r.graph.last? a = some i → e.block a)
    (news : x.isNews s = true → ∀ a, r.graph.last? a = some i → e.thrower a ∧ e.exit a) :
    p.Balanced K e (written i s x r) := by
  have grows : r.graph.Grows (Propagation.written i s x r).graph := by
    change r.graph.Grows (r.graph.setInstr i (.call (x.joinTo s)))
    refine FlowGraph.grows_setInstr is_call ?_ ?_ ?_ ?_
    · rfl
    · exact fun m member => Ty.mem_join.mpr (.inl member)
    · exact fun m member => mem_foldl_insertNat.mpr (.inr member)
    · rfl
  have same := grows.toSameOutline
  have others : ∀ j, i ≠ j → Untouched r (Propagation.written i s x r) j :=
    fun j other => ⟨FlowGraph.instr_setInstr_ne _ other _, fun _ _ => rfl⟩
  have site : ∀ s', (Propagation.written i s x r).graph.instr i = .call s' →
      s' = x.joinTo s ∨ s' = s := by
    intro s' is_call'
    change (r.graph.setInstr i (.call (x.joinTo s))).instr i = .call s' at is_call'
    rw [FlowGraph.instr_setInstr] at is_call'
    split at is_call'
    · exact .inl (Instr.call.inj is_call').symm
    · rw [is_call] at is_call'
      exact .inr (Instr.call.inj is_call').symm
  have quiet : x.isNews s = false → ∀ s', (Propagation.written i s x r).graph.instr i = .call s' →
      s'.raises = s.raises ∧ s'.frequency = s.frequency ∧ s'.mayRaise = s.mayRaise := by
    intro none s' is_call'
    obtain ⟨raises, frequency⟩ := Bool.or_eq_false_iff.mp none
    rcases site s' is_call' with rfl | rfl
    · exact ⟨Ty.join_eq_of_extend raises, (bne_eq_false_iff_eq.mp frequency).symm, rfl⟩
    · exact ⟨rfl, rfl, rfl⟩
  obtain ⟨s', is_call', -⟩ := grows.site i s is_call
  have tracked : Tracked (Propagation.written i s x r) := balanced.tracked.of_same rfl rfl rfl
  apply balanced.still lasts tracked grows rfl rfl (List.Subset.refl _) (List.Subset.refl _)
    balanced.queued balanced.readers
  · intro j _ accounted
    have other : i ≠ j := fun here => accounted (here ▸ slack)
    exact .inr ⟨others j other, grows, id, fun _ => id,
      fun _ t found => ⟨t, found, List.Subset.refl _⟩, fun _ _ => rfl⟩
  · intro a
    by_cases here : r.graph.last? a = some i
    · cases new : x.isNews s with
      | true => exact .inl (news new a here).1
      | false =>
        refine .inr (.inr ?_)
        rw [thrown_of_call ((same.last a).trans here) is_call', thrown_of_call here is_call,
          (quiet new s' is_call').1]
        exact List.Subset.refl _
    · refine .inr (.inr ?_)
      have last_other : ∀ l, r.graph.last? a = some l → i ≠ l :=
        fun l last same => here (same ▸ last)
      rw [p.thrown_congr same (fun l last => (others l (last_other l last)).site)
        fun l v last _ => others l (last_other l last)]
      exact List.Subset.refl _
  · intro b l last accounted
    have other : i ≠ l := fun here => accounted (closing b (here ▸ last))
    exact .inr ⟨others l other, Iff.rfl⟩
  · intro a accounted raising
    by_cases here : r.graph.last? a = some i
    · cases new : x.isNews s with
      | true => exact absurd (news new a here).2 accounted
      | false =>
        cases raising with
        | call last is_call'' mayRaise frequency raises =>
          rw [same.last, here] at last
          cases last
          obtain ⟨-, frequency', mayRaise'⟩ := quiet new _ is_call''
          exact .call here is_call (mayRaise'.symm.trans mayRaise) (frequency'.symm.trans frequency)
            raises
        | raise last is_raise visited =>
          rw [same.last, here] at last
          cases last
          rw [is_call'] at is_raise
          cases is_raise
    · apply raising.of_same same rfl
      intro l last
      exact (others l fun same => here (same ▸ last)).site

/-! Bindings. -/

/-- Learning changes one binding, and what reads it has to wait if it grew. -/
theorem exists_learn_eq (r : Run σ) (t : BindingId) (cell : Cell) (ty : Ty) :
    ∃ bindings queue, r.learn t cell ty =
        { r with graph := { r.graph with bindings }, instrs := queue } ∧
      r.instrs ⊆ queue ∧ (∀ j ∈ queue, j ∈ r.instrs ∨ j ∈ (r.graph.binding t).uses) ∧
      (∀ v, t ≠ v → (r.learn t cell ty).graph.component v = r.graph.component v) ∧
      ((r.graph.binding t).uses ⊆ queue ∨ (r.learn t cell ty).graph = r.graph) := by
  rw [learn_eq]
  split
  · have waits := mem_enqueueAll (r.joined t cell ty) (r.graph.binding t).uses
    obtain ⟨queue, enqueued⟩ := Run.enqueueAll_eq (r.joined t cell ty) (r.graph.binding t).uses
    rw [enqueued] at waits ⊢
    refine ⟨_, queue, rfl, fun j old => (waits j).mpr (.inl old), fun j => (waits j).mp,
      fun v other => ?_, .inl fun j used => (waits j).mpr (.inr used)⟩
    change FlowGraph.component (r.graph.modifyBinding t _) v = _
    rw [FlowGraph.component, FlowGraph.binding_modifyBinding, if_neg fun here => other here.1]
    rfl
  · exact ⟨r.graph.bindings, r.instrs, rfl, List.Subset.refl _, fun j => .inl, fun _ _ => rfl,
      .inr rfl⟩

theorem untouched_learn (operable : r.graph.Operable) (t : BindingId) (cell : Cell) (ty : Ty)
    {j : InstrId} (listed : r.graph.Listed j) :
    j ∈ (r.learn t cell ty).instrs ∨ Untouched r (r.learn t cell ty) j := by
  obtain ⟨bindings, queue, learned, -, -, others, uses⟩ := exists_learn_eq r t cell ty
  have site : (r.learn t cell ty).graph.instr j = r.graph.instr j := by
    rw [learned]
    rfl
  rcases uses with waits | same
  · by_cases reads : t ∈ (r.graph.instr j).operands
    · refine .inl ?_
      rw [learned]
      exact waits (operable.reads _ j listed t reads)
    · exact .inr ⟨site, fun v operand => others v fun here => reads (here ▸ operand)⟩
  · refine .inr ⟨site, fun v _ => ?_⟩
    rw [same]

theorem Balanced.learn (lasts : Lasts K) (balanced : p.Balanced K e r) (t : BindingId) (cell : Cell)
    (ty : Ty) : p.Balanced K e (r.learn t cell ty) := by
  have grows := grows_learn r t cell ty
  have untouched : ∀ j, r.graph.Listed j → j ∈ (r.learn t cell ty).instrs ∨
      Untouched r (r.learn t cell ty) j := fun j => untouched_learn balanced.operable t cell ty
  have last_listed : ∀ b l, r.graph.last? b = some l → r.graph.Listed l :=
    fun b l last => (FlowGraph.listed_of_last balanced.operable.toClosed last).1
  obtain ⟨bindings, queue, learned, old, new, -, -⟩ := exists_learn_eq r t cell ty
  rw [learned] at grows untouched ⊢
  have tracked : Tracked { r with graph := { r.graph with bindings }, instrs := queue } :=
    balanced.tracked.of_same rfl rfl rfl
  apply balanced.still lasts tracked grows rfl rfl old (List.Subset.refl _)
  · intro j queued
    rcases new j queued with before | used
    · exact balanced.queued j before
    · exact balanced.operable.uses t j used
  · exact balanced.readers
  · intro j listed _
    refine (untouched j listed).imp_right fun untouched => ?_
    exact ⟨untouched, grows, id, fun _ => id, fun _ t found => ⟨t, found, List.Subset.refl _⟩,
      fun _ _ => rfl⟩
  · intro a
    by_cases roused : ∃ l v, r.graph.last? a = some l ∧ r.graph.instr l = .raise v ∧ l ∈ queue
    · exact .inr (.inl roused)
    · refine .inr (.inr ?_)
      rw [p.thrown_congr grows.toSameOutline (fun _ _ => rfl)]
      · exact List.Subset.refl _
      · intro l v last is_raise
        apply (untouched l (last_listed a l last)).resolve_left
        exact fun queued => roused ⟨l, v, last, is_raise, queued⟩
  · intro b l last _
    exact (untouched l (last_listed b l last)).imp_right fun untouched => ⟨untouched, Iff.rfl⟩
  · exact fun a _ raising => raising.of_same grows.toSameOutline rfl fun _ _ => rfl

theorem below_learn (r : Run σ) {t : Nat} (inside : t < r.graph.bindings.size) (x : Component) :
    x.Below ((r.learn t x.cell x.ty).graph.component t) := by
  rw [learn_eq]
  split
  · have aside := Aside.enqueueAll (r.joined t x.cell x.ty) (r.graph.binding t).uses
    rw [FlowGraph.component, FlowGraph.binding_congr aside.bindings]
    change Component.Below x (FlowGraph.component (r.graph.modifyBinding t _) t)
    rw [FlowGraph.component, FlowGraph.binding_modifyBinding, if_pos ⟨rfl, inside⟩]
    exact ⟨Cell.le_join_right _ _, fun m member => Ty.mem_join.mpr (.inr member)⟩
  · rename_i same
    have known := not_or.mp same
    have ty := Ty.join_eq_of_extend (Bool.not_eq_true _ ▸ known.2)
    refine ⟨Cell.join_eq_left_iff.mp (not_not.mp known.1), fun m member => ?_⟩
    change m ∈ (r.graph.binding t).ty.members
    rw [← ty]
    exact Ty.mem_join.mpr (.inr member)

end ScriptFlow.Propagation
