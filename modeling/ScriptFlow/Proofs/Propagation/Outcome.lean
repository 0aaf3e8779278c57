import ScriptFlow.Proofs.Propagation.Runs

/-! What the evaluation of a call comes to, and what of it is still there as long as nothing changes
that the call reads. With a source of summaries that keeps no state, a dispatch gives an answer that
hangs on the operands alone, or it reads or writes instance variables. -/

namespace ScriptFlow

/-! Joining the same twice. -/

/-- Insertions that come to rest, and that no other insertion disturbs, need not be repeated. -/
theorem foldl_foldl_of_kept {α β : Type} (ins : α → β → β)
    (self : ∀ a b, ins a (ins a b) = ins a b)
    (kept : ∀ a c b, ins a b = b → ins a (ins c b) = ins c b) (as : List α) (b : β) :
    as.foldl (fun b a => ins a b) (as.foldl (fun b a => ins a b) b) =
      as.foldl (fun b a => ins a b) b := by
  have stays : ∀ (cs : List α) a b, ins a b = b →
      ins a (cs.foldl (fun b a => ins a b) b) = cs.foldl (fun b a => ins a b) b := by
    intro cs
    induction cs with
    | nil => exact fun a b placed => placed
    | cons c cs ih => exact fun a b placed => ih a _ (kept a c b placed)
  have placed : ∀ (as : List α) b, ∀ a ∈ as,
      ins a (as.foldl (fun b a => ins a b) b) = as.foldl (fun b a => ins a b) b := by
    intro as
    induction as with
    | nil => exact fun b a member => absurd member List.not_mem_nil
    | cons c as ih =>
      intro b a member
      rcases List.mem_cons.mp member with rfl | later
      · exact stays as a _ (self a b)
      · exact ih _ a later
  have rests : ∀ (as : List α) b, (∀ a ∈ as, ins a b = b) → as.foldl (fun b a => ins a b) b = b := by
    intro as
    induction as with
    | nil => exact fun b _ => rfl
    | cons a as ih =>
      intro b placed
      rw [List.foldl_cons, placed a List.mem_cons_self]
      exact ih b fun c member => placed c (List.mem_cons_of_mem a member)
  exact rests as _ (placed as b)

theorem Member.insert_insert (m : Member) (ms : List Member) :
    m.insert (m.insert ms) = m.insert ms := by
  have same : m.order m = .eq := (order_eq_iff m m).mpr rfl
  induction ms with
  | nil => simp [insert, same]
  | cons a ms ih =>
    cases place : m.order a <;> simp [insert, place, same, ih]

theorem Member.insert_kept {m n : Member} {ms : List Member} (placed : m.insert ms = ms) :
    m.insert (n.insert ms) = n.insert ms := by
  induction ms with
  | nil => cases placed
  | cons a ms ih =>
    cases above : m.order a with
    | lt =>
      rw [insert, above] at placed
      exact absurd (congrArg List.length placed) (by simp)
    | eq =>
      cases (order_eq_iff m a).mp above
      cases place : n.order m with
      | lt =>
        have after : m.order n = .gt := by rw [← order_swap n m, place]; rfl
        simp [insert, place, after, above]
      | eq => simp [insert, place, above]
      | gt => simp [insert, place, above]
    | gt =>
      have rest : m.insert ms = ms := by simpa [insert, above] using placed
      cases place : n.order a with
      | lt =>
        have below : a.order m = .lt := by rw [← order_swap m a, above]; rfl
        have after : m.order n = .gt := by
          rw [← order_swap n m, order_trans n a m place below]
          rfl
        simp [insert, place, after, above, rest]
      | eq => simp [insert, place, above, rest]
      | gt => simp [insert, place, above, ih rest]

theorem Ty.join_join (t u : Ty) : (t.join u).join u = t.join u := by
  apply foldl_foldl_of_kept Ty.insert
  · intro m t
    exact congrArg Ty.union (Member.insert_insert m t.members)
  · intro m n t placed
    have inside : m.insert t.members = t.members := congrArg Ty.members placed
    exact congrArg Ty.union (Member.insert_kept inside)

theorem insertNat_insertNat (n : Nat) (ns : List Nat) :
    insertNat n (insertNat n ns) = insertNat n ns := by
  induction ns with
  | nil => simp [insertNat]
  | cons m ns ih => grind [insertNat]

theorem insertNat_kept {n m : Nat} {ns : List Nat} (placed : insertNat n ns = ns) :
    insertNat n (insertNat m ns) = insertNat m ns := by
  induction ns with
  | nil => cases placed
  | cons k ns ih => grind [insertNat]

namespace Propagation

variable {σ : Type}

theorem Evaluation.joinTo_joinTo (e : Evaluation) (s : CallSite) :
    e.joinTo (e.joinTo s) = e.joinTo s := by
  have methods := foldl_foldl_of_kept insertNat insertNat_insertNat (fun _ _ _ => insertNat_kept)
    e.methods s.methods
  simp only [joinTo, Ty.join_join, methods]

/-! Deeds. -/

/-- What the dispatch of a call comes to. -/
inductive Deed where
  | answer (e : Evaluation)
  | read (name : String) (methods : List MethodId)
  | write (name : String) (value : Component) (methods : List MethodId)

section Deeds

variable (p : Propagation σ) (call : Call)

def Deed.perform : Deed → StateM (Run σ) Evaluation
  | answer e => pure e
  | read name methods => p.readVariable call name methods
  | write name value methods => p.writeVariable call name value methods

/-- The computation does the same as the deed in all graphs with the scope of `g`. -/
def Does (g : FlowGraph) (x : StateM (Run σ) Evaluation) (d : Deed) : Prop :=
  ∀ r : Run σ, r.graph.scope = g.scope → x.run r = (d.perform p call).run r

end Deeds

section Stateless

variable (p : Propagation Unit) (g : FlowGraph)

theorem resolver_congr {h : FlowGraph} (scope : h.scope = g.scope) : p.resolver h = p.resolver g := by
  simp only [resolver, selfType, scope]

theorem resolveCall_congr {h : FlowGraph} (scope : h.scope = g.scope) (call : Call) :
    p.resolveCall h call = p.resolveCall g call := by
  simp only [resolveCall, p.resolver_congr g scope, scope]

/-- A contextual core method is a deed of its own, or it is not decided by the context. -/
theorem decideContextual_cases (call : Call) (methods : List MethodId)
    {again : String → Bool → StateM (Run Unit) Evaluation}
    (deeds : ∀ name ignore, ∃ d, p.Does call g (again name ignore) d) (m : Contextual) :
    (∃ d : Deed, ∀ r : Run Unit, r.graph.scope = g.scope →
      (p.decideContextual call methods again m).run r = (some <$> d.perform p call).run r) ∨
    ∀ r : Run Unit, (p.decideContextual call methods again m).run r = (none, r) := by
  have decided : ∀ e : Option Evaluation,
      (∃ d : Deed, ∀ r : Run Unit, r.graph.scope = g.scope →
        (pure e : StateM (Run Unit) _).run r = (some <$> d.perform p call).run r) ∨
      ∀ r : Run Unit, (pure e : StateM (Run Unit) _).run r = (none, r) := by
    intro e
    cases e with
    | none => exact .inr fun r => rfl
    | some e => exact .inl ⟨.answer e, fun r _ => rfl⟩
  unfold decideContextual
  split
  · exact decided _
  · exact decided _
  · split
    · exact .inl ⟨.read _ methods, fun r _ => rfl⟩
    · exact decided none
  · split
    · exact .inl ⟨.write _ _ methods, fun r _ => rfl⟩
    · exact decided none
  · split
    · rename_i name _
      obtain ⟨d, does⟩ := deeds name _
      refine .inl ⟨d, fun r scope => ?_⟩
      rw [StateT.run_map, StateT.run_map, does r scope]
    · exact decided _
  · exact decided _
  · exact decided none

/-- The core method that the body around a call has a say in. -/
def contextual (call : Call) : Option Contextual :=
  (p.resolveCall g call).soleMethod?.bind fun id => Contextual.ofMethod? p.table (p.table.method id)

def plainly (call : Call) : Evaluation :=
  let res := p.resolveCall g call
  let special := (call.args.bind (foldSpecial p.table res call.name call.receiver)).map fun x =>
    .folded x .special res.methods
  let summary := (p.resolver g).aggregate p.source res (call.args.map fun xs => xs.map (·.ty))
    ((call.block.map (·.ty)).getD .nil)
  (special <|> p.simulateCall (p.resolver g) res call).getD (.ofDispatch (summary.run ()).1)

theorem dispatchOnce_run {call : Call} {again : String → Bool → StateM (Run Unit) Evaluation}
    {r r' : Run Unit} {x : Option Evaluation}
    (decided : ((p.contextual r.graph call).elim (pure none)
      (p.decideContextual call (p.resolveCall r.graph call).methods again)).run r = (x, r')) :
    (p.dispatchOnce call again).run r = (x.getD (p.plainly r.graph call), r') := by
  unfold dispatchOnce
  rw [run_get_bind]
  extract_lets g res method finish
  have finishes : (finish x).run r' = (x.getD (p.plainly g call), r') := by
    cases x with
    | some e => rfl
    | none =>
      dsimp only [finish, plainly, Option.getD_none]
      split
      · rename_i special
        rw [special]
        rfl
      · rename_i other
        rw [other]
        split
        · rename_i simulated
          rw [simulated]
          rfl
        · rename_i unsimulated
          rw [unsimulated]
          rfl
  rw [show p.contextual r.graph call = method from rfl] at decided
  clear_value method finish
  cases method with
  | some m => exact (run_bind_of_run decided).trans finishes
  | none => exact (run_bind_of_run decided).trans finishes

theorem exists_deed_dispatchOnce (call : Call) {again : String → Bool → StateM (Run Unit) Evaluation}
    (deeds : ∀ name ignore, ∃ d, p.Does call g (again name ignore) d) :
    ∃ d, p.Does call g (p.dispatchOnce call again) d := by
  have resolved {h : FlowGraph} (scope : h.scope = g.scope) := p.resolveCall_congr g scope call
  have resolver {h : FlowGraph} (scope : h.scope = g.scope) := p.resolver_congr g scope
  have method {h : FlowGraph} (scope : h.scope = g.scope) :
      p.contextual h call = p.contextual g call := by
    rw [contextual, resolved scope, contextual]
  have undecided (none : ∀ r : Run Unit, ((p.contextual g call).elim (pure none)
      (p.decideContextual call (p.resolveCall g call).methods again)).run r = (none, r)) :
      ∃ d, p.Does call g (p.dispatchOnce call again) d := by
    refine ⟨.answer (p.plainly g call), fun r scope => ?_⟩
    rw [p.dispatchOnce_run (by rw [method scope, resolved scope]; exact none r), plainly,
      resolved scope, resolver scope]
    rfl
  cases found : p.contextual g call with
  | none =>
    apply undecided
    rw [found]
    exact fun r => rfl
  | some m =>
    rcases p.decideContextual_cases g call (p.resolveCall g call).methods deeds m with
      ⟨d, does⟩ | none
    · refine ⟨d, fun r scope => ?_⟩
      have decided := does r scope
      rw [StateT.run_map] at decided
      rw [p.dispatchOnce_run (by rw [method scope, resolved scope, found]; exact decided)]
      rfl
    · apply undecided
      rw [found]
      exact none

theorem exists_deed_dispatchKnown (args : List Component) (call : Call) :
    ∃ d, p.Does call g (p.dispatchKnown args call) d := by
  -- a deed looks at the receiver of the call only, which is the same in every call made on the way
  induction args generalizing call with
  | nil =>
    exact p.exists_deed_dispatchOnce g { call with args := some [] }
      fun _ _ => ⟨.answer default, fun _ _ => rfl⟩
  | cons x xs ih =>
    exact p.exists_deed_dispatchOnce g { call with args := some (x :: xs) }
      fun name ignoreVisibility => ih { call with name, ignoreVisibility }

/-- Every dispatch comes to one of these deeds. -/
theorem exists_deed (call : Call) : ∃ d, p.Does call g (p.dispatch call) d := by
  unfold dispatch
  split
  · exact p.exists_deed_dispatchKnown g _ call
  · exact p.exists_deed_dispatchOnce g call fun _ _ => ⟨.answer default, fun _ _ => rfl⟩

end Stateless

/-! What a deed leaves behind. -/

section Traces

variable (p : Propagation σ) (call : Call) {r r' : Run σ}

/-- The variables of that name in the classes that a receiver may have. -/
def variablesOf (receiver : Ty) (name : String) : List VariableKey :=
  if receiver.isTop then [] else (p.table.possibleClasses receiver).map fun k => (k, name)

theorem readVariable_snd (name : String) (methods : List MethodId) (r : Run σ) :
    ((p.readVariable call name methods).run r).2 =
      (p.variablesOf call.receiver.ty name).foldl (Run.addReader call.instr) r := by
  unfold readVariable variablesOf
  split
  · rfl
  · rw [List.foldl_map]
    rfl

theorem writeVariable_run (name : String) (value : Component) (methods : List MethodId) (r : Run σ) :
    (p.writeVariable call name value methods).run r = (.folded value .special methods,
      (p.variablesOf call.receiver.ty name).foldl (Run.assignVariable value.ty) r) := by
  unfold writeVariable variablesOf
  cases call.receiver.ty.isTop with
  | true => rfl
  | false =>
    rw [if_neg Bool.false_ne_true, List.foldl_map]
    rfl

/-- The type that is read hangs on these variables alone. -/
theorem readVariable_fst_congr {name : String}
    (same : ∀ key ∈ p.variablesOf call.receiver.ty name, r'.variableType key = r.variableType key)
    (methods : List MethodId) :
    ((p.readVariable call name methods).run r').1 = ((p.readVariable call name methods).run r).1 := by
  unfold variablesOf at same
  unfold readVariable
  split
  · rfl
  · rename_i known
    rw [if_neg known] at same
    have joined : ∀ t : Ty,
        (p.table.possibleClasses call.receiver.ty).foldl
          (fun t k => t.join (p.variableType r' name k)) t =
        (p.table.possibleClasses call.receiver.ty).foldl
          (fun t k => t.join (p.variableType r name k)) t := by
      intro t
      apply List.foldl_ext
      intro t k member
      simp only [variableType, same (k, name) (List.mem_map_of_mem member)]
    simp only [run_get_bind, run_set_bind, joined]
    rfl

/-- What a deed reads is noted, and what it writes is there. -/
def Deed.Noted (r : Run σ) : Deed → Prop
  | answer _ => True
  | read name _ => ∀ key ∈ p.variablesOf call.receiver.ty name, call.instr ∈ r.readersOf key
  | write name value _ => ∀ key ∈ p.variablesOf call.receiver.ty name,
    ∃ t, r.graph.variableTypes.lookup key = some t ∧ value.ty.members ⊆ t.members

theorem mem_readersOf_addReaders (i : InstrId) (keys : List VariableKey) (r : Run σ)
    (key : VariableKey) : i ∈ (keys.foldl (Run.addReader i) r).readersOf key ↔
      key ∈ keys ∨ i ∈ r.readersOf key := by
  induction keys generalizing r with
  | nil => simp
  | cons k keys ih =>
    rw [List.foldl_cons, ih, readersOf_addReader, List.mem_cons]
    split
    · rename_i here
      simp [here, mem_insertNat]
    · rename_i other
      simp [other]

theorem exists_addReaders_eq (i : InstrId) (keys : List VariableKey) (r : Run σ) :
    ∃ readers, keys.foldl (Run.addReader i) r = { r with readers } := by
  induction keys generalizing r with
  | nil => exact ⟨_, rfl⟩
  | cons k keys ih => exact ih (r.addReader i k)

theorem exists_lookup_assignVariables (ty : Ty) (keys : List VariableKey) (r : Run σ)
    {key : VariableKey}
    (there : key ∈ keys ∨ ∃ t, r.graph.variableTypes.lookup key = some t ∧ ty.members ⊆ t.members) :
    ∃ t, (keys.foldl (Run.assignVariable ty) r).graph.variableTypes.lookup key = some t ∧
      ty.members ⊆ t.members := by
  induction keys generalizing r with
  | nil => exact there.resolve_left List.not_mem_nil
  | cons k keys ih =>
    apply ih
    rw [lookup_assignVariable]
    split
    · exact .inr ⟨_, rfl, fun m member => Ty.mem_join.mpr (.inr member)⟩
    · rename_i other
      exact there.imp_left fun member => (List.mem_cons.mp member).resolve_left other

theorem Deed.noted_perform (d : Deed) (r : Run σ) :
    d.Noted p call ((d.perform p call).run r).2 := by
  cases d with
  | answer e => trivial
  | read name methods =>
    intro key member
    rw [perform, readVariable_snd]
    exact (mem_readersOf_addReaders _ _ r key).mpr (.inl member)
  | write name value methods =>
    intro key member
    rw [perform, writeVariable_run]
    exact exists_lookup_assignVariables _ _ r (.inl member)

variable {p call}

theorem Deed.perform_fst_congr {d : Deed}
    (same : ∀ name methods, d = .read name methods →
      ∀ key ∈ p.variablesOf call.receiver.ty name, r'.variableType key = r.variableType key) :
    ((d.perform p call).run r').1 = ((d.perform p call).run r).1 := by
  cases d with
  | answer e => rfl
  | read name methods => exact p.readVariable_fst_congr call (same name methods rfl) methods
  | write name value methods => rw [perform, writeVariable_run, writeVariable_run]

/-- A deed done twice has the same outcome. -/
theorem Deed.perform_fst_perform (p : Propagation σ) (call : Call) (d : Deed) (r : Run σ) :
    ((d.perform p call).run ((d.perform p call).run r).2).1 = ((d.perform p call).run r).1 := by
  apply perform_fst_congr
  rintro name methods rfl key -
  obtain ⟨readers, noted⟩ := exists_addReaders_eq call.instr (p.variablesOf call.receiver.ty name) r
  rw [perform, readVariable_snd, noted]
  rfl

theorem Deed.Noted.mono {d : Deed} (noted : d.Noted p call r)
    (readers : ∀ key, call.instr ∈ r.readersOf key → call.instr ∈ r'.readersOf key)
    (assigned : ∀ key t, r.graph.variableTypes.lookup key = some t →
      ∃ t', r'.graph.variableTypes.lookup key = some t' ∧ t.members ⊆ t'.members) :
    d.Noted p call r' := by
  cases d with
  | answer e => trivial
  | read name methods => exact fun key member => readers key (noted key member)
  | write name value methods =>
    intro key member
    obtain ⟨t, found, there⟩ := noted key member
    obtain ⟨t', found', more⟩ := assigned key t found
    exact ⟨t', found', List.Subset.trans there more⟩

end Traces

/-! What is recorded of a call. -/

/-- The outcome of a call is known already. -/
structure Evaluation.Known (e : Evaluation) (r : Run σ) (i : InstrId) (s : CallSite) : Prop where
  site : e.joinTo s = s
  caller : e.callsBlock = true → i ∈ r.blockCallers
  target : ∀ t, s.target = some t → Component.Below ⟨e.cell, e.ty⟩ (r.graph.component t)

/-- A dispatch of the call would come to what is known of it already. -/
def Concluded (p : Propagation σ) (r : Run σ) (i : InstrId) (s : CallSite) : Prop :=
  ∃ d : Deed, p.Does (p.callOf r.graph i s) r.graph (p.dispatch (p.callOf r.graph i s)) d ∧
    d.Noted p (p.callOf r.graph i s) r ∧
    ((d.perform p (p.callOf r.graph i s)).run r).1.Known r i s

theorem callOf_congr (p : Propagation σ) {g h : FlowGraph} {s : CallSite}
    (same : ∀ o ∈ s.operands, p.operand h o = p.operand g o) (i : InstrId) :
    p.callOf h i s = p.callOf g i s := by
  have args : s.args.map (p.operand h) = s.args.map (p.operand g) := by
    apply List.map_congr_left
    intro o member
    exact same o (by simp [CallSite.operands, member])
  have block : s.block.map (p.operand h) = s.block.map (p.operand g) := by
    apply Option.map_congr
    intro o member
    exact same o (by simp [CallSite.operands, member])
  have receiver := same s.receiver (by simp [CallSite.operands])
  simp only [callOf, args, block, receiver]

theorem lasts_concluded (p : Propagation σ) : Lasts p.Concluded := by
  rintro r r' i s is_call ⟨d, does, noted, known⟩ steady
  have call : p.callOf r'.graph i s = p.callOf r.graph i s := by
    apply callOf_congr
    intro o member
    apply steady.operand p
    · rw [is_call]
      exact member
    · rw [is_call]
      rfl
  have outcome : ((d.perform p (p.callOf r.graph i s)).run r').1 =
      ((d.perform p (p.callOf r.graph i s)).run r).1 := by
    apply Deed.perform_fst_congr
    rintro name methods rfl key member
    exact steady.read key (noted key member)
  refine ⟨d, ?_, ?_, ?_⟩
  · intro r'' scope
    rw [call]
    exact does r'' (scope.trans steady.grows.scope)
  · rw [call]
    exact noted.mono steady.readers steady.assigned
  · rw [call, outcome]
    exact ⟨known.site, fun calls => steady.callers (known.caller calls),
      fun t target => (known.target t target).trans (steady.grows.component t)⟩

section Recording

variable {i : InstrId} {s : CallSite} {r : Run σ}

theorem exists_report_eq (r : Run σ) (f : Finding) :
    ∃ findings, r.report f = { r with graph := { r.graph with findings } } := by
  unfold Run.report
  split
  · exact ⟨_, rfl⟩
  · exact ⟨_, rfl⟩

/-- The record of a call before its target learns of the outcome. -/
theorem exists_arityNoted_eq (b : BlockId) (x : Evaluation) (i : InstrId) (s : CallSite) (r : Run σ) :
    ∃ findings, arityNoted i b s x (blockNoted i x (written i s x r)) =
      { r with
        graph := { r.graph.setInstr i (.call (x.joinTo s)) with findings }
        blockCallers := if x.callsBlock then insertNat i r.blockCallers else r.blockCallers } := by
  have noted : blockNoted i x (written i s x r) =
      { r with
        graph := r.graph.setInstr i (.call (x.joinTo s))
        blockCallers := if x.callsBlock then insertNat i r.blockCallers else r.blockCallers } := by
    unfold blockNoted written
    split <;> rfl
  rw [noted, arityNoted]
  split
  · exact exists_report_eq _ _
  · exact ⟨_, rfl⟩

theorem exists_raiseNoted_eq (b : BlockId) (s : CallSite) (x : Evaluation) (r : Run σ) :
    ∃ blocks, raiseNoted b s x r = { r with blocks } := by
  unfold raiseNoted
  split
  · exact ⟨_, rfl⟩
  · exact ⟨_, rfl⟩

/-- What recording the outcome of a call leaves behind, and what it leaves alone. -/
structure Records (i : InstrId) (s : CallSite) (x : Evaluation) (r r' : Run σ) : Prop where
  scope : r'.graph.scope = r.graph.scope
  variables' : r'.graph.variableTypes = r.graph.variableTypes
  readers : r'.readers = r.readers
  caller : x.callsBlock = true → i ∈ r'.blockCallers
  target : ∀ t, s.target = some t → Component.Below ⟨x.cell, x.ty⟩ (r'.graph.component t)
  operands : i ∈ r'.instrs ∨
    ∀ v ∈ (Instr.call s).operands, r'.graph.component v = r.graph.component v

theorem records_targetLearned {x : Evaluation} (operable : r.graph.Operable)
    (listed : r.graph.Listed i) (is_call : r.graph.instr i = .call (x.joinTo s))
    (caller : x.callsBlock = true → i ∈ r.blockCallers) :
    Records i s x r (targetLearned s x r) := by
  unfold targetLearned
  cases target : s.target with
  | none =>
    refine ⟨rfl, rfl, rfl, caller, fun t found => ?_, .inr fun _ _ => rfl⟩
    rw [target] at found
    cases found
  | some t =>
    rw [Option.elim_some]
    have inside : t < r.graph.bindings.size :=
      (operable.inScope _ i listed).target t (by rw [is_call]; exact target)
    have below := below_learn r inside ⟨x.cell, x.ty⟩
    have reads := untouched_learn operable t x.cell x.ty listed
    obtain ⟨bindings, queue, learned, -⟩ := exists_learn_eq r t x.cell x.ty
    rw [learned] at below reads ⊢
    refine ⟨rfl, rfl, rfl, caller, fun t' found => ?_, reads.imp_right fun untouched => ?_⟩
    · rw [target] at found
      cases found
      exact below
    · have operands := untouched.operands
      rw [is_call] at operands
      exact operands

theorem records_record (operable : r.graph.Operable) (listed : r.graph.Listed i)
    (is_call : r.graph.instr i = .call s) (b : BlockId) (x : Evaluation) :
    Records i s x r (record i b s x r) := by
  obtain ⟨findings, noted⟩ := exists_arityNoted_eq b x i s r
  have same : r.graph.SameOutline { r.graph.setInstr i (.call (x.joinTo s)) with findings } := by
    apply FlowGraph.SameOutline.trans (h := r.graph.setInstr i (.call (x.joinTo s)))
    · exact FlowGraph.sameOutline_setInstr (by rw [is_call]; rfl)
    · exact ⟨rfl, rfl, rfl, rfl⟩
  have recorded := records_targetLearned (s := s) (x := x)
    (r := { r with
      graph := { r.graph.setInstr i (.call (x.joinTo s)) with findings }
      blockCallers := if x.callsBlock then insertNat i r.blockCallers else r.blockCallers })
    (same.operable operable) ((same.listed i).mpr listed)
    (FlowGraph.instr_setInstr_self _ _ (operable.placed _ i listed).1) (by
      intro calls
      rw [if_pos calls]
      exact mem_insertNat.mpr (.inl rfl))
  obtain ⟨blocks, raised⟩ := exists_raiseNoted_eq b s x (targetLearned s x
    (arityNoted i b s x (blockNoted i x (written i s x r))))
  rw [record_eq is_call, raised, noted]
  exact ⟨recorded.scope, recorded.variables', recorded.readers, recorded.caller, recorded.target,
    recorded.operands⟩

end Recording

theorem upholds_concluded (p : Propagation Unit) : p.Upholds p.Concluded := by
  intro r i s operable listed is_call defined r' ran s' is_call'
  obtain ⟨d, does⟩ := p.exists_deed r.graph (p.callOf r.graph i s)
  have evaluated := ((evaluateCall_cases p i (r.graph.blockOf i) s r).resolve_left
    fun waits => defined waits.1).2
  have aside := Aside.of_looks (p.along_dispatch (p.callOf r.graph i s) r)
  rw [evaluated] at ran
  rw [does r rfl] at ran aside
  have noted := d.noted_perform p (p.callOf r.graph i s) r
  have outcome := d.perform_fst_perform p (p.callOf r.graph i s) r
  generalize ((d.perform p (p.callOf r.graph i s)).run r).1 = x at ran outcome
  generalize ((d.perform p (p.callOf r.graph i s)).run r).2 = r₁ at ran outcome noted aside
  have same := aside.grows.toSameOutline
  have is_call₁ : r₁.graph.instr i = .call s := by
    rw [FlowGraph.instr_congr aside.instrs, is_call]
  have operable₁ := same.operable operable
  have listed₁ := (same.listed i).mpr listed
  have records := records_record operable₁ listed₁ is_call₁ (r.graph.blockOf i) x
  rw [ran, instr_record is_call₁ (operable₁.placed _ i listed₁).1] at is_call'
  rw [← ran] at records
  cases is_call'
  refine records.operands.imp_right fun operands => ?_
  have call : p.callOf r'.graph i s = p.callOf r.graph i s := by
    apply callOf_congr
    intro o member
    apply p.operand_congr
    intro v is_v
    rw [operands v (List.mem_filterMap.mpr ⟨o, member, is_v⟩)]
    rw [FlowGraph.component, FlowGraph.binding_congr aside.bindings]
    rfl
  have kept : ((d.perform p (p.callOf r.graph i s)).run r').1 = x := by
    rw [← outcome]
    apply Deed.perform_fst_congr
    rintro name methods rfl key -
    rw [Run.variableType, records.variables', Run.variableType]
  refine ⟨d, ?_, ?_, ?_⟩
  · intro r'' scope
    change (p.dispatch (p.callOf r'.graph i s)).run r'' = (d.perform p (p.callOf r'.graph i s)).run r''
    rw [call]
    exact does r'' (scope.trans (records.scope.trans aside.scope))
  · change d.Noted p (p.callOf r'.graph i s) r'
    rw [call]
    apply noted.mono
    · intro key reader
      rw [Run.readersOf, records.readers]
      exact reader
    · intro key t found
      rw [records.variables']
      exact ⟨t, found, List.Subset.refl _⟩
  · change ((d.perform p (p.callOf r'.graph i s)).run r').1.Known r' i (x.joinTo s)
    rw [call, kept]
    exact ⟨x.joinTo_joinTo s, records.caller, records.target⟩

end Propagation

end ScriptFlow
