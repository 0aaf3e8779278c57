import ScriptFlow.Proofs.Lowering.Regular
import ScriptFlow.Proofs.Lowering.Watch
import ScriptFlow.Proofs.Tree.CalledMethods

/-! The `ensure` clause of a body always runs once the body has started. -/

namespace ScriptFlow.Lowering

variable {limit depth b : Nat} {want : Bool} {s' : State}

/-! Calls without arguments. -/

/-- A call of a method of the receiver itself. -/
def selfSite (c : Context) (method : String) : CallSite :=
  { siteOf false (.binding c.self) method (.fixed []) with ignoreVisibility := true }

theorem selfCall_run {method : String} {c : Context} {s : State}
    {value : Operand} (run : walk limit depth (.selfCall method []) want c s = .ok value s') :
    emitCall (selfSite c method) want c s = .ok value s' := by
  cases depth with
  | zero => cases run
  | succ depth => exact run

theorem callTarget_run {site : CallSite} {c : Context} {s : State}
    {target : Option BindingId} (run : callTarget site want c s = .ok target s') :
    s'.graph.blocks = s.graph.blocks ∧ s'.graph.instrs = s.graph.instrs ∧ s'.current = s.current := by
  unfold callTarget at run
  split at run
  · cases run
    exact ⟨rfl, rfl, rfl⟩
  · cases run
    exact ⟨rfl, rfl, rfl⟩

/-- A call that may raise, with its instruction left to a hypothesis. -/
theorem emitCall_into {P : Policy} [P.Stable] {L : Set Nat} {O : List Stub}
    {site : CallSite} (raises : site.mayRaise = true) {c : Context} {s : State}
    {value : Operand} (obeys : c.Obeys P L)
    (step : ∀ (g : FlowGraph) (target : Option BindingId), g.blocks = s.graph.blocks →
      g.instrs = s.graph.instrs →
      P.invariant L (g.pushInstr s.current (.call { site with target }))
        (.code s.current (some (.call { site with target })) [] :: O))
    (run : emitCall site want c s = .ok value s') :
    P.invariant L s'.graph (.opened s'.current :: O) := by
  rw [emitCall_of_raises raises] at run
  obtain ⟨target, s₁, run₁, run⟩ := run_bind run
  obtain ⟨blocks, instrs, stays⟩ := callTarget_run run₁
  obtain ⟨_, s₂, run₂, run⟩ := run_bind run
  obtain ⟨-, rfl⟩ := EStateM.Result.ok.inj run₂
  have rest : Moves P L s₁.current (.code s₁.current (some (.call { site with target })) [] :: O)
      (raiseEdge true >>= fun _ => pure (valueOf target)) (Resumes O) := by
    refine raiseEdge_moves fun landing after _ => .front 1 rfl ?_
    exact .close (.call _ { site with target } raises _ _) <| .pure rfl
  rw [← stays] at step
  obtain ⟨_, rfl, inv⟩ := rest c
    { s₁ with graph := s₁.graph.pushInstr s₁.current (.call { site with target }) } obeys rfl
    (step s₁.graph target blocks instrs) value s' run
  exact inv

/-! What the policies ask of trees. -/

section

variable {methodName : Option String} {method cleanup : String}
  {X : Set Nat → FlowGraph → List Stub → Prop} {G : Tree → Prop}

theorem kind_of_guarded {t : Tree} (guarded : t.IsGuarded method cleanup) :
    t.kind = .bodyStmt ∧ t.payload = .none ∧ ∃ u ∈ t.children, u.kind = .ensure := by
  obtain ⟨ts, rescues, otherwise, rfl⟩ := guarded
  exact ⟨rfl, rfl, .plain .ensure [.selfCall cleanup []], by simp [Tree.bodyStmt, Tree.plain, Tree.children], rfl⟩

theorem not_guarded {t : Tree} (other : t.kind ≠ .bodyStmt ∨ t.payload ≠ .none) :
    ¬t.IsGuarded method cleanup := by
  intro guarded
  obtain ⟨kind, payload, _⟩ := kind_of_guarded guarded
  exact other.elim (· kind) (· payload)

/-- The method is not called by nodes outside of guarded bodies. -/
theorem watching_admits (cleanup : String)
    (part : ∀ {t u : Tree}, G t → ¬t.IsGuarded method cleanup → u ∈ t.parts → G u)
    (quiet : ∀ {t : Tree}, G t → ¬t.IsGuarded method cleanup →
      method ∉ calledHere methodName t.children t.payload t.kind) :
    Admits (watching methodName method X) G where
  children {t} admitted := by
    by_cases guarded : t.IsGuarded method cleanup
    · exact .inr (kind_of_guarded guarded).2.2
    · exact .inl fun u member => part admitted guarded (Tree.mem_parts member)
  child admitted kind member := part admitted (not_guarded (.inl kind)) (Tree.mem_parts member)
  method {t name} admitted kind payload := by
    rintro rfl
    refine quiet admitted (not_guarded (.inr (by simp [payload]))) ?_
    rcases kind with kind | ⟨kind, plain⟩
    · simp [kind, payload, calledHere]
    · simp [kind, payload, calledHere, plain]
  getter {t u name} admitted kind first field payload := by
    rintro rfl
    refine quiet admitted (not_guarded (.inl (by simp [kind]))) ?_
    obtain ⟨others, same⟩ : ∃ others, t.children = u :: others := by
      cases same : t.children with
      | nil => simp [same] at first
      | cons v others => exact ⟨others, by simpa [same] using first⟩
    obtain ⟨_, us, _⟩ := u
    cases field
    cases payload
    simp [kind, same, calledHere]
  setter {t name} admitted kind payload := by
    rintro rfl
    refine quiet admitted (not_guarded (.inl (by simp [kind]))) ?_
    simp [kind, payload, calledHere]
  super {t} admitted kind name named := by
    rintro rfl
    have named : methodName = some name := named
    rcases kind with kind | kind
    all_goals
      refine quiet admitted (not_guarded (.inl (by simp [kind]))) ?_
      simp [kind, calledHere, named]
  body {t name formals body} admitted payload := by
    have other : ¬t.IsGuarded method cleanup := not_guarded (.inr (by simp [payload]))
    refine ⟨part admitted other ?_, fun name default member => part admitted other ?_⟩
    · simp [Tree.parts, payload]
    · have default_mem : default ∈ formals.filterMap Tree.defaultOf? :=
        List.mem_filterMap.mpr ⟨_, member, rfl⟩
      simp [Tree.parts, payload, default_mem]

theorem quiet_admits (methodName : Option String) (method : String)
    (X : Set Nat → FlowGraph → List Stub → Prop) : Admits (watching methodName method X)
    fun t => (t.calledMethods methodName).count method = 0 := by
  refine watching_admits "" (fun {t u} none _ member => ?_) fun {t} none _ => ?_
  · have whole := Tree.count_calledMethods methodName method t
    have below := Tree.count_le_of_mem methodName method member
    omega
  · have whole := Tree.count_calledMethods methodName method t
    rw [← List.count_eq_zero]
    omega

theorem guarded_admits : Admits (watching methodName method X)
    (Tree.CallsGuarded methodName method cleanup) :=
  watching_admits cleanup (fun calls other member => calls.part other member)
    fun calls other => calls.not_mem other

/-- Trees that do not call the method are lowered as the policies ask, at every depth. -/
theorem quiet_walks (steady : Steady method cleanup X) (unemitted : method ∉ builtinCalls)
    (methodName : Option String) (limit depth : Nat) : Walks (watching methodName method X)
      (fun t => (t.calledMethods methodName).count method = 0) (walk limit depth) := by
  have stable := watching_stable steady unemitted methodName
  have admits := quiet_admits methodName method X
  refine walk_walks limit (fun depth t want _ none _ => ?_) depth
  refine lowerBody_flows fun u member => ?_
  have whole := Tree.count_calledMethods methodName method t
  have below := Tree.count_le_of_mem methodName method (Tree.mem_parts member)
  omega

end

/-! Guarded bodies. -/

theorem add_ensure {c c' : Clauses} {e : Tree} (added : c.add (.plain .ensure [e]) = .ok c') :
    c' = { c with ensure := some e } := by
  unfold Clauses.add at added
  dsimp only at added
  rw [if_neg (by simp [Tree.plain, Tree.kind])] at added
  split at added
  · exact (Except.ok.inj added).symm
  · rename_i second
    split at added
    · rename_i is_open
      exact absurd ⟨rfl, (Bool.and_eq_true_iff.mp is_open).2⟩ second
    · cases added

theorem clauses_guarded {G : Tree → Prop} {P : Policy} (_ : Admits P G) {ts : List Tree} {e : Tree}
    {clauses : Clauses}
    (folded : (ts ++ [Tree.plain .ensure [e]]).foldlM Clauses.add Clauses.none = .ok clauses)
    (all : ∀ t ∈ ts, G t) :
    clauses.ensure = some e ∧ (∀ h ∈ clauses.handlers, h.Admitted G) ∧
      ∀ t, clauses.otherwise = some t → G t := by
  rw [List.foldlM_append] at folded
  cases before : ts.foldlM Clauses.add Clauses.none with
  | error e => simp [before, bind, Except.bind] at folded
  | ok c =>
    have fit := clauses_admitted before ⟨by simp [Clauses.none], by simp [Clauses.none],
      by simp [Clauses.none]⟩ all
    rw [before] at folded
    change [Tree.plain .ensure [e]].foldlM Clauses.add c = .ok clauses at folded
    have added : c.add (.plain .ensure [e]) = .ok clauses := by simpa using folded
    rw [add_ensure added]
    exact ⟨rfl, fit.handlers, fit.otherwise⟩

section

variable {methodName : Option String} {method cleanup : String}

/-- The clause is copied to blocks that call its method. -/
theorem copies_watched (unemitted : method ∉ builtinCalls) (other : cleanup ≠ method)
    (limit depth : Nat) :
    Copies (fun copies => watching methodName method (Watched method cleanup copies))
      (walk limit depth) (.selfCall cleanup []) := by
  intro C L here O flags target α f Q lands rest
  have stable (C : Set Nat) :=
    watching_stable (watched_steady method cleanup C) unemitted methodName
  unfold ensureCopy
  simp only [bind_assoc, pure_bind]
  refine .newBlock fun b => .startAny ?_
  intro c s obeys at_here inv a s' run
  obtain ⟨_, s₁, run₁, run⟩ := run_bind run
  have watched : (watching methodName method (Watched method cleanup (insert b C))).invariant
      (insert b L) s₁.graph (.opened s₁.current :: O) := by
    refine emitCall_into rfl ⟨obeys.methodName, obeys.targets⟩
      (fun g target blocks instrs => ?_) (selfCall_run run₁)
    subst at_here
    have same := Policy.Stable.same inv blocks instrs
    exact ⟨same.1.finish, same.2.clean same.1 rfl other⟩
  have jumped := Moves.jumpWith (f := flags) (.inr lands) (rest b s₁.current)
  obtain ⟨O', post, holding, later⟩ := jumped c s₁ ⟨obeys.methodName, obeys.targets⟩ rfl watched a s' run
  exact ⟨O', post, holding, { later with cleaned := fun t member => later.cleaned t (.inr member) }⟩

/-- The body starts with a call of the watched method. -/
theorem entry_moves {entry size : Nat} {copies L : Set Nat} {O : List Stub}
    (unemitted : method ∉ builtinCalls) :
    Moves (watching methodName method (Confined method cleanup entry size copies)) L entry
      (.opened entry :: O) (walk limit depth (.selfCall method []) want) (Resumes O) := by
  have stable := watching_stable (confined_steady method cleanup entry size copies) unemitted methodName
  intro c s obeys at_here inv a s' run
  refine ⟨_, rfl, emitCall_into rfl obeys (fun g target blocks instrs => ?_) (selfCall_run run)⟩
  subst at_here
  have same := Policy.Stable.same inv blocks instrs
  exact ⟨same.1.finish, same.2.call same.1⟩

theorem body_moves {entry size : Nat} {copies L : Set Nat} {O : List Stub} {ts : List Tree}
    (unemitted : method ∉ builtinCalls)
    (quiet : ∀ u ∈ ts, (u.calledMethods methodName).count method = 0) :
    Moves (watching methodName method (Confined method cleanup entry size copies)) L entry
      (.opened entry :: O) (walk limit depth (.sequence (.selfCall method [] :: ts)) want)
      (Resumes O) := by
  cases depth with
  | zero => exact .throw
  | succ depth =>
    cases ts with
    | nil => exact entry_moves unemitted
    | cons u us =>
      have steady := confined_steady method cleanup entry size copies
      have first : Moves (watching methodName method (Confined method cleanup entry size copies)) L
          entry (.opened entry :: O) (walk limit depth (.selfCall method []) false) (Resumes O) :=
        entry_moves unemitted
      refine first.bind ?_
      rintro _ here _ rfl
      have walks := quiet_walks steady unemitted methodName limit depth
      exact (lowerSequence_flows quiet L here O).weaken
        fun _ _ _ same => same.1

theorem lowerBody_guarded {ts rescues : List Tree} {otherwise : Option Tree} (unemitted : method ∉ builtinCalls)
    (calls : Tree.CallsGuarded methodName method cleanup
      (.bodyStmt (.sequence (.selfCall method [] :: ts)) rescues otherwise
        (some (.selfCall cleanup [])))) :
    Flows (watching methodName method (Watched method cleanup ∅))
      (lowerBody (walk limit depth)
        (.bodyStmt (.sequence (.selfCall method [] :: ts)) rescues otherwise
          (some (.selfCall cleanup []))) want) Whatever := by
  obtain ⟨quiet, clauses_quiet, other⟩ := Tree.count_guarded calls
  have stable (C : Set Nat) :=
    watching_stable (watched_steady method cleanup C) unemitted methodName
  intro L here O
  refine .check fun body found => .check fun clauses folded => ?_
  cases found
  replace folded : ((rescues ++ otherwise.toList) ++ [Tree.plain .ensure [.selfCall cleanup []]]).foldlM
      Clauses.add Clauses.none = .ok clauses := folded
  obtain ⟨is_ensure, handlers, otherwise⟩ :=
    clauses_guarded (quiet_admits methodName method (Watched method cleanup ∅)) folded clauses_quiet
  refine tempIf_flows.into fun result here _ => ?_
  dsimp only
  rw [is_ensure]
  refine throughEnsure_moves
    (P := fun copies => watching methodName method (Watched method cleanup copies))
    (copies_watched unemitted other limit depth) fun C L' targets _ _ to_copies _ => ?_
  intro c s obeys at_here inv a s' run
  obtain ⟨_, s₁, run₁, run⟩ := run_bind run
  obtain ⟨_, s₂, run₂, run⟩ := run_bind run
  cases run
  subst at_here
  have steady := confined_steady method cleanup s.current s.graph.blocks.size C
  have confining := watching_stable steady unemitted methodName
  have walks := quiet_walks steady unemitted methodName limit depth
  have admits := quiet_admits methodName method
    (Confined method cleanup s.current s.graph.blocks.size C)
  -- inside, control is confined to new blocks and the copies of the clause
  have main : Moves
      (watching methodName method (Confined method cleanup s.current s.graph.blocks.size C)) C s.current
      (.opened s.current :: O) (lowerProtected (walk limit depth) (.sequence (.selfCall method [] :: ts))
        clauses.handlers clauses.otherwise result) (Resumes O) :=
    lowerProtected_moves (fun L' O' _ => body_moves unemitted quiet) handlers otherwise
  obtain ⟨_, rfl, holding₁, confined₁⟩ := main { c with targets } s ⟨obeys.methodName, to_copies⟩ rfl
    ⟨inv.1, inv.2.confine inv.1⟩ _ s₁ run₁
  refine ⟨_, ⟨rfl, trivial⟩, ?_⟩
  refine emitCall_into rfl obeys (fun g target blocks instrs => ?_) (selfCall_run run₂)
  have holding : Holding g (.opened s₁.current :: O) := holding₁.same blocks instrs
  have confined := steady.advance confined₁ (.same blocks instrs)
  refine ⟨holding.finish, confined.release holding rfl other inv.2.inside fun x member => ?_⟩
  exact ⟨(inv.1.held x (by simp [member])).inside, inv.1.apart x member⟩

/-- Trees that call the method in a guarded body only are lowered as the policy asks. -/
theorem guarded_walks (cleanup : String) (unemitted : method ∉ builtinCalls)
    (methodName : Option String) (limit depth : Nat) :
    Walks (watching methodName method (Watched method cleanup ∅))
      (Tree.CallsGuarded methodName method cleanup) (walk limit depth) := by
  have stable := watching_stable (watched_steady method cleanup ∅) unemitted methodName
  have admits : Admits (watching methodName method (Watched method cleanup ∅))
      (Tree.CallsGuarded methodName method cleanup) := guarded_admits
  refine walk_walks limit (fun depth t want _ calls _ => ?_) depth
  by_cases guarded : t.IsGuarded method cleanup
  · obtain ⟨ts, rescues, otherwise, rfl⟩ := guarded
    exact lowerBody_guarded unemitted calls
  · exact lowerBody_flows fun u member =>
      calls.part guarded (Tree.mem_parts member)

/-! Whole graphs. -/

theorem Made.watched {scope : Scope} {g : FlowGraph} (made : Made scope g) :
    Watched method cleanup ∅ firstLandings g firstStubs where
  inside t landing := by
    have low : t ≤ 5 := by simpa [FlowGraph.isDistinguished] using landing.1
    exact Nat.lt_of_lt_of_le (Nat.lt_succ_of_le low) made.intact.wellFormed.room
  cleaned t member := by cases member
  covered := by
    refine ⟨∅, ⟨fun b member => absurd member (Set.notMem_empty b), fun b calls => ?_⟩⟩
    obtain ⟨site, member, _⟩ := calls
    rw [(made.block_empty b).1] at member
    cases member

theorem lowerWhole_watched {l : Lowering} {body : Tree} {formals : List Formal} {start : Start}
    (started : Started l formals start) (unemitted : method ∉ builtinCalls)
    (calls : Tree.CallsGuarded l.methodName method cleanup body)
    (defaults : ∀ f ∈ formals, method ∉ f.calledMethods l.methodName)
    (run : lowerWhole (walk l.maxDepth l.maxDepth) body start.finalReturn start.finalException
      start.context start.state = .ok () s') :
    ∃ first, Watched method cleanup ∅ firstLandings s'.graph
      (lastStubs start.finalReturn start.finalException first) := by
  have stable := watching_stable (watched_steady method cleanup ∅) unemitted l.methodName
  have quiet : ∀ name default, Formal.optional name default ∈ start.context.formals →
      Tree.CallsGuarded l.methodName method cleanup default := fun name default member => by
    rw [started.formals] at member
    exact .inl (List.count_eq_zero.mpr (defaults _ member))
  have walks := guarded_walks cleanup unemitted l.methodName l.maxDepth l.maxDepth
  obtain ⟨first, _, watched⟩ := lowerWhole_invariant
    (P := watching l.methodName method (Watched method cleanup ∅)) (started.obeys rfl) calls quiet
    ⟨rfl, by decide⟩ ⟨rfl, by decide⟩ ⟨rfl, by decide⟩
    ⟨started.made.holding, started.made.watched⟩ run
  exact ⟨first, watched⟩

/-- In a built graph the blocks are as they were when lowering ended. -/
theorem calls_trimmed {g h : FlowGraph} (trimmed : FlowGraph.Trimmed FlowGraph.Spared g h)
    (live : (h.block b).removed = false) : h.Calls b method ↔ g.Calls b method := by
  refine calls_congr ?_
  rw [FlowGraph.code, (trimmed.kept b live id).1, FlowGraph.code]
  exact List.map_congr_left fun i _ => FlowGraph.instr_congr trimmed.instrs i

theorem live_of_calls {g : FlowGraph} (wf : g.WellFormed) (calls : g.Calls b method) :
    (g.block b).removed = false := by
  obtain ⟨site, member, _⟩ := calls
  by_contra gone
  rw [FlowGraph.code, (wf.bare b (by simpa using gone)).1] at member
  cases member

section

variable {g h : FlowGraph} {O : List Stub} {region : Set Nat} (wf : h.WellFormed)
  (trimmed : FlowGraph.Trimmed FlowGraph.Spared g h)

include wf trimmed

/-- Nothing but the region and the cleanup follows. -/
theorem Passed.follow {a : Nat} (passed : Passed cleanup region g O a) (edge : b ∈ h.succIds a) :
    b ∈ region ∨ h.Calls b cleanup := by
  rw [calls_trimmed trimmed (wf.target_live edge)]
  refine passed.onward b ?_
  rw [FlowGraph.succIds, ← (trimmed.kept a (wf.source_live edge) id).2]
  exact edge

/-- On the way from a region to the end of the graph, or to a call of the method, the cleanup is
called. -/
theorem cleaned_of_region (held : ∃ x ∈ O, x.block = FlowGraph.exit)
    (inner : ∀ b ∈ region, Passed cleanup region g O b ∧ ¬g.Calls b method) {path : List Nat}
    {a : Nat} (member : a ∈ region) (chain : List.IsChain (fun a b => b ∈ h.succIds a) (a :: path))
    (last : (a :: path).getLast? = some b) (ends : b = FlowGraph.exit ∨ h.Calls b method) :
    ∃ c ∈ path, h.Calls c cleanup := by
  induction path generalizing a with
  | nil =>
    cases last
    obtain ⟨passed, quiet⟩ := inner a member
    rcases ends with rfl | calls
    · obtain ⟨x, stub, same⟩ := held
      exact absurd same (passed.sealed x stub)
    · exact absurd ((calls_trimmed trimmed (live_of_calls wf calls)).mp calls) quiet
  | cons c path ih =>
    obtain ⟨edge, chain⟩ := List.isChain_cons_cons.mp chain
    rcases (inner a member).1.follow wf trimmed edge with inside | calls
    · obtain ⟨d, later, calls⟩ := ih inside chain (by simpa using last)
      exact ⟨d, by simp [later], calls⟩
    · exact ⟨c, by simp, calls⟩

end

end

/-- A method is called in one place only, at the start of a body whose `ensure` clause calls another
one. Then every path from there to the end of the graph, or back to such a call, goes through a block
that calls the other one. -/
theorem build_ensure_runs {l : Lowering} {body : Tree} {formals : List Formal} {next next' : Serial}
    {g : FlowGraph} {method cleanup : String} (built : l.build body formals next = .ok g next')
    (once : (body.calledMethods l.methodName).count method = 1)
    (guarded : ∃ t : Tree, t.IsGuarded method cleanup ∧ t.Within body)
    (defaults : ∀ f ∈ formals, method ∉ f.calledMethods l.methodName)
    (unemitted : method ∉ builtinCalls) {a b : Nat} {path : List Nat} (starts : g.Calls a method)
    (chain : List.IsChain (fun a b => b ∈ g.succIds a) (a :: path))
    (last : (a :: path).getLast? = some b)
    (ends : b = FlowGraph.exit ∨ path ≠ [] ∧ g.Calls b method) :
    ∃ c ∈ path, g.Calls c cleanup := by
  obtain ⟨s', first, run, _, _, trimmed, _⟩ := build_trimmed built
  have wf := build_wellFormed built
  obtain ⟨first', watched⟩ := lowerWhole_watched (start_started l formals next) unemitted
    (.inr ⟨once, guarded⟩) defaults run
  obtain ⟨region, inner, callers⟩ := watched.covered
  have passed := callers a ((calls_trimmed trimmed (live_of_calls wf starts)).mp starts) (by simp)
  have held := exists_lastStub (l.start formals next).finalReturn
    (l.start formals next).finalException first'
    (show FlowGraph.isDistinguished FlowGraph.exit = true from rfl)
  cases path with
  | nil =>
    cases last
    rcases ends with rfl | ⟨edges, _⟩
    · obtain ⟨x, stub, same⟩ := held
      exact absurd same (passed.sealed x stub)
    · exact absurd rfl edges
  | cons c path =>
    obtain ⟨edge, chain⟩ := List.isChain_cons_cons.mp chain
    rcases passed.follow wf trimmed edge with inside | calls
    · obtain ⟨d, later, calls⟩ := cleaned_of_region wf trimmed held inner inside chain
        (by simpa using last) (ends.imp id And.right)
      exact ⟨d, by simp [later], calls⟩
    · exact ⟨c, by simp, calls⟩

/-- `while $c; begin work(); break; rescue; next; ensure cleanup(); end; end` -/
def guardedLoop : Tree :=
  .whileLoop (.globalVar "$c")
    (.bodyStmt (.sequence [.selfCall "work" [], .breakWith none])
      [.rescue [] none (.nextWith none)] none (some (.selfCall "cleanup" [])))

theorem build_ensure_runs_loop :
    ∃ g next, Lowering.build ⟨20, .topLevel, none, true⟩ guardedLoop [] 0 = .ok g next ∧
      g.Calls 8 "work" ∧
      List.IsChain (fun a b => b ∈ g.succIds a) [8, 30, 28, 34, 22, 24, 3, 5, FlowGraph.exit] ∧
      ∃ c ∈ [30, 28, 34, 22, 24, 3, 5, FlowGraph.exit], g.Calls c "cleanup" := by
  obtain ⟨g, next, built, starts, chain⟩ :
      ∃ g next, Lowering.build ⟨20, .topLevel, none, true⟩ guardedLoop [] 0 = .ok g next ∧
        g.Calls 8 "work" ∧
        List.IsChain (fun a b => b ∈ g.succIds a) [8, 30, 28, 34, 22, 24, 3, 5, FlowGraph.exit] :=
    exists_built _ (by decide +kernel)
  refine ⟨g, next, built, starts, chain, ?_⟩
  exact build_ensure_runs built (by decide +kernel)
    ⟨_, ⟨_, _, _, rfl⟩, .part (t := guardedLoop) (List.mem_cons_of_mem _ (List.mem_cons_self ..)) .here⟩
    (by simp) (by decide) starts chain rfl (.inl rfl)

end ScriptFlow.Lowering
