import ScriptFlow.Proofs.FlowGraph.Trim
import ScriptFlow.Proofs.Lowering.Build
import ScriptFlow.Proofs.Lowering.Shape
import ScriptFlow.Tree.Build

/-! Every graph that lowering builds is regular: control leaves a block only at its end, and the
edges out of it are those that its last instruction has. -/

namespace ScriptFlow

variable {b : Nat}

/-- The edges out of a block fit the instruction at its end. -/
def Instr.Fits (es : List (Nat × EdgeFlags)) : Instr → Prop
  | .jump t => es.map (·.1) = [t]
  | .branch _ yes no =>
    (∀ t, t ∈ es.map (·.1) ↔ t = yes ∨ t = no) ∧ ∀ e ∈ es, e.2.isNormal = true
  | .returnWith _ => ∃ e, es = [e] ∧ e.2.isNormal = true
  | .raise _ => ∃ e, es = [e] ∧ e.2.isException = true
  | .call _ =>
    es.countP (·.2.isNormal) = 1 ∧ es.countP (·.2.isException) = 1 ∧
      es.countP (·.2.blockTaken) ≤ 1
  | _ => True

namespace FlowGraph

/-- The end of the body of a block literal: there the body starts again, or control goes on after
the call, normally or by an exception. -/
def IsBodyExit (g : FlowGraph) (b : Nat) : Prop :=
  g.code b = [] ∧ (∃ body, (g.block b).name = body ++ "-Exit") ∧
    ∃ body after landing, (g.block b).succs =
      [(body, Lowering.blockTaken), (after, .none), (landing, Lowering.abnormal)]

/-- Where control leaves the block, the block ends, and its edges are as the instruction says. -/
structure Ended (g : FlowGraph) (b : Nat) : Prop where
  last : ∀ before x after, g.code b = before ++ x :: after → x.leaves = true →
    after = [] ∧ x.Fits (g.block b).succs
  leaves : b ≠ enter → b ≠ exit → ¬g.IsBodyExit b →
    ∃ before x, g.code b = before ++ [x] ∧ x.leaves = true

structure Regular (g : FlowGraph) : Prop extends g.Linked where
  reached : ∀ b ∈ g.liveBlocks, isDistinguished b = false → (g.view .all).Reached enter b
  ended : ∀ b ∈ g.liveBlocks, g.Ended b

theorem Ended.congr {g h : FlowGraph} (ended : g.Ended b) (code : h.code b = g.code b)
    (succs : (h.block b).succs = (g.block b).succs) (name : (h.block b).name = (g.block b).name) :
    h.Ended b where
  last := by
    rw [code, succs]
    exact ended.last
  leaves := by
    rw [IsBodyExit, code, succs, name]
    exact ended.leaves

end FlowGraph

namespace Lowering

/-! One block. -/

theorem Stub.Complete.fits {x : Instr} {es : List (Nat × EdgeFlags)}
    (complete : (Stub.code b (some x) es).Complete) : x.Fits es := by
  cases complete with
  | jump => rfl
  | branch _ c yes no =>
    by_cases same : no = yes
    · subst same
      simp [Instr.Fits, FlowGraph.link, EdgeFlags.union, EdgeFlags.none, EdgeFlags.isNormal]
    · rw [FlowGraph.link_new (by simpa using same)]
      simp [Instr.Fits, EdgeFlags.none, EdgeFlags.isNormal]
  | returnWith => exact ⟨_, rfl, rfl⟩
  | raise => exact ⟨_, rfl, rfl⟩
  | call => exact ⟨rfl, rfl, Nat.zero_le _⟩
  | callBlock => exact ⟨rfl, rfl, Nat.le_refl _⟩

theorem Stub.Complete.leaves {x : Instr} {es : List (Nat × EdgeFlags)}
    (complete : (Stub.code b (some x) es).Complete) : x.leaves = true := by
  cases complete with
  | jump => rfl
  | branch => rfl
  | returnWith => rfl
  | raise => rfl
  | call _ s raises => exact raises
  | callBlock _ s raises => exact raises

/-- In a block that is as a stub says, control leaves at most at the end. -/
theorem eq_last_of_leaves {before before' after : List Instr} {x : Instr} {last : Option Instr}
    (plain : ∀ y ∈ before, y.leaves = false) (leaves : x.leaves = true)
    (split : before ++ last.toList = before' ++ x :: after) : last = some x ∧ after = [] := by
  have outside : x ∉ before := fun member => by
    rw [plain x member] at leaves
    cases leaves
  cases last with
  | none =>
    rw [Option.toList_none, List.append_nil] at split
    exact absurd (by simp [split]) outside
  | some y =>
    rcases List.eq_nil_or_concat after with rfl | ⟨rest, z, rfl⟩
    · have ends : [y] = [x] := (List.append_inj' split rfl).2
      exact ⟨congrArg some (List.cons.inj ends).1, rfl⟩
    · have parts : before ++ [y] = (before' ++ x :: rest) ++ [z] := by simpa using split
      exact absurd (by simp [(List.append_inj' parts rfl).1]) outside

theorem ended_of_opened {g : FlowGraph} {es : List (Nat × EdgeFlags)}
    (outermost : b = FlowGraph.enter ∨ b = FlowGraph.exit) (held : (Stub.code b none es).Held g) :
    g.Ended b := by
  obtain ⟨-, -, before, code, plain⟩ := held
  constructor
  · intro before' x after split leaves
    cases (eq_last_of_leaves plain leaves (code.symm.trans split)).1
  · intro inner inner'
    rcases outermost with rfl | rfl
    · exact absurd rfl inner
    · exact absurd rfl inner'

theorem Finished.ended {g : FlowGraph} (finished : Finished g b) : g.Ended b := by
  obtain ⟨x, rfl, complete, held⟩ := finished
  cases x with
  | code b last es =>
    cases last with
    | none => cases complete
    | some x =>
      obtain ⟨-, succs, before, code, plain⟩ := held
      constructor
      · intro before' y after split leaves
        obtain ⟨same, rfl⟩ := eq_last_of_leaves plain leaves (code.symm.trans split)
        cases same
        rw [Stub.block_code, succs]
        exact ⟨rfl, complete.fits⟩
      · intro _ _ _
        exact ⟨before, x, code, complete.leaves⟩
  | exit b es =>
    obtain ⟨-, succs, code, named⟩ := held
    cases complete with
    | exit _ body after landing =>
      constructor
      · intro before x after split
        simp [code] at split
      · intro _ _ inner
        exact absurd ⟨code, named, body, after, landing, succs⟩ inner

/-- A sealed block is not empty, or has several ways on. -/
theorem Finished.not_through {g : FlowGraph} (finished : Finished g b) :
    g.throughEdge? b = none := by
  obtain ⟨x, rfl, complete, held⟩ := finished
  unfold FlowGraph.throughEdge?
  cases x with
  | code b last es =>
    cases last with
    | none => cases complete
    | some x =>
      obtain ⟨-, -, before, code, -⟩ := held
      split
      · rename_i empty _
        rw [Stub.block_code] at empty
        rw [FlowGraph.code, empty] at code
        simp at code
      · rfl
  | exit b es =>
    obtain ⟨-, succs, -, -⟩ := held
    cases complete with
    | exit _ body after landing =>
      rw [Stub.block_exit, succs]
      split
      · rename_i single
        cases single
      · rfl

/-! The blocks that belong to every graph. -/

section

variable {scope : Scope} {g : FlowGraph}

/-- Blocks that edges may lead to from the beginning. -/
def firstLandings : Set Nat := {b | FlowGraph.isDistinguished b = true ∧ b ≠ FlowGraph.enter}

theorem Made.block_empty (made : Made scope g) (b : Nat) :
    g.code b = [] ∧ (g.block b).succs = [] := by
  have empty := FlowGraph.block_ofScope scope b
  rw [FlowGraph.code, FlowGraph.block_congr made.blocks, empty.1, empty.2.1]
  exact ⟨rfl, rfl⟩

theorem mem_firstStubs {x : Stub} (member : x ∈ firstStubs) : ∃ b < 6, x = .opened b := by
  simp only [firstStubs, List.mem_cons, List.not_mem_nil, or_false] at member
  rcases member with rfl | rfl | rfl | rfl | rfl | rfl
  all_goals exact ⟨_, by decide, rfl⟩

theorem Made.holding (made : Made scope g) : Holding g firstStubs where
  placed b i member := by
    rw [FlowGraph.block_congr made.blocks, (FlowGraph.block_ofScope scope b).1] at member
    cases member
  held x member := by
    obtain ⟨b, inside, rfl⟩ := mem_firstStubs member
    obtain ⟨code, succs⟩ := made.block_empty b
    exact ⟨Nat.lt_of_lt_of_le inside made.intact.wellFormed.room, succs, [], code, by simp⟩
  distinct := by decide

theorem useful_firstStubs (inside : b < 6) : Useful g firstStubs b := by
  have all : ∀ b < 6, b ∈ firstStubs.map (·.block) := by decide
  exact .inl (List.mem_map.mp (all b inside))

theorem Made.settled (made : Made scope g) : Settled firstLandings g firstStubs where
  blocks b _ := .inr (made.block_empty b)
  edges a t edge := by
    rw [FlowGraph.succIds, (made.block_empty a).2] at edge
    cases edge
  landings t landing := by
    have low : t ≤ 5 := by simpa [FlowGraph.isDistinguished] using landing.1
    exact useful_firstStubs (Nat.lt_succ_of_le low)

theorem Started.obeys {l : Lowering} {formals : List Formal} {start : Start}
    (started : Started l formals start) {P : Policy} (named : P.methodName = l.methodName) :
    start.context.Obeys P firstLandings where
  methodName := started.methodName.trans named.symm
  targets := by
    rw [started.targets]
    exact
      { breakTo := fun b is => by cases is
        nextTo := fun b is => by cases is
        redoTo := fun b is => by cases is
        returnTo := ⟨rfl, by decide⟩
        rescueTo := ⟨rfl, by decide⟩
        yieldFailTo := ⟨rfl, by decide⟩ }

end

/-! Whole graphs. -/

theorem shape_admits (methodName : Option String) : Admits (shape methodName) fun _ => True where
  children _ := .inl fun _ _ => trivial
  child _ _ _ := trivial
  method _ _ _ := trivial
  getter _ _ _ _ _ := trivial
  setter _ _ _ := trivial
  super _ _ _ _ := trivial
  body _ _ := ⟨trivial, fun _ _ _ => trivial⟩

/-- A whole lowering leaves no block half written. -/
theorem lowerWhole_shape {l : Lowering} {body : Tree} {formals : List Formal} {start : Start}
    (started : Started l formals start) {s' : State}
    (run : lowerWhole (walk l.maxDepth l.maxDepth) body start.finalReturn start.finalException
      start.context start.state = .ok () s') :
    ∃ first, Holding s'.graph (lastStubs start.finalReturn start.finalException first) ∧
      Settled firstLandings s'.graph (lastStubs start.finalReturn start.finalException first) := by
  have admits := shape_admits l.methodName
  have walks := walk_walks l.maxDepth (fun _ _ _ _ _ _ => lowerBody_flows fun _ _ => trivial) l.maxDepth
  exact lowerWhole_invariant (P := shape l.methodName) (started.obeys rfl) trivial (fun _ _ _ => trivial)
    ⟨rfl, by decide⟩ ⟨rfl, by decide⟩ ⟨rfl, by decide⟩
    ⟨started.made.holding, started.made.settled⟩ run

section

variable {finalReturn finalException : BindingId} {first : Nat} {g : FlowGraph}

theorem exitStubs_complete {x : Stub} (member : x ∈ exitStubs finalReturn finalException) :
    x.Complete := by
  simp only [exitStubs, List.mem_cons, List.not_mem_nil, or_false] at member
  rcases member with rfl | rfl | rfl | rfl
  · exact .returnWith _ _ _
  · exact .raise _ _ _
  · exact .jump _ _ _
  · exact .jump _ _ _

/-- Of the blocks that belong to every graph, only the first and the last are not sealed. -/
theorem mem_lastStubs {x : Stub} (member : x ∈ lastStubs finalReturn finalException first) :
    x ∈ exitStubs finalReturn finalException ∨ x = .code FlowGraph.enter none [(first, .none)] ∨
      x = .opened FlowGraph.exit := by
  simpa [lastStubs] using member

theorem exists_lastStub (finalReturn finalException : BindingId) (first : Nat)
    (stays : FlowGraph.isDistinguished b = true) :
    ∃ x ∈ lastStubs finalReturn finalException first, x.block = b := by
  have low : b ≤ 5 := by simpa [FlowGraph.isDistinguished] using stays
  have all : ∀ b ≤ 5, b ∈ (lastStubs finalReturn finalException first).map (·.block) := by
    change ∀ b ≤ 5, b ∈ [2, 5, 4, 3, 0, 1]
    decide
  exact List.mem_map.mp (all b low)

theorem ended_of_useful (holding : Holding g (lastStubs finalReturn finalException first))
    (useful : Useful g (lastStubs finalReturn finalException first) b) : g.Ended b := by
  rcases useful with ⟨x, member, rfl⟩ | finished
  · have held := holding.held x member
    rcases mem_lastStubs member with way_out | rfl | rfl
    · exact Finished.ended ⟨x, rfl, exitStubs_complete way_out, held⟩
    · exact ended_of_opened (.inl rfl) held
    · exact ended_of_opened (.inr rfl) held
  · exact finished.ended

theorem solid_of_settled
    (settled : Settled firstLandings g (lastStubs finalReturn finalException first)) : g.Solid := by
  intro a b edge movable
  rcases settled.edges a b edge with ⟨x, member, rfl⟩ | finished
  · have low : ∀ b ∈ (lastStubs finalReturn finalException first).map (·.block),
        FlowGraph.isDistinguished b = true := by
      change ∀ b ∈ [2, 5, 4, 3, 0, 1], FlowGraph.isDistinguished b = true
      decide
    rw [low _ (List.mem_map_of_mem member)] at movable
    cases movable
  · exact finished.not_through

theorem enclosed_of_holding (holding : Holding g (lastStubs finalReturn finalException first)) :
    g.Enclosed := by
  intro a stays later t edge
  obtain ⟨x, member, rfl⟩ := exists_lastStub finalReturn finalException first stays
  have held := holding.held x member
  simp only [lastStubs, exitStubs, List.cons_append, List.nil_append, List.mem_cons,
    List.not_mem_nil, or_false] at member
  rcases member with rfl | rfl | rfl | rfl | rfl | rfl
  all_goals rw [FlowGraph.succIds, Stub.block_code, held.2.1] at edge
  · cases List.mem_singleton.mp edge; rfl
  · cases List.mem_singleton.mp edge; rfl
  · cases List.mem_singleton.mp edge; rfl
  · cases List.mem_singleton.mp edge; rfl
  · exact absurd rfl later
  · cases edge

/-- Blocks that are left in the end are written to, or something leads to them. -/
theorem useful_of_live {h : FlowGraph} (wf : h.WellFormed)
    (settled : Settled firstLandings g (lastStubs finalReturn finalException first))
    (trimmed : FlowGraph.Trimmed FlowGraph.Spared g h)
    (reached : FlowGraph.isDistinguished b = false → (h.view .all).Reached FlowGraph.enter b) :
    Useful g (lastStubs finalReturn finalException first) b := by
  cases stays : FlowGraph.isDistinguished b with
  | true => exact .inl (exists_lastStub _ _ _ stays)
  | false =>
    cases reached stays with
    | start _ => cases stays
    | @step a _ _ edge _ =>
      rw [FlowGraph.successors_view] at edge
      refine settled.edges a b ?_
      rw [FlowGraph.succIds, ← (trimmed.kept a (wf.source_live edge) id).2]
      exact edge

end

/-- A built graph is what tidying up leaves of a graph without half-written blocks. -/
theorem build_trimmed {l : Lowering} {body : Tree} {formals : List Formal} {next next' : Serial}
    {g : FlowGraph} (built : l.build body formals next = .ok g next') :
    ∃ s' : State, ∃ first,
      lowerWhole (walk l.maxDepth l.maxDepth) body (l.start formals next).finalReturn
        (l.start formals next).finalException (l.start formals next).context
        (l.start formals next).state = .ok () s' ∧
      Holding s'.graph (lastStubs (l.start formals next).finalReturn
        (l.start formals next).finalException first) ∧
      Settled firstLandings s'.graph (lastStubs (l.start formals next).finalReturn
        (l.start formals next).finalException first) ∧
      FlowGraph.Trimmed FlowGraph.Spared s'.graph g ∧
      ∀ b ∈ g.liveBlocks, FlowGraph.isDistinguished b = false →
        (g.view .all).Reached FlowGraph.enter b := by
  obtain ⟨s', run, intact, same⟩ := build_run built
  obtain ⟨first, holding, settled⟩ := lowerWhole_shape (start_started l formals next) run
  obtain ⟨trimmed, reached⟩ :=
    FlowGraph.tidy_trimmed intact.wellFormed (solid_of_settled settled) (enclosed_of_holding holding)
  rw [← same] at trimmed reached
  exact ⟨s', first, run, holding, settled, trimmed, reached⟩

/-- Every built graph is regular. -/
theorem build_regular {l : Lowering} {body : Tree} {formals : List Formal} {next next' : Serial}
    {g : FlowGraph} (built : l.build body formals next = .ok g next') : g.Regular := by
  obtain ⟨s', first, _, holding, settled, trimmed, reached⟩ := build_trimmed built
  have wf := build_wellFormed built
  refine ⟨wf.toLinked, reached, fun b live => ?_⟩
  have ended := ended_of_useful holding (useful_of_live wf settled trimmed (reached b live))
  obtain ⟨instrs, succs⟩ := trimmed.kept b (g.mem_liveBlocks.mp live).2 id
  refine ended.congr ?_ succs (trimmed.name b)
  rw [FlowGraph.code, instrs, FlowGraph.code]
  exact List.map_congr_left fun i _ => FlowGraph.instr_congr trimmed.instrs i

theorem build_regular_each :
    ∃ g next,
      Lowering.build ⟨20, .topLevel, none, true⟩
        (.callWithBlock (.globalVar "$c") "each" [] [.required "x"]
          (.ifElse (.localVar "x") (.breakWith none) (.selfCall "f" []))) [] 0 = .ok g next ∧
      g.Regular := by
  refine Exists.imp (fun g => Exists.imp fun next built => ⟨built.1, build_regular built.1⟩)
    (exists_built (fun _ => True) ?_)
  decide +kernel

end Lowering

end ScriptFlow
