import ScriptFlow.Core.Table
import ScriptFlow.Findings.DeadCode
import ScriptFlow.Proofs.Propagation.Changes
import ScriptFlow.Proofs.SingleAssignment.Operable

/-! Propagation only gains knowledge, and it visits exactly the blocks that the edges it takes lead
to. -/

namespace ScriptFlow

open Relation (ReflTransGen)

namespace FlowGraph

variable {g h : FlowGraph}

def Entered (g : FlowGraph) : Nat → Prop := ReflTransGen g.Taken enter

theorem Grows.entered (grows : g.Grows h) {b : Nat} (entered : g.Entered b) : h.Entered b := by
  induction entered with
  | refl => exact .refl
  | tail _ taken ih => exact ih.tail (grows.taken _ _ taken)

theorem Entered.cases_last {b : Nat} (entered : g.Entered b) : b = enter ∨ ∃ a, g.Taken a b := by
  cases entered with
  | refl => exact .inl rfl
  | tail _ taken => exact .inr ⟨_, taken⟩

theorem mem_successors_executable (linked : g.Linked) {a b : Nat} :
    b ∈ g.successors a .executable ↔ g.Taken a b := by
  rw [FlowGraph.successors, Taken, List.mem_map]
  constructor
  · rintro ⟨e, member, rfl⟩
    rw [List.mem_filter] at member
    rw [linked.edge_eq_some_iff.mpr member.1]
    exact member.2
  · intro taken
    cases edge : g.edge? a b with
    | none => simp [edge] at taken
    | some f =>
      rw [edge] at taken
      exact ⟨(b, f), List.mem_filter.mpr ⟨linked.edge_eq_some_iff.mp edge, taken⟩, rfl⟩

theorem Taken.mem_succIds {a b : Nat} (taken : g.Taken a b) : b ∈ g.succIds a := by
  apply g.edge_isSome_iff.mp
  unfold Taken at taken
  cases edge : g.edge? a b with
  | none => simp [edge] at taken
  | some f => rfl

theorem mem_search_executable (linked : g.Linked) (room : enter < g.blocks.size) {b : Nat} :
    b ∈ (g.view .executable).search enter ↔ g.Entered b := by
  have inside : enter < (g.view .executable).size := by rwa [size_view]
  rw [Digraph.mem_search _ inside]
  constructor
  · intro reach
    induction reach with
    | start _ => exact .refl
    | step _ edge _ ih =>
      rw [successors_view_filter] at edge
      exact ih.tail ((mem_successors_executable linked).mp edge)
  · intro entered
    induction entered with
    | refl => exact .start inside
    | tail _ taken ih =>
      apply ih.step
      · rw [successors_view_filter]
        exact (mem_successors_executable linked).mpr taken
      · rw [size_view]
        exact linked.target_inside taken.mem_succIds

theorem SameOutline.closed (same : g.SameOutline h) (closed : g.Closed) : h.Closed where
  toLinked := same.linked closed.toLinked
  room := by
    rw [same.size]
    exact closed.room
  kept b special := by
    rw [same.removed]
    exact closed.kept b special
  bare b gone := by
    rw [same.removed] at gone
    rw [same.block_instrs, same.succIds, same.preds]
    exact closed.bare b gone
  placed b i member := by
    rw [same.block_instrs] at member
    rw [same.instrs_size, same.blockOf]
    exact closed.placed b i member
  distinct b := by
    rw [same.block_instrs]
    exact closed.distinct b
  inScope b i member := by
    rw [same.block_instrs] at member
    have within := closed.inScope b i member
    rw [same.bindings_size]
    constructor
    · rw [same.operands]
      exact within.operands
    · rw [same.target]
      exact within.target

end FlowGraph

namespace Propagation

variable {σ : Type}

/-! The moves of a run. -/

/-- Whatever a run does is one of these. -/
inductive Move (p : Propagation σ) : Run σ → Run σ → Prop
  | enter (r : Run σ) {b : BlockId} {rest : List BlockId} (next : r.blocks = b :: rest) :
    Move p r (Run.entered b { r with blocks := rest, steps := r.steps + 1 })
  | take (r : Run σ) {i : InstrId} {rest : List InstrId} (next : r.instrs = i :: rest) :
    Move p r { r with instrs := rest, steps := r.steps + 1 }
  | change {r r' : Run σ} (i : InstrId) (visited : r.graph.blockOf i ∈ r.visited)
    (change : Change p i (r.graph.blockOf i) r r') : Move p r r'
  | mark (r : Run σ) {a : BlockId} (b : BlockId) (visited : a ∈ r.visited) :
    Move p r (r.markEdge a b)

/-- Instructions stand in the blocks that list them. -/
def InPlace (g : FlowGraph) : Prop := ∀ b : Nat, ∀ i ∈ (g.block b).instrs, g.blockOf i = b

theorem InPlace.of_outline {g h : FlowGraph} (in_place : InPlace g) (same : g.SameOutline h) :
    InPlace h := by
  intro b i member
  rw [same.block_instrs] at member
  rw [same.blockOf, in_place b i member]

/-- What a change does to edges and to the queue of blocks. -/
theorem Change.cases_edges {p : Propagation σ} {i : InstrId} {b : BlockId} {r r' : Run σ}
    (change : Change p i b r r') :
    (r'.graph.blocks = r.graph.blocks ∧ r'.visited = r.visited ∧ r'.blocks = r.blocks) ∨
    r' = r.notifyRaise b ∨ ∃ c, r' = r.markEdge b c := by
  cases change with
  | look look =>
    have aside := Aside.of_look look
    exact .inl ⟨aside.blocks, aside.visited, aside.queue⟩
  | count => exact .inl ⟨rfl, rfl, rfl⟩
  | learn t cell ty target phi =>
    refine .inl ?_
    rw [learn_eq]
    split
    · have aside := Aside.enqueueAll (r.joined t cell ty) (r.graph.binding t).uses
      exact ⟨aside.blocks, aside.visited, aside.queue⟩
    · exact ⟨rfl, rfl, rfl⟩
  | store name value => exact .inl ⟨rfl, rfl, rfl⟩
  | report f =>
    refine .inl ?_
    unfold Run.report
    split <;> exact ⟨rfl, rfl, rfl⟩
  | record s s' is_call same raises methods frequency => exact .inl ⟨rfl, rfl, rfl⟩
  | caller => exact .inl ⟨rfl, rfl, rfl⟩
  | notify => exact .inr (.inl rfl)
  | mark c last => exact .inr (.inr ⟨c, rfl⟩)

theorem visited_markEdge (r : Run σ) (a b : BlockId) : (r.markEdge a b).visited = r.visited := by
  unfold Run.markEdge
  split
  · split <;> rfl
  · rfl

theorem Change.visited {p : Propagation σ} {i : InstrId} {b : BlockId} {r r' : Run σ}
    (change : Change p i b r r') : r'.visited = r.visited := by
  obtain ⟨-, same, -⟩ | rfl | ⟨c, rfl⟩ := change.cases_edges
  · exact same
  · rfl
  · exact visited_markEdge r b c

theorem visited_of_changes {p : Propagation σ} {i : InstrId} {b : BlockId} {r r' : Run σ}
    (changes : ReflTransGen (Change p i b) r r') : r'.visited = r.visited := by
  induction changes with
  | refl => rfl
  | tail _ change ih => rw [change.visited, ih]

section Moves

variable (p : Propagation σ)

theorem moves_of_changes {i : InstrId} {b : BlockId} {r r' : Run σ}
    (changes : ReflTransGen (Change p i b) r r') (place : r.graph.blockOf i = b)
    (visited : b ∈ r.visited) : ReflTransGen (Move p) r r' := by
  induction changes with
  | refl => exact .refl
  | tail before change ih =>
    have place' := (grows_of_changes before).blockOf i
    rw [place] at place'
    subst place'
    rw [← visited_of_changes before] at visited
    exact ih.tail (.change i visited change)

theorem moves_evaluate {i : InstrId} {r : Run σ} (visited : r.graph.blockOf i ∈ r.visited) :
    ReflTransGen (Move p) r ((p.evaluate i).run r).2 :=
  p.moves_of_changes (p.changes_evaluate i r) rfl visited

theorem moves_updateEdges {b : BlockId} {r : Run σ} (visited : b ∈ r.visited) :
    ReflTransGen (Move p) r (r.updateEdges b) := by
  unfold Run.updateEdges
  generalize r.targets b = ts
  induction ts generalizing r with
  | nil => exact .refl
  | cons t ts ih =>
    rw [← visited_markEdge r b t] at visited
    exact (ih visited).head (.mark r t (visited_markEdge r b t ▸ visited))

/-- A run of moves that a block stays visited in. -/
def MovesIn (g : FlowGraph) (b : BlockId) (r r' : Run σ) : Prop :=
  g.SameOutline r.graph ∧ b ∈ r.visited →
    ReflTransGen (Move p) r r' ∧ g.SameOutline r'.graph ∧ b ∈ r'.visited

theorem chains_movesIn (g : FlowGraph) (b : BlockId) : Chains (p.MovesIn g b) where
  refl _ before := ⟨.refl, before⟩
  trans first second before :=
    ⟨(first before).1.trans (second (first before).2).1, (second (first before).2).2⟩

theorem moves_revisits {r : Run σ} (in_place : InPlace r.graph) {b : BlockId}
    (visited : b ∈ r.visited) (isFirst : Bool) :
    ReflTransGen (Move p) r
        (((r.graph.block b).instrs.forM (p.revisit isFirst)).run r).2 ∧
      b ∈ (((r.graph.block b).instrs.forM (p.revisit isFirst)).run r).2.visited := by
  have chains := p.chains_movesIn r.graph b
  have along : Along (p.MovesIn r.graph b)
      ((r.graph.block b).instrs.forM (p.revisit isFirst)) := by
    refine .forM chains fun i member => .bind chains (fun r => chains.refl r) fun _ => ?_
    refine .ite (fun _ r' before => ?_) fun _ => .pure chains _
    have place : r'.graph.blockOf i = b := by rw [before.1.blockOf, in_place b i member]
    have changes := p.changes_evaluate i r'
    refine ⟨p.moves_evaluate (place ▸ before.2), ?_, ?_⟩
    · exact before.1.trans (grows_of_changes changes).toSameOutline
    · rw [visited_of_changes changes]
      exact before.2
  have ran := along r ⟨.refl _, visited⟩
  exact ⟨ran.1, ran.2.2⟩

theorem moves_step {r : Run σ} (in_place : InPlace r.graph) :
    ReflTransGen (Move p) r (p.step.run r).2 := by
  obtain ⟨b, rest, blocks, stepped⟩ | ⟨i, rest, -, instrs, stepped⟩ | ⟨-, stepped⟩ := p.step_run r
  · rw [stepped, visit_run]
    have here : b ∈ (Run.entered b { r with blocks := rest, steps := r.steps + 1 }).visited :=
      mem_insertNat.mpr (.inl rfl)
    obtain ⟨moves, visited⟩ := p.moves_revisits
      (r := Run.entered b { r with blocks := rest, steps := r.steps + 1 }) in_place here
      (!r.visited.contains b)
    exact (moves.head (.enter r blocks)).trans (p.moves_updateEdges visited)
  · rw [stepped]
    split
    · rename_i visited
      have taken : Move p r { r with instrs := rest, steps := r.steps + 1 } := .take r instrs
      exact (p.moves_evaluate (r := { r with instrs := rest, steps := r.steps + 1 })
        (List.contains_iff_mem.mp visited)).head taken
    · exact .single (.take r instrs)
  · rw [stepped]

end Moves

/-! Growth. -/

theorem Move.grows {p : Propagation σ} {r r' : Run σ} (move : Move p r r') :
    r.graph.Grows r'.graph := by
  cases move with
  | enter next => exact .refl _
  | take next => exact .refl _
  | change i visited change => exact change.grows
  | mark b visited => exact grows_markEdge r _ b

theorem grows_of_moves {p : Propagation σ} {r r' : Run σ} (moves : ReflTransGen (Move p) r r') :
    r.graph.Grows r'.graph := by
  induction moves with
  | refl => exact .refl _
  | tail _ move ih => exact ih.trans move.grows

theorem moves_loop (p : Propagation σ) (n : Nat) {r : Run σ} (in_place : InPlace r.graph) :
    ReflTransGen (Move p) r (p.loop n r) := by
  induction n generalizing r with
  | zero => exact .refl
  | succ n ih =>
    rw [loop]
    split
    · exact .refl
    · have step := p.moves_step in_place
      exact step.trans (ih (in_place.of_outline (grows_of_moves step).toSameOutline))

theorem loop_add (p : Propagation σ) (n m : Nat) (r : Run σ) :
    p.loop (n + m) r = p.loop m (p.loop n r) := by
  induction n generalizing r with
  | zero => rw [Nat.zero_add, loop]
  | succ n ih =>
    rw [Nat.succ_add, loop, loop]
    split
    · rename_i done
      cases m with
      | zero => rfl
      | succ m => rw [loop, if_pos done]
    · exact ih _

/-! Which blocks are visited. -/

/-- How visited blocks, blocks to visit and taken edges go together. -/
structure Tracked (r : Run σ) : Prop where
  /-- Fake edges are never taken. -/
  real : ∀ a b f, r.graph.edge? a b = some f → f.executable = true → f.fake = false
  /-- Only visited blocks are left. -/
  left : ∀ a b, r.graph.Taken a b → a ∈ r.visited
  start : FlowGraph.enter ∈ r.visited ∨ FlowGraph.enter ∈ r.blocks
  /-- A block that is entered is visited, or is going to be. -/
  noted : ∀ a b, r.graph.Taken a b → b ∈ r.visited ∨ b ∈ r.blocks
  entered : ∀ b, b ∈ r.visited ∨ b ∈ r.blocks → r.graph.Entered b

theorem mem_exceptionReach {g : FlowGraph} {fuel : Nat} {stack seen : List BlockId} {b : BlockId}
    (member : b ∈ Run.exceptionReach g fuel stack seen) : g.isExecuted b = true := by
  induction fuel generalizing stack seen with
  | zero => simp [Run.exceptionReach] at member
  | succ fuel ih =>
    cases stack with
    | nil => simp [Run.exceptionReach] at member
    | cons a stack =>
      rw [Run.exceptionReach] at member
      split at member
      · exact ih member
      · split at member
        · rename_i executed
          rcases List.mem_cons.mp member with here | later
          · rw [here]
            exact executed
          · exact ih later
        · exact ih member

theorem isExecuted_cases {g : FlowGraph} {b : BlockId} (executed : g.isExecuted b = true) :
    b = FlowGraph.enter ∨ ∃ a, g.Taken a b := by
  unfold FlowGraph.isExecuted at executed
  rcases Bool.or_eq_true_iff.mp executed with here | found
  · exact .inl (by simpa using here)
  · obtain ⟨a, -, taken⟩ := List.any_eq_true.mp found
    exact .inr ⟨a, taken⟩

theorem markEdge_cases (r : Run σ) (a b : BlockId) :
    r.markEdge a b = r ∨ ∃ f, r.graph.edge? a b = some f ∧ f.fake = false ∧ f.executable = false ∧
      r.markEdge a b =
        { r with
          graph := r.graph.modifyEdge a b ({ · with executable := true })
          blocks := r.blocks ++ [b] } := by
  unfold Run.markEdge
  split
  · rename_i f found
    split
    · rename_i new
      exact .inr ⟨f, found, by simpa [EdgeFlags.isReal] using new.1, by simpa using new.2, rfl⟩
    · exact .inl rfl
  · exact .inl rfl

namespace Tracked

theorem of_same {r r' : Run σ} (tracked : Tracked r) (blocks : r'.graph.blocks = r.graph.blocks)
    (visited : r'.visited = r.visited) (queue : r'.blocks = r.blocks) : Tracked r' := by
  have edge : r'.graph.edge? = r.graph.edge? := by
    funext a b
    rw [FlowGraph.edge?, FlowGraph.edge?, FlowGraph.block_congr blocks]
  have taken : r'.graph.Taken = r.graph.Taken := by
    funext a b
    rw [FlowGraph.Taken, FlowGraph.Taken, edge]
  have entered : r'.graph.Entered = r.graph.Entered := by
    rw [FlowGraph.Entered, FlowGraph.Entered, taken]
  constructor
  · rw [edge]
    exact tracked.real
  · rw [taken, visited]
    exact tracked.left
  · rw [visited, queue]
    exact tracked.start
  · rw [taken, visited, queue]
    exact tracked.noted
  · rw [entered, visited, queue]
    exact tracked.entered

variable {r : Run σ} (tracked : Tracked r)
include tracked

theorem enter {b : BlockId} {rest : List BlockId} (next : r.blocks = b :: rest) :
    Tracked (Run.entered b { r with blocks := rest, steps := r.steps + 1 }) := by
  -- the block goes from the queue to the visited ones, and no other moves
  have moved : ∀ c : BlockId, c ∈ insertNat b r.visited ∨ c ∈ rest ↔
      c ∈ r.visited ∨ c ∈ r.blocks := by
    intro c
    rw [next, mem_insertNat, List.mem_cons]
    constructor
    · rintro ((here | old) | later)
      · exact .inr (.inl here)
      · exact .inl old
      · exact .inr (.inr later)
    · rintro (old | here | later)
      · exact .inl (.inr old)
      · exact .inl (.inl here)
      · exact .inr later
  constructor
  · exact tracked.real
  · exact fun a c taken => mem_insertNat.mpr (.inr (tracked.left a c taken))
  · exact (moved _).mpr tracked.start
  · exact fun a c taken => (moved c).mpr (tracked.noted a c taken)
  · exact fun c member => tracked.entered c ((moved c).mp member)

theorem entered_of_executed {b : BlockId} (executed : r.graph.isExecuted b = true) :
    r.graph.Entered b := by
  obtain rfl | ⟨a, taken⟩ := isExecuted_cases executed
  · exact .refl
  · exact (tracked.entered a (.inl (tracked.left a b taken))).tail taken

theorem notifyRaise (b : BlockId) : Tracked (r.notifyRaise b) where
  real := tracked.real
  left := tracked.left
  start := tracked.start.imp_right fun old => List.mem_append_left _ old
  noted a c taken := (tracked.noted a c taken).imp_right fun old => List.mem_append_left _ old
  entered c member := by
    rcases member with old | queued
    · exact tracked.entered c (.inl old)
    · rcases List.mem_append.mp queued with old | new
      · exact tracked.entered c (.inr old)
      · exact tracked.entered_of_executed (mem_exceptionReach new)

theorem markEdge {a : BlockId} (visited : a ∈ r.visited) (b : BlockId) :
    Tracked (r.markEdge a b) := by
  obtain same | ⟨f, found, real, -, marked⟩ := markEdge_cases r a b
  · rw [same]
    exact tracked
  · have grows := FlowGraph.grows_modifyEdge r.graph a b
    have taken_iff := FlowGraph.taken_modifyEdge r.graph a b
    have taken : (r.graph.modifyEdge a b ({ · with executable := true })).Taken a b := by
      rw [taken_iff, found]
      exact .inr ⟨rfl, rfl, rfl⟩
    rw [marked]
    constructor
    · intro c d f' found'
      rw [FlowGraph.edge_modifyEdge] at found'
      split at found'
      · rw [found] at found'
        cases found'
        exact fun _ => real
      · exact tracked.real c d f' found'
    · intro c d new
      rcases (taken_iff c d).mp new with old | ⟨rfl, -, -⟩
      · exact tracked.left c d old
      · exact visited
    · exact tracked.start.imp_right fun old => List.mem_append_left _ old
    · intro c d new
      rcases (taken_iff c d).mp new with old | ⟨-, rfl, -⟩
      · exact (tracked.noted c d old).imp_right fun old => List.mem_append_left _ old
      · exact .inr (List.mem_append_right _ (List.mem_singleton.mpr rfl))
    · intro c member
      have earlier : c ∈ r.visited ∨ c ∈ r.blocks ∨ c = b := by
        rcases member with old | queued
        · exact .inl old
        · exact .inr ((List.mem_append.mp queued).imp_right List.mem_singleton.mp)
      rcases earlier with old | old | rfl
      · exact grows.entered (tracked.entered c (.inl old))
      · exact grows.entered (tracked.entered c (.inr old))
      · exact (grows.entered (tracked.entered a (.inl visited))).tail taken

theorem move {p : Propagation σ} {r' : Run σ} (move : Move p r r') : Tracked r' := by
  cases move with
  | enter next => exact tracked.enter next
  | take next => exact tracked.of_same rfl rfl rfl
  | change i visited change =>
    obtain ⟨blocks, same, queue⟩ | rfl | ⟨c, rfl⟩ := change.cases_edges
    · exact tracked.of_same blocks same queue
    · exact tracked.notifyRaise _
    · exact tracked.markEdge visited c
  | mark b visited => exact tracked.markEdge visited b

theorem moves {p : Propagation σ} {r' : Run σ} (moves : ReflTransGen (Move p) r r') :
    Tracked r' := by
  induction moves with
  | refl => exact tracked
  | tail _ move ih => exact ih.move move

end Tracked

theorem tracked_start (g : FlowGraph) (source : σ) :
    Tracked (Run.start g.resetPropagation source) := by
  constructor
  · intro a b f found executable
    refine absurd ?_ (g.not_taken_reset a b)
    rw [FlowGraph.Taken]
    change (g.resetPropagation.edge? a b) = _ at found
    rw [found]
    exact executable
  · exact fun a b taken => absurd taken (g.not_taken_reset a b)
  · exact .inr (List.mem_singleton.mpr rfl)
  · exact fun a b taken => absurd taken (g.not_taken_reset a b)
  · rintro b (none | queued)
    · cases none
    · rw [List.mem_singleton.mp queued]
      exact .refl

/-- The state of a propagation after so many steps. -/
def moment (p : Propagation σ) (g : FlowGraph) (source : σ) (n : Nat) : Run σ :=
  p.loop n (.start g.resetPropagation source)

section Moments

variable (p : Propagation σ) {g : FlowGraph} (in_place : InPlace g) (source : σ)
include in_place

theorem moves_moment (n : Nat) :
    ReflTransGen (Move p) (.start g.resetPropagation source) (p.moment g source n) :=
  p.moves_loop n (in_place.of_outline g.sameOutline_reset)

theorem sameOutline_moment (n : Nat) : g.SameOutline (p.moment g source n).graph :=
  g.sameOutline_reset.trans (grows_of_moves (p.moves_moment in_place source n)).toSameOutline

theorem tracked_moment (n : Nat) : Tracked (p.moment g source n) :=
  (tracked_start g source).moves (p.moves_moment in_place source n)

theorem grows_moment {n m : Nat} (later : n ≤ m) :
    (p.moment g source n).graph.Grows (p.moment g source m).graph := by
  obtain ⟨d, rfl⟩ := Nat.exists_eq_add_of_le later
  rw [moment, moment, loop_add]
  exact grows_of_moves (p.moves_loop d (in_place.of_outline (p.sameOutline_moment in_place source n)))

omit in_place in
/-- An analysis that succeeds ends in a moment at which nothing is left to do. -/
theorem exists_moment_of_analyze {stats : Stats} {g' : FlowGraph} {source' : σ}
    (analyzed : p.analyze (g, source) = .ok stats (g', source')) :
    ∃ n, (p.moment g source n).isDone = true ∧
      g' = { (p.moment g source n).graph with
        constants := knownValues (p.moment g source n).graph } := by
  unfold analyze at analyzed
  dsimp only at analyzed
  split at analyzed
  · cases analyzed
  · split at analyzed
    · rename_i done
      cases analyzed
      exact ⟨_, done, rfl⟩
    · cases analyzed

end Moments

/-- At the end the visited blocks are those that taken edges lead to. -/
theorem Tracked.mem_visited_iff {r : Run σ} (tracked : Tracked r) (done : r.isDone = true)
    (b : BlockId) : b ∈ r.visited ↔ r.graph.Entered b := by
  have empty : r.blocks = [] := List.isEmpty_iff.mp (Bool.and_eq_true_iff.mp done).1
  have settled : ∀ c : BlockId, c ∈ r.visited ∨ c ∈ r.blocks → c ∈ r.visited := by
    rintro c (old | queued)
    · exact old
    · rw [empty] at queued
      cases queued
  constructor
  · exact fun visited => tracked.entered b (.inl visited)
  · intro entered
    induction entered with
    | refl => exact settled _ tracked.start
    | tail _ taken _ => exact settled _ (tracked.noted _ _ taken)

theorem Tracked.mem_unreachableBlocks_iff {r : Run σ} (tracked : Tracked r) (done : r.isDone = true)
    (linked : r.graph.Linked) (room : FlowGraph.enter < r.graph.blocks.size) (b : BlockId) :
    b ∈ r.graph.unreachableBlocks ↔
      b ∈ r.graph.liveBlocks ∧ FlowGraph.isDistinguished b = false ∧ b ∉ r.visited := by
  rw [FlowGraph.unreachableBlocks, List.mem_filter, tracked.mem_visited_iff done,
    ← FlowGraph.mem_search_executable linked room]
  simp only [Bool.and_eq_true, Bool.not_eq_true', List.contains_eq_mem, decide_eq_false_iff_not]
  constructor
  · exact fun both => ⟨both.1, both.2.2, both.2.1⟩
  · exact fun all => ⟨all.1, all.2.2, all.2.1⟩

/-- How a propagation gets on from moment to moment. -/
structure Progresses (p : Propagation σ) (g : FlowGraph) (source : σ) : Prop where
  grows : ∀ n m, n ≤ m → (p.moment g source n).graph.Grows (p.moment g source m).graph
  tracked : ∀ n, Tracked (p.moment g source n)
  entered : ∀ n, ∀ b ∈ (p.moment g source n).visited,
    b = FlowGraph.enter ∨ ∃ a, (p.moment g source n).graph.Taken a b
  /-- In the end the unreachable blocks are those that were not visited. -/
  unreachable : ∀ stats g' source', p.analyze (g, source) = .ok stats (g', source') →
    ∃ n, (p.moment g source n).isDone = true ∧
      g' = { (p.moment g source n).graph with
        constants := knownValues (p.moment g source n).graph } ∧
      ∀ b, b ∈ g'.unreachableBlocks ↔ b ∈ g'.liveBlocks ∧
        FlowGraph.isDistinguished b = false ∧ b ∉ (p.moment g source n).visited

theorem progresses_of_linked (p : Propagation σ) {g : FlowGraph} (linked : g.Linked)
    (room : FlowGraph.enter < g.blocks.size) (in_place : InPlace g) (source : σ) :
    p.Progresses g source := by
  have tracked := p.tracked_moment in_place source
  constructor
  · exact fun n m => p.grows_moment in_place source
  · exact tracked
  · exact fun n b visited => ((tracked n).entered b (.inl visited)).cases_last
  · intro stats g' source' analyzed
    obtain ⟨n, done, rfl⟩ := p.exists_moment_of_analyze source analyzed
    have same := p.sameOutline_moment in_place source n
    have unreachable :=
      (tracked n).mem_unreachableBlocks_iff done (same.linked linked) (same.size ▸ room)
    exact ⟨n, done, rfl, unreachable⟩

/-- `while x; x = y; y = nil; end`. -/
def shiftingLoop : Tree :=
  .whileLoop (.localVar "x")
    (.sequence [.assign (.localVar "x") (.localVar "y"), .assign (.localVar "y") .nil])

theorem progresses_shiftingLoop :
    ∃ g next g', Lowering.build ⟨20, .topLevel, some "f", false⟩ shiftingLoop
        [.required "x", .required "y"] 0 = .ok g next ∧ g.toSingleAssignment = .ok () g' ∧
      g'.Linked ∧ FlowGraph.enter < g'.blocks.size ∧ InPlace g' ∧
      Progresses ⟨.core, .standard, .declared .core, .none⟩ g' () ∧
      (moment ⟨.core, .standard, .declared .core, .none⟩ g' () 3).visited = [0, 6, 7] ∧
      (moment ⟨.core, .standard, .declared .core, .none⟩ g' () 18).visited = [0, 1, 2, 6, 7, 8, 9] ∧
      (moment ⟨.core, .standard, .declared .core, .none⟩ g' () 18).isDone = true := by
  obtain ⟨g, next, built, moments⟩ :
      ∃ g next, Lowering.build ⟨20, .topLevel, some "f", false⟩ shiftingLoop
        [.required "x", .required "y"] 0 = .ok g next ∧
      (moment ⟨.core, .standard, .declared .core, .none⟩ g.converted () 3).visited = [0, 6, 7] ∧
      (moment ⟨.core, .standard, .declared .core, .none⟩ g.converted () 18).visited =
        [0, 1, 2, 6, 7, 8, 9] ∧
      (moment ⟨.core, .standard, .declared .core, .none⟩ g.converted () 18).isDone = true :=
    Lowering.exists_built _ (by decide +kernel)
  have wf := Lowering.build_wellFormed built
  obtain ⟨base, r, phis, start, h, β, ι, ν, conversion, copies, converted⟩ :=
    FlowGraph.exists_converted wf (Lowering.build_prepared built (by decide))
  have closed := (wf.operable converted).toClosed
  have in_place : InPlace h.annotateLiveness := fun b i member => (closed.placed b i member).2
  have room : FlowGraph.enter < h.annotateLiveness.blocks.size :=
    Nat.lt_of_lt_of_le (by decide) closed.room
  rw [FlowGraph.converted, converted] at moments
  exact ⟨g, next, _, built, converted, closed.toLinked, room, in_place,
    progresses_of_linked _ closed.toLinked room in_place (), moments⟩

end Propagation

end ScriptFlow
