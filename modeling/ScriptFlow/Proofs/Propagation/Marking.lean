import ScriptFlow.Proofs.Propagation.Upkeep

/-! Marking the edges that control may take keeps a run in balance, as the blocks they lead to are
visited again. -/

namespace ScriptFlow.Propagation

variable {a c : BlockId}
variable {σ : Type} {p : Propagation σ} {K : Run σ → InstrId → CallSite → Prop} {e : Slack}
  {r r' : Run σ}

theorem mem_successors_iff {g : FlowGraph} (linked : g.Linked) {a c : Nat} {filter : EdgeFilter} :
    c ∈ g.successors a filter ↔ ∃ f, g.edge? a c = some f ∧ filter.accepts f = true := by
  rw [FlowGraph.successors, List.mem_map]
  constructor
  · rintro ⟨x, member, rfl⟩
    obtain ⟨edge, accepted⟩ := List.mem_filter.mp member
    exact ⟨x.2, linked.edge_eq_some_iff.mpr edge, accepted⟩
  · rintro ⟨f, edge, accepted⟩
    exact ⟨(c, f), List.mem_filter.mpr ⟨linked.edge_eq_some_iff.mp edge, accepted⟩, rfl⟩

theorem Excepts.edge {g : FlowGraph} {a c : Nat} (excepts : Excepts g a c) :
    (g.edge? a c).isSome = true := by
  obtain ⟨x, member, rfl⟩ := List.mem_map.mp excepts
  exact g.edge_isSome_iff.mpr (List.mem_map_of_mem (List.mem_filter.mp member).1)

theorem Raised.cases_modifyEdge {g : FlowGraph} (linked : g.Linked) {a c x y : Nat}
    (raised : Raised (g.modifyEdge a c ({ · with executable := true })) x y) :
    Raised g x y ∨ x = a ∧ y = c ∧ Excepts g a c := by
  unfold Raised at raised
  rw [FlowGraph.edge_modifyEdge] at raised
  split at raised
  · rename_i here
    cases edge : g.edge? a c with
    | none => simp [edge] at raised
    | some f =>
      rw [edge, Option.map_some, Option.any_some] at raised
      have exceptional : f.isException = true := (Bool.and_eq_true_iff.mp raised).2
      exact .inr ⟨here.1, here.2, (mem_successors_iff linked).mpr ⟨f, edge, exceptional⟩⟩
  · exact .inl raised

variable (p) in
/-- A new way from `a` to `c` brings exceptions to no block that is not going to look. -/
def Heard (r : Run σ) (a c : BlockId) : Prop :=
  (p.thrown r.graph a).members = [] ∨ (Excepts r.graph a c → r.graph.Taken a c ∨
    ∀ b, Passes r.graph c → Raised r.graph c b → b ∈ r.blocks)

/-- A run with one more edge taken. -/
def Run.taking (a c : BlockId) (r : Run σ) : Run σ :=
  { r with
    graph := r.graph.modifyEdge a c ({ · with executable := true })
    blocks := r.blocks ++ [c] }

theorem thrown_taking (r : Run σ) (a c x : BlockId) :
    p.thrown (r.taking a c).graph x = p.thrown r.graph x :=
  p.thrown_congr (FlowGraph.sameOutline_modifyEdge r.graph a c) (fun _ _ => rfl)
    fun _ _ _ _ => ⟨rfl, fun _ _ => rfl⟩

theorem Balanced.mark (lasts : Lasts K) (balanced : p.Balanced K e r) (visited : a ∈ r.visited)
    (slack : e.block a) (heard : p.Heard r a c) : p.Balanced K e (r.markEdge a c) := by
  have linked := balanced.operable.toLinked
  have tracked := balanced.tracked.markEdge visited c
  obtain same | ⟨f, found, -, fresh, marked⟩ := markEdge_cases r a c
  · rw [same]
    exact balanced
  · rw [marked] at tracked ⊢
    change Tracked (r.taking a c) at tracked
    change p.Balanced K e (r.taking a c)
    have taken : ∀ x y, (r.taking a c).graph.Taken x y ↔ _ :=
      FlowGraph.taken_modifyEdge r.graph a c
    have grows : r.graph.Grows (r.taking a c).graph := FlowGraph.grows_modifyEdge r.graph a c
    have queued : c ∈ (r.taking a c).blocks := List.mem_append_right _ (List.mem_singleton.mpr rfl)
    apply balanced.step tracked grows rfl (List.Subset.refl _) (List.subset_append_left _ _)
      balanced.queued balanced.readers
    · intro i listed _ _ stable
      by_cases waits : dependsOnEntry (r.graph.instr i) = true ∧
          r.graph.blockOf i ∈ (r.taking a c).blocks
      · exact .inr (.inr waits)
      -- an instruction that depends on the entry and does not wait is in another block
      · have elsewhere : dependsOnEntry (r.graph.instr i) = true → r.graph.blockOf i ≠ c :=
          fun depends here => waits ⟨depends, here ▸ queued⟩
        refine .inl (stable.step lasts ?_ (List.Subset.refl _) ?_ ?_)
        · exact ⟨⟨rfl, fun _ _ => rfl⟩, grows, id, fun _ => id,
            fun _ t found => ⟨t, found, List.Subset.refl _⟩, fun _ _ => rfl⟩
        · intro t os is_phi x
          rw [taken]
          have other := elsewhere (by rw [is_phi]; rfl)
          exact ⟨fun new => new.resolve_right fun here => other here.2.1, .inl⟩
        · intro t frame is_landing x throws
          have depends : dependsOnEntry (r.graph.instr i) = true := by rw [is_landing]; rfl
          have other := elsewhere depends
          have before : ∀ y, Raised (r.taking a c).graph y (r.graph.blockOf i) →
              Raised r.graph y (r.graph.blockOf i) :=
            fun y raised => (raised.cases_modifyEdge linked).resolve_right fun here => other here.2.1
          refine .inr ?_
          rw [thrown_taking]
          obtain ⟨y, raised, way⟩ := throws
          have passes : Passes (r.taking a c).graph y ↔ Passes r.graph y := by
            rw [Passes, grows.block_instrs, Passes]
          rcases way with rfl | ⟨empty, onward⟩
          · exact .inr fun m thrown => ⟨⟨_, before x raised, .inl rfl⟩, thrown⟩
          · have way' := And.intro (passes.mp empty) (before y onward)
            rcases raised.cases_modifyEdge linked with old | ⟨rfl, rfl, excepts⟩
            · exact .inr fun m thrown => ⟨⟨y, old, .inr way'⟩, thrown⟩
            · rcases heard with none | told
              · refine .inr fun m thrown => ?_
                rw [none] at thrown
                cases thrown
              · rcases told excepts with known | told
                · rw [FlowGraph.Taken, found, Option.any_some, fresh] at known
                  cases known
                · have told' := told _ way'.1 way'.2
                  exact absurd ⟨depends, List.mem_append_left _ told'⟩ waits
    · intro b _ accounted marked
      by_cases here : b = c
      · exact .inr (.inl (here ▸ queued))
      · refine .inl fun d target edge => ?_
        have targets : (r.taking a c).targets b = r.targets b := by
          apply targets_congr grows.toSameOutline
          · intro _ x
            rw [taken]
            exact ⟨fun new => new.resolve_right fun there => here there.2.1, .inl⟩
          · exact fun l _ => ⟨⟨rfl, fun _ _ => rfl⟩, Iff.rfl⟩
        rw [targets] at target
        have other : ¬(b = a ∧ d = c) := fun there => accounted (there.1 ▸ slack)
        have edge' : (r.taking a c).graph.edge? b d = r.graph.edge? b d :=
          (FlowGraph.edge_modifyEdge r.graph a c b d _).trans (if_neg other)
        rw [edge'] at edge
        exact grows.taken b d (marked d target edge)
    · exact fun x _ raising => raising.of_same grows.toSameOutline rfl fun _ _ => rfl

theorem Heard.markEdge (linked : r.graph.Linked) (heard : p.Heard r a c)
    (d : BlockId) : p.Heard (r.markEdge a d) a c := by
  obtain same | ⟨f, -, -, -, marked⟩ := markEdge_cases r a d
  · rw [same]
    exact heard
  · rw [marked]
    change p.Heard (r.taking a d) a c
    have grows : r.graph.Grows (r.taking a d).graph := FlowGraph.grows_modifyEdge r.graph a d
    unfold Heard
    rw [thrown_taking, Excepts.iff_of_outline grows.toSameOutline, Passes, grows.block_instrs]
    refine heard.imp_right fun told excepts => ?_
    refine (told excepts).imp (grows.taken a c) fun told b empty raised => ?_
    rcases raised.cases_modifyEdge linked with old | ⟨-, rfl, -⟩
    · exact List.mem_append_left _ (told b empty old)
    · exact List.mem_append_right _ (List.mem_singleton.mpr rfl)

theorem Balanced.marks (lasts : Lasts K) (ts : List BlockId)
    (balanced : p.Balanced K e r) (visited : a ∈ r.visited) (slack : e.block a)
    (heard : ∀ c ∈ ts, p.Heard r a c) : p.Balanced K e (ts.foldl (Run.markEdge a) r) := by
  induction ts generalizing r with
  | nil => exact balanced
  | cons c ts ih =>
    have linked := balanced.operable.toLinked
    apply ih (balanced.mark lasts visited slack (heard c List.mem_cons_self))
    · rw [visited_markEdge]
      exact visited
    · exact fun d later => (heard d (List.mem_cons_of_mem c later)).markEdge linked c

/-- Marking changes edges and the queue of blocks only. -/
theorem exists_marks_eq (a : BlockId) (ts : List BlockId) (r : Run σ) :
    ∃ edges queue, ts.foldl (Run.markEdge a) r =
      { r with graph := { r.graph with blocks := edges }, blocks := queue } := by
  induction ts generalizing r with
  | nil => exact ⟨_, _, rfl⟩
  | cons c ts ih =>
    obtain ⟨edges, queue, rest⟩ := ih (r.markEdge a c)
    refine ⟨edges, queue, ?_⟩
    rw [List.foldl_cons, rest]
    obtain same | ⟨f, -, -, -, marked⟩ := markEdge_cases r a c
    · rw [same]
    · rw [marked]
      rfl

theorem grows_marks (a : BlockId) (ts : List BlockId) (r : Run σ) :
    r.graph.Grows (ts.foldl (Run.markEdge a) r).graph := by
  induction ts generalizing r with
  | nil => exact .refl _
  | cons c ts ih => exact (grows_markEdge r a c).trans (ih _)

theorem subset_blocks_marks (a : BlockId) (ts : List BlockId) (r : Run σ) :
    r.blocks ⊆ (ts.foldl (Run.markEdge a) r).blocks := by
  induction ts generalizing r with
  | nil => exact List.Subset.refl _
  | cons c ts ih =>
    refine List.Subset.trans ?_ (ih (r.markEdge a c))
    obtain same | ⟨f, -, -, -, marked⟩ := markEdge_cases r a c
    · rw [same]
      exact List.Subset.refl _
    · rw [marked]
      exact List.subset_append_left _ _

theorem taken_markEdge (operable : r.graph.Operable)
    (edge : (r.graph.edge? a c).isSome = true) : (r.markEdge a c).graph.Taken a c := by
  obtain ⟨f, found⟩ := Option.isSome_iff_exists.mp edge
  have real := operable.real a (c, f) (FlowGraph.mem_of_lookup found)
  unfold Run.markEdge
  rw [found]
  dsimp only
  split
  · exact (FlowGraph.taken_modifyEdge r.graph a c a c).mpr (.inr ⟨rfl, rfl, edge⟩)
  · rename_i known
    rw [FlowGraph.Taken, found, Option.any_some]
    have is_real : f.isReal = true := congrArg not real
    simpa [is_real] using known

theorem taken_marks (operable : r.graph.Operable) {ts : List BlockId} (target : c ∈ ts)
    (edge : (r.graph.edge? a c).isSome = true) : (ts.foldl (Run.markEdge a) r).graph.Taken a c := by
  induction ts generalizing r with
  | nil => cases target
  | cons d ts ih =>
    have grows := grows_markEdge r a d
    rcases List.mem_cons.mp target with rfl | later
    · exact (grows_marks a ts _).taken a c (taken_markEdge operable edge)
    · apply ih (grows.toSameOutline.operable operable) later
      rw [FlowGraph.edge_isSome_iff, grows.succIds]
      exact (FlowGraph.edge_isSome_iff _).mp edge

theorem taken_of_marks {x y : BlockId} {ts : List BlockId}
    (taken : (ts.foldl (Run.markEdge a) r).graph.Taken x y) :
    r.graph.Taken x y ∨ y ∈ (ts.foldl (Run.markEdge a) r).blocks := by
  induction ts generalizing r with
  | nil => exact .inl taken
  | cons c ts ih =>
    rcases ih taken with old | queued
    · obtain same | ⟨f, -, -, -, marked⟩ := markEdge_cases r a c
      · rw [same] at old
        exact .inl old
      · rw [marked] at old
        rcases (FlowGraph.taken_modifyEdge r.graph a c x y).mp old with old | ⟨-, rfl, -⟩
        · exact .inl old
        · apply Or.inr
          apply subset_blocks_marks a ts (r.markEdge a y)
          rw [marked]
          exact List.mem_append_right _ (List.mem_singleton.mpr rfl)
    · exact .inr queued

/-- After an update the edges are marked, unless the block was found to lead to itself. -/
theorem marked_updateEdges (operable : r.graph.Operable)
    (entry : r.graph.last? a = none → a ∉ (r.updateEdges a).blocks) : (r.updateEdges a).Marked a := by
  have grows : r.graph.Grows (r.updateEdges a).graph := grows_marks a (r.targets a) r
  have targets : (r.updateEdges a).targets a = r.targets a := by
    apply targets_congr grows.toSameOutline
    · intro empty x
      refine ⟨fun new => ?_, grows.taken x a⟩
      exact (taken_of_marks new).resolve_right (entry empty)
    · intro l _
      obtain ⟨edges, queue, marked⟩ := exists_marks_eq a (r.targets a) r
      rw [Run.updateEdges, marked]
      exact ⟨⟨rfl, fun _ _ => rfl⟩, Iff.rfl⟩
  intro c target edge
  rw [targets] at target
  apply taken_marks operable target
  rw [FlowGraph.edge_isSome_iff, ← grows.succIds]
  exact (FlowGraph.edge_isSome_iff _).mp edge

/-- The ways on from a block by its last instruction. -/
def Run.exits (r : Run σ) (a : BlockId) (l : InstrId) : Instr → List BlockId
  | .jump t => [t]
  | .branch c yes no => branchTargets yes no (r.graph.operandCell c)
  | .returnWith _ => r.graph.successors a .normal
  | .raise _ => r.graph.successors a .exception
  | .call s =>
    if s.mayRaise then callTargets r.graph a (r.blockCallers.contains l) s.frequency
    else r.graph.successors a .normal
  | _ => r.graph.successors a .normal

theorem targets_of_last {l : InstrId} (last : r.graph.last? a = some l) :
    r.targets a = r.exits a l (r.graph.instr l) := by
  have last' : (r.graph.block a).instrs.getLast? = some l := last
  simp only [Run.targets, last']
  cases r.graph.instr l <;> rfl

theorem Run.Marked.landed (marked : r.Marked a) : r.Landed a := by
  intro raising c excepts
  refine marked c ?_ excepts.edge
  cases raising with
  | call last is_call mayRaise frequency raises =>
    rw [targets_of_last last, is_call, Run.exits, if_pos mayRaise, frequency]
    rename_i f
    cases f with
    | never => exact absurd rfl raises
    | always => exact List.mem_append_left _ excepts
    | maybe => exact List.mem_append_left _ (List.mem_append_right _ excepts)
  | raise last is_raise _ =>
    rw [targets_of_last last, is_raise]
    exact excepts

/-- If exception edges are marked as soon as a block is found to raise, then marking its edges again
brings no news of exceptions. -/
theorem heard_of_landed (linked : r.graph.Linked) (visited : a ∈ r.visited)
    (landed : r.Landed a) (target : c ∈ r.targets a) : p.Heard r a c := by
  -- an edge has one kind only
  have apart : ∀ {filter : EdgeFilter}, (∀ f : EdgeFlags, filter.accepts f = true →
      f.isException = false) → c ∈ r.graph.successors a filter → ¬Excepts r.graph a c := by
    intro filter disjoint member excepts
    obtain ⟨f, edge, accepted⟩ := (mem_successors_iff linked).mp member
    obtain ⟨f', edge', exceptional⟩ := (mem_successors_iff linked).mp excepts
    rw [edge] at edge'
    cases edge'
    exact absurd exceptional (by rw [EdgeFilter.accepts, disjoint f accepted]; exact Bool.false_ne_true)
  have normal : c ∈ r.graph.successors a .normal → ¬Excepts r.graph a c :=
    apart fun f is_normal => by simp_all [EdgeFilter.accepts, EdgeFlags.isNormal, EdgeFlags.isException]
  have blockTaken : c ∈ r.graph.successors a .blockTaken → ¬Excepts r.graph a c :=
    apart fun f is_taken => by simp_all [EdgeFilter.accepts, EdgeFlags.isException]
  cases is_last : r.graph.last? a with
  | none =>
    refine .inl ?_
    unfold thrown
    rw [show (r.graph.block a).instrs.getLast? = none from is_last]
    rfl
  | some l =>
    cases is_l : r.graph.instr l with
    | call s =>
      refine .inr fun excepts => .inl ?_
      rw [targets_of_last is_last, is_l, Run.exits] at target
      split at target
      · rename_i mayRaise
        cases frequency : s.frequency with
        | none =>
          rw [frequency] at target
          cases target
        | some f =>
          by_cases raises : f = .never
          · rw [frequency, raises] at target
            rcases List.mem_append.mp target with on | into
            · exact absurd excepts (normal on)
            · split at into
              · exact absurd excepts (blockTaken into)
              · cases into
          · exact landed (.call is_last is_l mayRaise frequency raises) c excepts
      · exact absurd excepts (normal target)
    | raise v => exact .inr fun excepts => .inl (landed (.raise is_last is_l visited) c excepts)
    | _ =>
      refine .inl ?_
      unfold thrown
      rw [show (r.graph.block a).instrs.getLast? = some l from is_last, Option.map_some, is_l]
      rfl

/-- When the landing blocks are told, new edges bring them no more news. -/
theorem heard_notifyRaise (linked : r.graph.Linked) (tracked : Tracked r) (a c : BlockId) :
    p.Heard (r.notifyRaise a) a c := by
  refine .inr fun excepts => .inr fun b empty raised => List.mem_append_right _ ?_
  have executed : r.graph.isExecuted c = true := by
    have entered := tracked.entered c (.inl (tracked.left c b raised.taken))
    rcases entered.cases_last with rfl | ⟨x, taken⟩
    · rfl
    · exact isExecuted_of_taken linked taken
  exact Propagation.mem_raiseReaders excepts executed (isExecuted_of_taken linked raised.taken)
    (.inr ⟨empty, raised.excepts⟩)

theorem Balanced.updateEdges (lasts : Lasts K) {a : BlockId} (visited : a ∈ r.visited)
    (balanced : p.Balanced K
      { e with block := fun b => e.block b ∨ b = a, exit := fun b => e.exit b ∨ b = a } r)
    (heard : ∀ c ∈ r.targets a, p.Heard r a c) : p.Balanced K e (r.updateEdges a) := by
  have marks := balanced.marks lasts (r.targets a) visited (.inr rfl) heard
  change p.Balanced K _ (r.updateEdges a) at marks
  refine ⟨marks.operable, marks.tracked, marks.queued, marks.readers, marks.instr, ?_, ?_⟩
  · intro b at_visited
    rcases marks.edges b at_visited with (slack | rfl) | rest
    · exact .inl slack
    · by_cases queued : b ∈ (r.updateEdges b).blocks
      · exact .inr (.inr (.inl queued))
      · exact .inr (.inl (marked_updateEdges balanced.operable fun _ => queued))
    · exact .inr rest
  · intro b
    rcases marks.landed b with (slack | rfl) | rest
    · exact .inl slack
    · refine .inr ?_
      cases is_last : r.graph.last? b with
      | none =>
        have none : (r.updateEdges b).graph.last? b = none :=
          ((grows_marks b (r.targets b) r).toSameOutline.last b).trans is_last
        intro raising
        cases raising with
        | call last => simp [none] at last
        | raise last => simp [none] at last
      | some l =>
        refine (marked_updateEdges balanced.operable fun empty => ?_).landed
        simp [is_last] at empty
    · exact .inr rest

end ScriptFlow.Propagation
