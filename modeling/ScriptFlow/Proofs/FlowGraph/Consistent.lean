import ScriptFlow.Proofs.FlowGraph.Prune

/-! Whatever is done to a graph, its edges are recorded at both ends, removed blocks are bare, and the
table of names leads to the one block that has each name. -/

namespace ScriptFlow.FlowGraph

variable {b : Nat}
variable {g h : FlowGraph}

/-! Only new blocks have their names entered. -/

theorem names_modifyBlock (g : FlowGraph) (b : Nat) (f : Block → Block) :
    (g.modifyBlock b f).names = g.names := rfl

theorem names_foldl {α : Type} {f : FlowGraph → α → FlowGraph} {as : List α}
    (same : ∀ g a, (f g a).names = g.names) : (as.foldl f g).names = g.names := by
  induction as generalizing g with
  | nil => rfl
  | cons a as ih => exact ih.trans (same g a)

theorem names_addEdge (g : FlowGraph) (a b : Nat) (flags : EdgeFlags) :
    (g.addEdge a b flags).names = g.names := by
  unfold addEdge
  split <;> rfl

theorem names_forgetInstr (g : FlowGraph) (i : Nat) : (g.forgetInstr i).names = g.names := by
  unfold forgetInstr
  dsimp only
  split
  · exact names_foldl fun _ _ => rfl
  · exact names_foldl fun _ _ => rfl

theorem names_removeBlock (removed : g.removeBlock b = .ok h) : h.names = g.names := by
  have detached : (g.detach b).names = g.names :=
    (names_foldl (f := fun g p => g.removeEdge p b) fun _ _ => rfl).trans (names_foldl fun _ _ => rfl)
  rw [eq_clear_of_removeBlock removed, clear, names_modifyBlock, names_foldl names_forgetInstr,
    names_modifyBlock, detached]

structure Consistent (g : FlowGraph) : Prop extends Linked g where
  joins : ∀ a b, b ∈ g.succIds a → (g.block a).removed = false ∧ (g.block b).removed = false
  bare : ∀ b, (g.block b).removed = true → (g.block b).instrs = []
  indexed : ∀ name b, g.names.lookup name = some b ↔ b < g.blocks.size ∧ (g.block b).name = name

namespace Consistent

variable (consistent : g.Consistent)
include consistent

theorem named {a b : Nat} (a_inside : a < g.blocks.size)
    (b_inside : b < g.blocks.size) (same : (g.block a).name = (g.block b).name) : a = b := by
  have first := (consistent.indexed _ a).mpr ⟨a_inside, same⟩
  exact Option.some.inj (first.symm.trans ((consistent.indexed _ b).mpr ⟨b_inside, rfl⟩))

theorem preds_live {p : Nat} (back : p ∈ (g.block b).preds) :
    p < g.blocks.size ∧ (g.block p).removed = false := by
  have edge := (consistent.symm p b).mpr back
  exact ⟨Linked.source_inside p b edge, (consistent.joins p b edge).1⟩

/-- A change of the edges, if new ones join blocks that are not removed. -/
theorem of_edges (size : h.blocks.size = g.blocks.size)
    (names : h.names = g.names)
    (name : ∀ b, (h.block b).name = (g.block b).name)
    (removed : ∀ b, (h.block b).removed = (g.block b).removed)
    (instrs : ∀ b, (h.block b).instrs = (g.block b).instrs) (linked : h.Linked)
    (edges : ∀ a b, b ∈ h.succIds a →
      b ∈ g.succIds a ∨ (g.block a).removed = false ∧ (g.block b).removed = false) :
    h.Consistent where
  toLinked := linked
  joins a b edge := by
    rw [removed, removed]
    exact (edges a b edge).elim (consistent.joins a b) id
  bare b gone := (instrs b).trans (consistent.bare b (removed b ▸ gone))
  indexed n b := by
    rw [names, size, name]
    exact consistent.indexed n b

theorem of_blocks (blocks : h.blocks = g.blocks) (names : h.names = g.names) : h.Consistent := by
  have block := block_congr blocks
  have succIds (a : Nat) : h.succIds a = g.succIds a := by rw [succIds, block, FlowGraph.succIds]
  exact consistent.of_edges (by rw [blocks]) names (fun b => by rw [block]) (fun b => by rw [block])
    (fun b => by rw [block]) (consistent.toLinked.of_same succIds fun a => by rw [block])
    fun a b edge => .inl (succIds a ▸ edge)

theorem modifyEdge (a b : Nat) (f : EdgeFlags → EdgeFlags) : (g.modifyEdge a b f).Consistent := by
  have field {α : Type} (field : Block → α)
      (same : ∀ blk es, field { blk with succs := es } = field blk) (c : Nat) :=
    g.block_field_modifyEdge field same a b c f
  refine consistent.of_edges (by simp [FlowGraph.modifyEdge]) rfl (field (·.name) fun _ _ => rfl)
    (field (·.removed) fun _ _ => rfl) (field (·.instrs) fun _ _ => rfl)
    (consistent.toLinked.of_same (fun c => by simp) (field (·.preds) fun _ _ => rfl)) fun c d edge => ?_
  exact .inl (by simpa using edge)

theorem addEdge {a : Nat} (a_live : a ∈ g.liveBlocks)
    (b_live : b ∈ g.liveBlocks) (flags : EdgeFlags) : (g.addEdge a b flags).Consistent := by
  obtain ⟨a_inside, a_live⟩ := g.mem_liveBlocks.mp a_live
  obtain ⟨b_inside, b_live⟩ := g.mem_liveBlocks.mp b_live
  refine consistent.of_edges (by simp) (names_addEdge g a b flags)
    (g.block_field_addEdge (·.name) (fun _ _ => rfl) (fun _ _ => rfl) a b · flags) (by simp) (by simp)
    (consistent.toLinked.addEdge a_inside b_inside flags) fun c d edge => ?_
  rw [succIds_addEdge g a_inside] at edge
  grind

theorem removeEdge (a b : Nat) : (g.removeEdge a b).Consistent := by
  refine consistent.of_edges (by simp) rfl
    (g.block_field_removeEdge (·.name) (fun _ _ => rfl) (fun _ _ => rfl) a b) (by simp) (by simp)
    (consistent.toLinked.removeEdge a b) fun c d edge => .inl ?_
  rw [succIds_removeEdge] at edge
  grind

theorem killUnexecuted : g.killUnexecuted.Consistent := by
  have field {α : Type} (field : Block → α) (same : ∀ blk, field { blk with
      succs := blk.succs.map fun e =>
        (e.1, if e.2.executable then e.2 else { e.2 with fake := true }) } = field blk) (b : Nat) :
      field (g.killUnexecuted.block b) = field (g.block b) := by
    simp only [FlowGraph.killUnexecuted, modifyAllEdges, block, Array.getD_eq_getD_getElem?,
      Array.getElem?_map]
    cases g.blocks[b]? with
    | none => rfl
    | some blk => exact same blk
  have succIds (a : Nat) : g.killUnexecuted.succIds a = g.succIds a :=
    field (·.succs.map Prod.fst) (fun blk => by simp [Function.comp_def]) a
  refine consistent.of_edges (by simp [FlowGraph.killUnexecuted, modifyAllEdges]) rfl
    (field (·.name) fun _ => rfl) (field (·.removed) fun _ => rfl) (field (·.instrs) fun _ => rfl)
    (consistent.toLinked.of_same succIds (field (·.preds) fun _ => rfl)) fun a b edge => ?_
  exact .inl (succIds a ▸ edge)

theorem pushInstr (live : b ∈ g.liveBlocks) (x : Instr) :
    (g.pushInstr b x).Consistent where
  toLinked := consistent.toLinked.of_same (fun a => by simp [succIds]) fun a => by simp
  joins a c edge := by simpa using consistent.joins a c (by simpa [succIds] using edge)
  bare c gone := by
    rw [removed_pushInstr] at gone
    have other : ¬(b = c ∧ b < g.blocks.size) := by
      rintro ⟨rfl, _⟩
      simp [(g.mem_liveBlocks.mp live).2] at gone
    rw [block_pushInstr, if_neg other]
    exact consistent.bare c gone
  indexed n c := by
    rw [blocks_size_pushInstr, g.block_field_pushInstr (·.name) fun _ _ => rfl]
    exact consistent.indexed n c

theorem addBlock {name : String} {b : BlockId}
    (added : g.addBlock name = .ok (b, h)) : h.Consistent := by
  unfold FlowGraph.addBlock at added
  split at added
  · cases added
  rename_i unused
  obtain rfl : (g.pushBlock name).2 = h := congrArg Prod.snd (Except.ok.inj added)
  have succIds (a : Nat) : (g.pushBlock name).2.succIds a = g.succIds a :=
    congrArg (List.map Prod.fst) (g.block_field_pushBlock (·.succs) name rfl a)
  have removed := g.block_field_pushBlock (·.removed) name rfl
  refine ⟨consistent.toLinked.of_same succIds (g.block_field_pushBlock (·.preds) name rfl),
    fun a b edge => ?_, fun b gone => ?_, fun n b => ?_⟩
  · rw [removed, removed]
    exact consistent.joins a b (succIds a ▸ edge)
  · rw [g.block_field_pushBlock (·.instrs) name rfl]
    exact consistent.bare b (removed b ▸ gone)
  · have other {c : Nat} (inside : c < g.blocks.size) : (g.block c).name ≠ name := fun taken =>
      unused (Option.isSome_iff_exists.mpr ⟨c, (consistent.indexed name c).mpr ⟨inside, taken⟩⟩)
    have old := consistent.indexed n b
    change List.lookup n ((name, g.blocks.size) :: g.names) = some b ↔ _
    rw [List.lookup_cons, size_pushBlock, block_pushBlock]
    grind [Block.ofName]

theorem removeBlock (removed : g.removeBlock b = .ok h) : h.Consistent := by
  have apart := Apart.removeBlock removed
  obtain ⟨linked, edges⟩ := consistent.toLinked.removeBlock removed
  refine ⟨linked, fun a c edge => ?_, fun c gone => ?_, fun n c => ?_⟩
  · obtain ⟨old, source, target⟩ := (edges a c).mp edge
    rw [apart.removed a source, apart.removed c target]
    exact consistent.joins a c old
  · by_cases here : c = b
    · rw [here, instrs_removeBlock removed]
    · rw [apart.code c here]
      exact consistent.bare c (apart.removed c here ▸ gone)
  · rw [names_removeBlock removed, apart.size, apart.name]
    exact consistent.indexed n c

theorem dropBlock (b : Nat) : (g.dropBlock b).Consistent := by
  unfold FlowGraph.dropBlock
  split
  · rename_i removed
    exact consistent.removeBlock removed
  · exact consistent

theorem foldl_bypassEdge (b : Nat) {s : Nat} (s_live : s ∈ g.liveBlocks) (ps : List Nat)
    (live : ∀ p ∈ ps, p ∈ g.liveBlocks) : (ps.foldl (bypassEdge b s) g).Consistent := by
  induction ps generalizing g with
  | nil => exact consistent
  | cons p ps ih =>
    have frame := sameFrame_bypassEdge b s p g
    have same (c : Nat) : c ∈ (bypassEdge b s g p).liveBlocks ↔ c ∈ g.liveBlocks := by
      rw [mem_liveBlocks, mem_liveBlocks, frame.size, frame.removed]
    have first : (bypassEdge b s g p).Consistent := by
      refine ((consistent.removeEdge p b).addEdge ?_ ?_ _).of_blocks (blocks_redirect _ _ _)
        (names_foldl fun _ _ => rfl)
      · simpa [mem_liveBlocks] using live p (by simp)
      · simpa [mem_liveBlocks] using s_live
    rw [List.foldl_cons]
    exact ih first ((same s).mpr s_live) fun q member => (same q).mpr (live q (by simp [member]))

theorem pruneBlock (b : Nat) : (g.pruneBlock b).1.Consistent := by
  unfold FlowGraph.pruneBlock
  split
  · exact consistent.dropBlock b
  · split
    · rename_i s through
      obtain ⟨f, -, only, -⟩ := throughEdge_eq_some_iff.mp through
      have edge : s ∈ g.succIds b := by simp [succIds, only]
      rw [spliceOut_eq]
      refine (consistent.foldl_bypassEdge b ?_ _ fun p back => ?_).dropBlock b
      · exact g.mem_liveBlocks.mpr ⟨consistent.target_inside edge, (consistent.joins b s edge).2⟩
      · exact g.mem_liveBlocks.mpr (consistent.preds_live back)
    · exact consistent

theorem blockNamed?_eq_some_iff {name : String} :
    g.blockNamed? name = some b ↔ b ∈ g.liveBlocks ∧ (g.block b).name = name := by
  rw [blockNamed?, Option.filter_eq_some_iff, consistent.indexed, mem_liveBlocks, Bool.not_eq_true']
  exact and_right_comm

end Consistent

theorem consistent_ofScope (scope : Scope) : (ofScope scope).Consistent := by
  have empty := block_ofScope .topLevel
  have entered : ∀ e ∈ (ofScope .topLevel).names,
      e.2 < (ofScope .topLevel).blocks.size ∧ ((ofScope .topLevel).block e.2).name = e.1 := by decide +kernel
  have found : ∀ b < (ofScope .topLevel).blocks.size,
      (ofScope .topLevel).names.lookup ((ofScope .topLevel).block b).name = some b := by decide +kernel
  have consistent : (ofScope .topLevel).Consistent := by
    refine ⟨⟨by simp [succIds, empty], by simp [succIds, empty], by simp [empty]⟩, by simp [empty],
      by simp [empty], fun name b => ⟨fun known => ?_, ?_⟩⟩
    · exact entered (name, b) (mem_of_lookup known)
    · rintro ⟨inside, rfl⟩
      exact found b inside
  exact consistent.of_blocks rfl rfl

/-! Runs. -/

inductive Mutation where
  | addBlock (name : String)
  | addEdge (a b : BlockId) (flags : EdgeFlags)
  | removeEdge (a b : BlockId)
  | addFlag (a b : BlockId) (flag : EdgeFlags)
  | removeFlag (a b : BlockId) (flag : EdgeFlags)
  | removeBlock (b : BlockId)
  | pushInstr (b : BlockId) (x : Instr)
  | prune
  | killUnexecuted

namespace Mutation

/-- The graph after the change; one that is refused leaves it as it is. -/
def apply (g : FlowGraph) : Mutation → FlowGraph
  | .addBlock name => (g.addBlock name).toOption.elim g (·.2)
  | .addEdge a b flags => g.addEdge a b flags
  | .removeEdge a b => g.removeEdge a b
  | .addFlag a b flag => (g.addFlag a b flag).2
  | .removeFlag a b flag => g.removeFlag a b flag
  | .removeBlock b => (g.removeBlock b).toOption.getD g
  | .pushInstr b x => g.pushInstr b x
  | .prune => g.prune
  | .killUnexecuted => g.killUnexecuted

/-- Edges and instructions go to blocks that are not removed. -/
def Allowed (g : FlowGraph) : Mutation → Prop
  | .addEdge a b _ => a ∈ g.liveBlocks ∧ b ∈ g.liveBlocks
  | .pushInstr b _ => b ∈ g.liveBlocks
  | _ => True

end Mutation

theorem Consistent.apply (consistent : g.Consistent) {m : Mutation} (allowed : m.Allowed g) :
    (m.apply g).Consistent := by
  cases m with
  | addBlock name =>
    rw [Mutation.apply]
    cases found : g.addBlock name with
    | ok added => exact consistent.addBlock found
    | error e => exact consistent
  | addEdge a b flags => exact consistent.addEdge allowed.1 allowed.2 flags
  | removeEdge a b => exact consistent.removeEdge a b
  | addFlag a b flag =>
    rw [Mutation.apply, FlowGraph.addFlag]
    split
    · split
      · exact consistent
      · exact consistent.modifyEdge a b (·.union flag)
    · exact consistent
  | removeFlag a b flag => exact consistent.modifyEdge a b (·.without flag)
  | removeBlock b =>
    rw [Mutation.apply]
    cases found : g.removeBlock b with
    | ok h => exact consistent.removeBlock found
    | error e => exact consistent
  | pushInstr b x => exact consistent.pushInstr allowed x
  | prune => exact pruneRounds_keeps (fun consistent _ => consistent.pruneBlock _) consistent _
  | killUnexecuted => exact consistent.killUnexecuted

/-- Graphs made from a new one by changes. -/
inductive Made (scope : Scope) : FlowGraph → Prop where
  | start : Made scope (ofScope scope)
  | change {g : FlowGraph} (m : Mutation) : Made scope g → m.Allowed g → Made scope (m.apply g)

theorem Made.consistent {scope : Scope} (made : Made scope g) : g.Consistent := by
  induction made with
  | start => exact consistent_ofScope scope
  | change m _ allowed ih => exact ih.apply allowed

/-- After any changes, edges are recorded at both ends and once, removed blocks have neither edges nor
instructions, names are distinct, and a name leads to the block that has it unless it is removed. -/
theorem made_consistent {scope : Scope} (made : Made scope g) :
    (∀ a b, b ∈ g.succIds a ↔ a ∈ (g.block b).preds) ∧
    (∀ b, (g.succIds b).Nodup ∧ (g.block b).preds.Nodup) ∧
    (∀ b, (g.block b).removed = true →
      (g.block b).succs = [] ∧ (g.block b).preds = [] ∧ (g.block b).instrs = []) ∧
    (∀ a < g.blocks.size, ∀ b < g.blocks.size, (g.block a).name = (g.block b).name → a = b) ∧
    ∀ name b, g.blockNamed? name = some b ↔ b ∈ g.liveBlocks ∧ (g.block b).name = name := by
  have consistent := made.consistent
  refine ⟨consistent.symm, fun b => ⟨consistent.succs_distinct b, consistent.preds_distinct b⟩,
    fun b gone => ⟨?_, ?_, consistent.bare b gone⟩,
    fun a a_inside b b_inside => consistent.named a_inside b_inside, fun name b => consistent.blockNamed?_eq_some_iff⟩
  · refine List.eq_nil_iff_forall_not_mem.mpr fun e member => ?_
    simp [(consistent.joins b e.1 (List.mem_map_of_mem member)).1] at gone
  · refine List.eq_nil_iff_forall_not_mem.mpr fun p back => ?_
    simp [(consistent.joins p b ((consistent.symm p b).mpr back)).2] at gone

/-- A block with an edge to itself is added and removed, its name stays taken; the entry is not
removed. -/
theorem made_consistent_loop : ∃ g, Made .topLevel g ∧ (g.block 6).removed = true ∧
    (g.block 6).succs = [] ∧ (g.block 6).preds = [] ∧ g.names.lookup "Loop" = some 6 ∧
    g.blockNamed? "Loop" = none ∧ (g.block 0).removed = false := by
  have initial : Made .topLevel (ofScope .topLevel) := .start
  have grown := (initial.change (.addBlock "Loop") trivial).change (.addEdge 0 6 .none)
    ⟨by decide +kernel, by decide +kernel⟩
  have looped := grown.change (.addEdge 6 6 .none) ⟨by decide +kernel, by decide +kernel⟩
  have made := (looped.change (.removeBlock 6) trivial).change (.removeBlock 0) trivial
  have gone := (made_consistent made).2.2.1 6 (by decide +kernel)
  exact ⟨_, made, by decide +kernel, gone.1, gone.2.1, by decide +kernel, by decide +kernel,
    by decide +kernel⟩

end ScriptFlow.FlowGraph
