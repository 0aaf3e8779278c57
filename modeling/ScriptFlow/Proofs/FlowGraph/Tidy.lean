import ScriptFlow.Lowering.Walk
import ScriptFlow.Proofs.FlowGraph.Growth
import ScriptFlow.Proofs.FlowGraph.WellFormed

/-! Removing and bypassing blocks keeps a graph well formed. -/

namespace ScriptFlow.FlowGraph

variable {h : FlowGraph} {α : Type} {b s : Nat}

/-! Records of uses and definitions. -/

/-- Two graphs that differ in what is recorded of their bindings only. -/
structure SameShape (g h : FlowGraph) : Prop where
  blocks : h.blocks = g.blocks
  instrs : h.instrs = g.instrs
  size : h.bindings.size = g.bindings.size
  original : ∀ v, (h.binding v).uninitialized = (g.binding v).uninitialized
  header : h.header = g.header

namespace SameShape

theorem refl (g : FlowGraph) : SameShape g g := ⟨rfl, rfl, rfl, fun _ => rfl, rfl⟩

theorem trans {g k : FlowGraph} (gh : SameShape g h) (hk : SameShape h k) : SameShape g k where
  blocks := hk.blocks.trans gh.blocks
  instrs := hk.instrs.trans gh.instrs
  size := hk.size.trans gh.size
  original v := (hk.original v).trans (gh.original v)
  header := hk.header.trans gh.header

theorem modifyBinding (g : FlowGraph) (b : Nat) (f : Binding → Binding)
    (same : ∀ x, (f x).uninitialized = x.uninitialized) : SameShape g (g.modifyBinding b f) where
  blocks := rfl
  instrs := rfl
  size := by simp
  original v := g.binding_field_modifyBinding (·.uninitialized) b v f same
  header := rfl

theorem foldl (f : FlowGraph → α → FlowGraph) (step : ∀ g a, SameShape g (f g a))
    (as : List α) (g : FlowGraph) : SameShape g (as.foldl f g) := by
  induction as generalizing g with
  | nil => exact refl g
  | cons a as ih => exact (step g a).trans (ih (f g a))

theorem wellFormed {g : FlowGraph} (same : SameShape g h) (wf : g.WellFormed) : h.WellFormed :=
  wf.of_same same.blocks same.instrs same.size same.original

end SameShape

theorem sameShape_recordInstr (g : FlowGraph) (i : Nat) : SameShape g (g.recordInstr i) := by
  have uses := SameShape.foldl (fun g b => g.recordUse i b)
    (fun g b => .modifyBinding g b _ fun _ => rfl) (g.instr i).operands g
  unfold recordInstr
  dsimp only
  cases (g.instr i).target? with
  | none => exact uses
  | some t => exact uses.trans (.modifyBinding _ t _ fun _ => rfl)

theorem sameShape_rebuildUses (g : FlowGraph) : SameShape g g.rebuildUses := by
  have cleaned : SameShape g { g with
      bindings := g.bindings.map fun x => { x with definition := none, uses := [] } } := by
    refine ⟨rfl, rfl, by simp, fun v => ?_, rfl⟩
    simp only [binding, Array.getD_eq_getD_getElem?, Array.getElem?_map]
    cases g.bindings[v]? <;> rfl
  exact cleaned.trans (.foldl recordInstr sameShape_recordInstr g.allInstrs _)

theorem sameShape_forgetInstr (g : FlowGraph) (i : Nat) : SameShape g (g.forgetInstr i) := by
  have uses := SameShape.foldl
    (fun (g : FlowGraph) b => g.modifyBinding b fun x => { x with uses := x.uses.filter (· != i) })
    (fun g b => .modifyBinding g b _ fun _ => rfl) (g.instr i).operands g
  unfold forgetInstr
  dsimp only
  split
  · refine uses.trans (.modifyBinding _ _ _ fun x => ?_)
    split <;> rfl
  · exact uses

/-! Removing a block. -/

namespace WellFormed

variable {g : FlowGraph}

theorem foldl_removeEdge (wf : g.WellFormed) (source target : α → Nat) (es : List α) :
    (es.foldl (fun g e => g.removeEdge (source e) (target e)) g).WellFormed := by
  induction es generalizing g with
  | nil => exact wf
  | cons e es ih => exact ih (wf.removeEdge _ _)

/-- A block without edges may be emptied. -/
theorem clearInstrs (wf : g.WellFormed) (no_succs : g.succIds b = [])
    (no_preds : (g.block b).preds = []) :
    (g.modifyBlock b fun blk => { blk with instrs := [] }).WellFormed := by
  have field {α : Type} (field : Block → α)
      (same : ∀ blk : Block, field { blk with instrs := [] } = field blk) (c : Nat) :=
    g.block_field_modifyBlock field b c (fun blk => { blk with instrs := [] }) same
  have succs := field (·.succs) fun _ => rfl
  have preds := field (·.preds) fun _ => rfl
  have removed := field (·.removed) fun _ => rfl
  have instrs (c : Nat) :
      ((g.modifyBlock b fun blk => { blk with instrs := [] }).block c).instrs = [] ∨
        ((g.modifyBlock b fun blk => { blk with instrs := [] }).block c).instrs =
          (g.block c).instrs := by
    rw [block_modifyBlock]
    split
    · exact .inl rfl
    · exact .inr rfl
  have succIds (c : Nat) :
      (g.modifyBlock b fun blk => { blk with instrs := [] }).succIds c = g.succIds c := by
    simp only [FlowGraph.succIds, succs]
  have others {c : Nat} (other : b ≠ c) := g.block_modifyBlock_ne other
    fun blk => { blk with instrs := [] }
  refine ⟨wf.toLinked.of_same succIds preds, ?_, ?_, ?_, ?_, ?_, wf.inScope, wf.unmerged, ?_, ?_, ?_,
    wf.original⟩
  · simpa using wf.room
  · simpa only [removed] using wf.kept
  · intro c gone
    rw [removed] at gone
    obtain ⟨no_instrs, rest⟩ := wf.bare c gone
    rw [succIds, preds]
    exact ⟨(instrs c).elim id fun same => same.trans no_instrs, rest⟩
  · intro c i member
    rcases instrs c with none | same
    · rw [none] at member
      cases member
    · exact wf.placed c i (same ▸ member)
  · intro c
    rcases instrs c with none | same
    · rw [none]
      exact List.nodup_nil
    · rw [same]
      exact wf.distinct c
  · simpa only [succs] using wf.real
  · rw [preds]
    exact wf.entry
  · intro a e member exceptional
    rw [succs] at member
    have edge : e.1 ∈ g.succIds a := g.mem_succIds.mpr ⟨e.2, member⟩
    have not_source : b ≠ a := by
      rintro rfl
      rw [no_succs] at edge
      cases edge
    have not_target : b ≠ e.1 := by
      rintro rfl
      have back := (wf.symm a e.1).mp edge
      rw [no_preds] at back
      cases back
    rw [others not_source, others not_target]
    exact wf.guarded a e member exceptional

/-- A block without edges and instructions may be marked as removed. -/
theorem markRemoved (wf : g.WellFormed) (movable : isDistinguished b = false)
    (no_instrs : (g.block b).instrs = []) (no_succs : g.succIds b = [])
    (no_preds : (g.block b).preds = []) :
    (g.modifyBlock b fun blk => { blk with removed := true }).WellFormed := by
  have field {α : Type} (field : Block → α)
      (same : ∀ blk : Block, field { blk with removed := true } = field blk) (c : Nat) :=
    g.block_field_modifyBlock field b c (fun blk => { blk with removed := true }) same
  have succs := field (·.succs) fun _ => rfl
  have preds := field (·.preds) fun _ => rfl
  have instrs := field (·.instrs) fun _ => rfl
  have others {c : Nat} (other : b ≠ c) := g.block_modifyBlock_ne other
    fun blk => { blk with removed := true }
  have succIds (c : Nat) :
      (g.modifyBlock b fun blk => { blk with removed := true }).succIds c = g.succIds c := by
    simp only [FlowGraph.succIds, succs]
  refine ⟨wf.toLinked.of_same succIds preds, ?_, ?_, ?_, ?_, ?_, wf.inScope, wf.unmerged, ?_, ?_, ?_,
    wf.original⟩
  · simpa using wf.room
  · intro c stays
    have other : b ≠ c := by
      rintro rfl
      rw [movable] at stays
      cases stays
    rw [others other]
    exact wf.kept c stays
  · intro c gone
    rw [instrs, succIds, preds]
    by_cases here : b = c
    · rw [← here]
      exact ⟨no_instrs, no_succs, no_preds⟩
    · rw [others here] at gone
      exact wf.bare c gone
  · exact fun c i member => wf.placed c i (instrs c ▸ member)
  · simpa only [instrs] using wf.distinct
  · simpa only [succs] using wf.real
  · rw [preds]
    exact wf.entry
  · simpa only [succs, instrs] using wf.guarded

end WellFormed

/-! Taking all edges of a block away. -/

/-- After the edges in a list are removed, none of them is left and no other one is new. -/
theorem mem_succIds_foldl (source target : α → Nat) (es : List α) (g : FlowGraph) {a : Nat} :
    b ∈ (es.foldl (fun g e => g.removeEdge (source e) (target e)) g).succIds a ↔
      b ∈ g.succIds a ∧ ∀ e ∈ es, source e = a → target e ≠ b := by
  induction es generalizing g with
  | nil => simp
  | cons e es ih =>
    rw [List.foldl_cons, ih, succIds_removeEdge]
    grind

theorem Linked.foldl_removeEdge {g : FlowGraph} (linked : g.Linked) (source target : α → Nat)
    (es : List α) : (es.foldl (fun g e => g.removeEdge (source e) (target e)) g).Linked := by
  induction es generalizing g with
  | nil => exact linked
  | cons e es ih => exact ih (linked.removeEdge _ _)

/-- The graph without the edges that lead to or from a block. -/
def detach (g : FlowGraph) (b : BlockId) : FlowGraph :=
  let g := (g.block b).succs.foldl (fun g e => g.removeEdge b e.1) g
  (g.block b).preds.foldl (fun g p => g.removeEdge p b) g

theorem Linked.detach {g : FlowGraph} (linked : g.Linked) (b : Nat) :
    (g.detach b).Linked ∧ ∀ a c, c ∈ (g.detach b).succIds a ↔ c ∈ g.succIds a ∧ a ≠ b ∧ c ≠ b := by
  unfold FlowGraph.detach
  have linked₁ := linked.foldl_removeEdge (fun _ => b) (·.1) (g.block b).succs
  have edges₁ (a c : Nat) : c ∈ ((g.block b).succs.foldl (fun g e => g.removeEdge b e.1) g).succIds a ↔
      c ∈ g.succIds a ∧ a ≠ b := by
    rw [mem_succIds_foldl (fun _ : BlockId × EdgeFlags => b) (·.1)]
    refine and_congr_right fun edge => ⟨?_, fun other _ _ here => absurd here.symm other⟩
    rintro others rfl
    obtain ⟨flags, member⟩ := g.mem_succIds.mp edge
    exact others _ member rfl rfl
  generalize (g.block b).succs.foldl (fun g e => g.removeEdge b e.1) g = g₁ at linked₁ edges₁
  refine ⟨linked₁.foldl_removeEdge (fun p => p) (fun _ => b) (g₁.block b).preds, fun a c => ?_⟩
  rw [mem_succIds_foldl (fun p : Nat => p) (fun _ => b), edges₁, and_assoc]
  refine and_congr_right fun edge => and_congr_right fun source =>
    ⟨?_, fun other _ _ _ here => other here.symm⟩
  rintro others rfl
  exact others a ((linked₁.symm a c).mp ((edges₁ a c).mpr ⟨edge, source⟩)) rfl rfl

/-- What is left of a removed block and of the records of its instructions. -/
def clear (g : FlowGraph) (b : BlockId) : FlowGraph :=
  ((g.block b).instrs.foldl forgetInstr
    (g.modifyBlock b fun blk => { blk with instrs := [] })).modifyBlock b
    fun blk => { blk with removed := true }

theorem eq_clear_of_removeBlock {g : FlowGraph} (removed : g.removeBlock b = .ok h) :
    h = (g.detach b).clear b := by
  unfold FlowGraph.removeBlock at removed
  split at removed
  · cases removed
  · exact (Except.ok.inj removed).symm

theorem WellFormed.removeBlock {g : FlowGraph} (wf : g.WellFormed)
    (movable : isDistinguished b = false) (removed : g.removeBlock b = .ok h) : h.WellFormed := by
  rw [eq_clear_of_removeBlock removed]
  obtain ⟨linked, edges⟩ := wf.toLinked.detach b
  have wf' : (g.detach b).WellFormed := by
    have left := wf.foldl_removeEdge (fun _ => b) (·.1) (g.block b).succs
    exact left.foldl_removeEdge (fun p => p) (fun _ => b) _
  generalize g.detach b = k at linked edges wf'
  have no_succs : k.succIds b = [] :=
    List.eq_nil_iff_forall_not_mem.mpr fun c edge => ((edges b c).mp edge).2.1 rfl
  have no_preds : (k.block b).preds = [] :=
    List.eq_nil_iff_forall_not_mem.mpr fun a back =>
      ((edges a b).mp ((linked.symm a b).mpr back)).2.2 rfl
  have same := SameShape.foldl forgetInstr sameShape_forgetInstr (k.block b).instrs
    (k.modifyBlock b fun blk => { blk with instrs := [] })
  refine (same.wellFormed (wf'.clearInstrs no_succs no_preds)).markRemoved movable ?_ ?_ ?_
  · rw [block_congr same.blocks, block_modifyBlock]
    split
    · rfl
    · rename_i outside
      exact congrArg Block.instrs (k.block_outside (by grind))
  · simp only [FlowGraph.succIds, block_congr same.blocks]
    rw [k.block_field_modifyBlock (·.succs) b b (fun blk => { blk with instrs := [] }) fun _ => rfl]
    exact no_succs
  · rw [block_congr same.blocks,
      k.block_field_modifyBlock (·.preds) b b (fun blk => { blk with instrs := [] }) fun _ => rfl]
    exact no_preds

theorem WellFormed.dropBlock {g : FlowGraph} (wf : g.WellFormed)
    (movable : isDistinguished b = false) : (g.dropBlock b).WellFormed := by
  unfold FlowGraph.dropBlock
  split
  · rename_i removed
    exact wf.removeBlock movable removed
  · exact wf

/-! Sending edges past a block. -/

abbrev redirect (f : BlockId → BlockId) (g : FlowGraph) (is : List InstrId) : FlowGraph :=
  is.foldl (fun g i => g.setInstr i ((g.instr i).mapBlocks f)) g

theorem blocks_redirect (f : BlockId → BlockId) (g : FlowGraph) (is : List InstrId) :
    (g.redirect f is).blocks = g.blocks := by
  induction is generalizing g with
  | nil => rfl
  | cons i is ih => exact ih _

theorem WellFormed.setInstr {g : FlowGraph} (wf : g.WellFormed) {i : Nat} {x : Instr}
    (within : i < g.instrs.size → x.Within g.bindings.size)
    (plain : i < g.instrs.size → x.isPhi = false) : (g.setInstr i x).WellFormed := by
  refine ⟨wf.toLinked.of_same (fun _ => rfl) fun _ => rfl, wf.room, wf.kept, wf.bare, ?_, wf.distinct,
    ?_, ?_, wf.real, wf.entry, wf.guarded, wf.original⟩
  · intro b j member
    rw [size_setInstr, blockOf_setInstr]
    exact wf.placed b j member
  · intro j inside
    rw [size_setInstr] at inside
    rw [instr_setInstr]
    split
    · rename_i here
      exact within here.2
    · exact wf.inScope j inside
  · intro j inside
    rw [size_setInstr] at inside
    rw [instr_setInstr]
    split
    · rename_i here
      exact plain here.2
    · exact wf.unmerged j inside

theorem WellFormed.redirect {g : FlowGraph} (wf : g.WellFormed) (f : BlockId → BlockId)
    (is : List InstrId) : (g.redirect f is).WellFormed := by
  induction is generalizing g with
  | nil => exact wf
  | cons i is ih =>
    refine ih (wf.setInstr (fun inside => (wf.inScope i inside).mapBlocks f) fun inside => ?_)
    rw [Instr.isPhi_mapBlocks]
    exact wf.unmerged i inside

/-- Sends one edge into `b` on to `s`. -/
def bypassEdge (b s : BlockId) (g : FlowGraph) (p : BlockId) : FlowGraph :=
  let g' := (g.removeEdge p b).addEdge p s ((g.edge? p b).getD .none)
  g'.redirect (fun x => if x = b then s else x) (g'.block p).instrs

theorem spliceOut_eq (g : FlowGraph) (b s : BlockId) :
    g.spliceOut b s = ((g.block b).preds.foldl (bypassEdge b s) g).dropBlock b := rfl

/-- What sending edges past a block does not change. -/
structure SameFrame (g h : FlowGraph) : Prop where
  size : h.blocks.size = g.blocks.size
  removed : ∀ c, (h.block c).removed = (g.block c).removed
  instrs : ∀ c, (h.block c).instrs = (g.block c).instrs

theorem sameFrame_bypassEdge (b s p : Nat) (g : FlowGraph) : SameFrame g (bypassEdge b s g p) where
  size := by simp [bypassEdge, blocks_redirect]
  removed c := by simp [bypassEdge, block_congr (blocks_redirect _ _ _)]
  instrs c := by simp [bypassEdge, block_congr (blocks_redirect _ _ _)]

theorem WellFormed.bypassEdge {g : FlowGraph} (wf : g.WellFormed) {p : Nat}
    (empty : (g.block b).instrs = []) (p_inside : p < g.blocks.size)
    (p_live : (g.block p).removed = false) (s_inside : s < g.blocks.size)
    (s_live : (g.block s).removed = false) (later : s ≠ enter) :
    (bypassEdge b s g p).WellFormed := by
  refine ((wf.removeEdge p b).addEdge ?_ ?_ ?_ ?_ later ?_ ?_).redirect _ _
  · simpa using p_inside
  · simpa using s_inside
  · simpa using p_live
  · simpa using s_live
  · cases found : g.edge? p b with
    | none => rfl
    | some flags => exact wf.real p _ (wf.edge_eq_some_iff.mp found)
  · intro exceptional
    cases found : g.edge? p b with
    | none =>
      rw [found] at exceptional
      cases exceptional
    | some flags =>
      rw [found] at exceptional
      -- the block in between has no instructions, so the one before it has some
      have guarded := wf.guarded p _ (wf.edge_eq_some_iff.mp found) exceptional
      rw [instrs_removeEdge]
      exact .inl (guarded.resolve_right fun h => h empty)

theorem WellFormed.foldl_bypassEdge {g : FlowGraph} (wf : g.WellFormed) (ps : List Nat)
    (empty : (g.block b).instrs = [])
    (inside : ∀ p ∈ ps, p < g.blocks.size ∧ (g.block p).removed = false)
    (s_inside : s < g.blocks.size) (s_live : (g.block s).removed = false) (later : s ≠ enter) :
    (ps.foldl (FlowGraph.bypassEdge b s) g).WellFormed := by
  induction ps generalizing g with
  | nil => exact wf
  | cons p ps ih =>
    have frame := sameFrame_bypassEdge b s p g
    have here := inside p (by simp)
    rw [List.foldl_cons]
    refine ih (wf.bypassEdge empty here.1 here.2 s_inside s_live later) ?_ ?_ ?_ ?_
    · rw [frame.instrs, empty]
    · intro q member
      rw [frame.size, frame.removed]
      exact inside q (by simp [member])
    · rw [frame.size]
      exact s_inside
    · rw [frame.removed]
      exact s_live

/-- A block that only passes control on is empty, and its one edge is a plain one to another block. -/
theorem throughEdge_eq_some_iff {g : FlowGraph} :
    g.throughEdge? b = some s ↔ ∃ f, (g.block b).instrs = [] ∧ (g.block b).succs = [(s, f)] ∧
      s ≠ b ∧ f.isNormal = true ∧ f.isReal = true := by
  unfold throughEdge?
  split
  · rename_i t f no_instrs only
    rw [Option.ite_none_right_eq_some]
    grind
  · grind

theorem WellFormed.spliceOut {g : FlowGraph} (wf : g.WellFormed)
    (movable : isDistinguished b = false) (through : g.throughEdge? b = some s) :
    (g.spliceOut b s).WellFormed := by
  obtain ⟨_, empty, only, -⟩ := throughEdge_eq_some_iff.mp through
  have edge : s ∈ g.succIds b := by simp [FlowGraph.succIds, only]
  rw [spliceOut_eq]
  refine WellFormed.dropBlock ?_ movable
  refine wf.foldl_bypassEdge _ empty (fun p member => ?_) (wf.target_inside edge)
    (wf.target_live edge) (wf.target_ne_enter edge)
  have into : b ∈ g.succIds p := (wf.symm p b).mpr member
  exact ⟨Linked.source_inside p b into, wf.source_live into⟩

/-! Pruning. -/

theorem WellFormed.pruneBlock {g : FlowGraph} (wf : g.WellFormed)
    (movable : isDistinguished b = false) : (g.pruneBlock b).1.WellFormed := by
  unfold FlowGraph.pruneBlock
  split
  · exact wf.dropBlock movable
  · split
    · rename_i through
      exact wf.spliceOut movable through
    · exact wf

section

variable {P : FlowGraph → Prop}
  (step : ∀ {g : FlowGraph} {b : Nat}, P g → isDistinguished b = false → P (g.pruneBlock b).1)

include step

/-- What holds still when one block is pruned holds after a round, and after all of them. -/
theorem pruneRound_keeps {g : FlowGraph} (holds : P g) : P g.pruneRound.1 := by
  unfold FlowGraph.pruneRound
  have movable : ∀ b ∈ g.liveBlocks.filter (!isDistinguished ·), isDistinguished b = false :=
    fun b member => by simpa using (List.mem_filter.mp member).2
  generalize g.liveBlocks.filter (!isDistinguished ·) = bs at movable
  generalize false = changed
  induction bs generalizing g changed with
  | nil => exact holds
  | cons b bs ih =>
    exact ih (step holds (movable b (by simp))) (fun c member => movable c (by simp [member])) _

theorem pruneRounds_keeps {g : FlowGraph} (holds : P g) (fuel : Nat) : P (pruneRounds fuel g) := by
  induction fuel generalizing g with
  | zero => exact holds
  | succ fuel ih =>
    have round := pruneRound_keeps step holds
    unfold FlowGraph.pruneRounds
    split
    · rename_i pruned eq
      rw [eq] at round
      exact ih round
    · rename_i pruned eq
      rw [eq] at round
      exact round

end

theorem WellFormed.pruneRound {g : FlowGraph} (wf : g.WellFormed) : g.pruneRound.1.WellFormed :=
  pruneRound_keeps (fun wf movable => wf.pruneBlock movable) wf

theorem WellFormed.pruneRounds {g : FlowGraph} (wf : g.WellFormed) (fuel : Nat) :
    (pruneRounds fuel g).WellFormed :=
  pruneRounds_keeps (fun wf movable => wf.pruneBlock movable) wf fuel

theorem WellFormed.foldl_dropBlock {g : FlowGraph} (wf : g.WellFormed) (bs : List Nat)
    (movable : ∀ b ∈ bs, isDistinguished b = false) : (bs.foldl FlowGraph.dropBlock g).WellFormed := by
  induction bs generalizing g with
  | nil => exact wf
  | cons b bs ih =>
    exact ih (wf.dropBlock (movable b (by simp))) fun c member => movable c (by simp [member])

theorem WellFormed.tidy {g : FlowGraph} (wf : g.WellFormed) : (Lowering.tidy g).WellFormed := by
  have pruned : g.prune.WellFormed := wf.pruneRounds _
  unfold Lowering.tidy
  generalize g.prune = h at pruned
  dsimp only
  refine (sameShape_rebuildUses _).wellFormed (pruned.foldl_dropBlock _ fun b member => ?_)
  have chosen := (List.mem_filter.mp member).2
  simp only [Bool.and_eq_true, Bool.not_eq_true'] at chosen
  exact chosen.2

end ScriptFlow.FlowGraph
