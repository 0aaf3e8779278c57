import ScriptFlow.Proofs.FlowGraph.Edges
import ScriptFlow.Proofs.FlowGraph.Instr

/-! Well-formed flow graphs, before definitions are told apart by generations. -/

namespace ScriptFlow

namespace FlowGraph

variable {b a : Nat}

structure WellFormed (g : FlowGraph) : Prop extends Linked g where
  room : 6 ≤ g.blocks.size
  kept : ∀ b : Nat, isDistinguished b = true → (g.block b).removed = false
  bare : ∀ b, (g.block b).removed = true →
    (g.block b).instrs = [] ∧ g.succIds b = [] ∧ (g.block b).preds = []
  placed : ∀ b, ∀ i : Nat, i ∈ (g.block b).instrs → i < g.instrs.size ∧ g.blockOf i = b
  distinct : ∀ b, (g.block b).instrs.Nodup
  inScope : ∀ i : Nat, i < g.instrs.size → (g.instr i).Within g.bindings.size
  unmerged : ∀ i : Nat, i < g.instrs.size → (g.instr i).isPhi = false
  real : ∀ a, ∀ e ∈ (g.block a).succs, e.2.fake = false
  entry : (g.block enter).preds = []
  /-- No exception passes from one block without instructions to another. -/
  guarded : ∀ a, ∀ e ∈ (g.block a).succs, e.2.isException = true →
    (g.block a).instrs ≠ [] ∨ (g.block e.1).instrs ≠ []
  original : ∀ v, (g.binding v).uninitialized = false

namespace WellFormed

variable {g : FlowGraph}

/-- What is recorded of the bindings does not matter. -/
theorem of_same {h : FlowGraph} (wf : g.WellFormed) (blocks : h.blocks = g.blocks)
    (instrs : h.instrs = g.instrs) (size : h.bindings.size = g.bindings.size)
    (original : ∀ v, (h.binding v).uninitialized = (g.binding v).uninitialized) : h.WellFormed := by
  have block := block_congr blocks
  have instr := instr_congr instrs
  have succIds (a : Nat) : h.succIds a = g.succIds a := by simp only [FlowGraph.succIds, block]
  refine ⟨wf.toLinked.of_same succIds fun a => by rw [block], ?_, ?_, ?_, ?_, ?_, ?_, ?_, ?_, ?_, ?_, ?_⟩
  · rw [blocks]; exact wf.room
  · simpa only [block] using wf.kept
  · simpa only [block, succIds] using wf.bare
  · simpa only [block, instrs, blockOf_congr instrs] using wf.placed
  · simpa only [block] using wf.distinct
  · simpa only [instr, instrs, size] using wf.inScope
  · simpa only [instr, instrs] using wf.unmerged
  · simpa only [block] using wf.real
  · rw [block]; exact wf.entry
  · simpa only [block] using wf.guarded
  · exact fun v => (original v).trans (wf.original v)

theorem congr {h : FlowGraph} (wf : g.WellFormed) (blocks : h.blocks = g.blocks)
    (instrs : h.instrs = g.instrs) (bindings : h.bindings = g.bindings) : h.WellFormed :=
  wf.of_same blocks instrs (by rw [bindings]) fun v => by rw [binding_congr bindings]

theorem pushBlock (wf : g.WellFormed) (name : String) : (g.pushBlock name).2.WellFormed := by
  have outside := g.block_outside (Nat.le_refl _)
  -- the new block has no edges and no instructions, like every number past the end before
  have field {α : Type} (field : Block → α) (same : field (.ofName name) = field default)
      (b : Nat) : field ((g.pushBlock name).2.block b) = field (g.block b) := by
    rw [block_pushBlock]
    split
    · rename_i h
      rw [h, outside, same]
    · rfl
  have succs := field (·.succs) rfl
  have preds := field (·.preds) rfl
  have instrs := field (·.instrs) rfl
  have removed := field (·.removed) rfl
  have succIds (a : Nat) : (g.pushBlock name).2.succIds a = g.succIds a := by
    simp only [FlowGraph.succIds, succs]
  refine ⟨wf.toLinked.of_same succIds preds, ?_, ?_, ?_, ?_, ?_, ?_, ?_, ?_, ?_, ?_, ?_⟩
  · rw [size_pushBlock]
    exact Nat.le_succ_of_le wf.room
  · simpa only [removed] using wf.kept
  · simpa only [removed, instrs, succIds, preds] using wf.bare
  · exact fun b i member => wf.placed b i (instrs b ▸ member)
  · simpa only [instrs] using wf.distinct
  · exact wf.inScope
  · exact wf.unmerged
  · simpa only [succs] using wf.real
  · rw [preds]; exact wf.entry
  · simpa only [succs, instrs] using wf.guarded
  · exact wf.original

theorem pushBinding (wf : g.WellFormed) (x : Binding) (plain : x.uninitialized = false) :
    (g.pushBinding x).2.WellFormed where
  toLinked := wf.toLinked.of_same (fun _ => rfl) fun _ => rfl
  room := wf.room
  kept := wf.kept
  bare := wf.bare
  placed := wf.placed
  distinct := wf.distinct
  inScope i inside := by
    rw [size_pushBinding]
    exact (wf.inScope i inside).mono (Nat.le_succ _)
  unmerged := wf.unmerged
  real := wf.real
  entry := wf.entry
  guarded := wf.guarded
  original v := by
    rw [binding_pushBinding]
    split
    · exact plain
    · exact wf.original v

theorem pushInstr (wf : g.WellFormed) (live : (g.block b).removed = false) {x : Instr}
    (within : x.Within g.bindings.size) (plain : x.isPhi = false) :
    (g.pushInstr b x).WellFormed := by
  have succIds (a : Nat) : (g.pushInstr b x).succIds a = g.succIds a := by
    simp only [FlowGraph.succIds, succs_pushInstr]
  have grown {c : Nat} (h : (g.block c).instrs ≠ []) :
      ((g.pushInstr b x).block c).instrs ≠ [] := by
    rw [block_pushInstr]
    split
    · simp
    · exact h
  refine ⟨wf.toLinked.of_same succIds fun a => by simp, ?_, ?_, ?_, ?_, ?_, ?_, ?_, ?_, ?_, ?_, ?_⟩
  · simpa using wf.room
  · simpa using wf.kept
  · intro c gone
    rw [removed_pushInstr] at gone
    have other : ¬(b = c ∧ b < g.blocks.size) := by
      rintro ⟨rfl, _⟩
      rw [live] at gone
      cases gone
    rw [succIds, block_pushInstr, if_neg other]
    exact wf.bare c gone
  · intro c i member
    rw [instrs_size_pushInstr, blockOf_pushInstr]
    have inside_old : i ∈ (g.block c).instrs → i < g.instrs.size ∧ g.blockOf i = c :=
      wf.placed c i
    rw [block_pushInstr] at member
    split at member
    · rename_i h
      rcases List.mem_append.mp member with old | new
      · have := inside_old (h.1 ▸ old)
        exact ⟨by omega, by rw [if_neg (by omega)]; exact this.2⟩
      · have eq : i = g.instrs.size := by simpa using new
        exact ⟨by omega, by rw [if_pos eq]; exact h.1⟩
    · have := inside_old member
      exact ⟨by omega, by rw [if_neg (by omega)]; exact this.2⟩
  · intro c
    rw [block_pushInstr]
    split
    · refine List.nodup_append.mpr ⟨wf.distinct b, by simp, fun i member j last => ?_⟩
      rw [List.mem_singleton.mp last]
      exact Nat.ne_of_lt (wf.placed b i member).1
    · exact wf.distinct c
  · intro i inside
    rw [instrs_size_pushInstr] at inside
    rw [instr_pushInstr]
    split
    · exact within
    · exact wf.inScope i (by omega)
  · intro i inside
    rw [instrs_size_pushInstr] at inside
    rw [instr_pushInstr]
    split
    · exact plain
    · exact wf.unmerged i (by omega)
  · simpa using wf.real
  · simpa using wf.entry
  · intro a e member exceptional
    rw [succs_pushInstr] at member
    exact (wf.guarded a e member exceptional).imp grown grown
  · exact wf.original

theorem addEdge (wf : g.WellFormed) (source : a < g.blocks.size) (target : b < g.blocks.size)
    (a_live : (g.block a).removed = false) (b_live : (g.block b).removed = false)
    (later : b ≠ enter) {flags : EdgeFlags} (real : flags.fake = false)
    (guarded : flags.isException = true → (g.block a).instrs ≠ [] ∨ (g.block b).instrs ≠ []) :
    (g.addEdge a b flags).WellFormed := by
  refine ⟨wf.toLinked.addEdge source target flags, ?_, ?_, ?_, ?_, ?_, ?_, ?_, ?_, ?_, ?_, ?_⟩
  · simpa using wf.room
  · simpa using wf.kept
  · intro c gone
    rw [removed_addEdge] at gone
    have not_a : ¬(a = c ∧ b ∉ g.succIds a) := by
      rintro ⟨rfl, _⟩
      rw [a_live] at gone
      cases gone
    have not_b : ¬(b = c ∧ b ∉ g.succIds a) := by
      rintro ⟨rfl, _⟩
      rw [b_live] at gone
      cases gone
    rw [instrs_addEdge, succIds_addEdge g source, preds_addEdge g target, if_neg not_a, if_neg not_b]
    exact wf.bare c gone
  · simpa [blockOf] using wf.placed
  · simpa using wf.distinct
  · simpa [instr] using wf.inScope
  · simpa [instr] using wf.unmerged
  · intro c e member
    rcases g.mem_succs_addEdge member with old | ⟨_, _, new | ⟨old, old_mem, new⟩⟩
    · exact wf.real c e old
    · rw [new, real]
    · rw [new, EdgeFlags.union, wf.real a _ old_mem, real]
      rfl
  · rw [preds_addEdge g target, if_neg fun h => later h.1]
    exact wf.entry
  · intro c e member exceptional
    rw [instrs_addEdge, instrs_addEdge]
    rcases g.mem_succs_addEdge member with old | ⟨rfl, there, new | ⟨old, old_mem, new⟩⟩
    · exact wf.guarded c e old exceptional
    · rw [there]
      rw [new] at exceptional
      exact guarded exceptional
    · rw [there]
      -- an exception edge among the two joined ones is guarded already
      have either : old.isException = true ∨ flags.isException = true := by
        rw [new] at exceptional
        simp only [EdgeFlags.isException, EdgeFlags.union] at exceptional ⊢
        grind
      rcases either with h | h
      · exact wf.guarded c _ old_mem h
      · exact guarded h
  · simpa [binding] using wf.original

theorem removeEdge (wf : g.WellFormed) (a b : Nat) : (g.removeEdge a b).WellFormed := by
  have fewer {c : Nat} {e : Nat × EdgeFlags} (member : e ∈ ((g.removeEdge a b).block c).succs) :
      e ∈ (g.block c).succs := by
    rw [succs_removeEdge] at member
    split at member
    · exact List.mem_of_mem_filter member
    · exact member
  refine ⟨wf.toLinked.removeEdge a b, ?_, ?_, ?_, ?_, ?_, wf.inScope, wf.unmerged, ?_, ?_, ?_,
    wf.original⟩
  · simpa using wf.room
  · simpa using wf.kept
  · intro c gone
    rw [removed_removeEdge] at gone
    obtain ⟨no_instrs, no_succs, no_preds⟩ := wf.bare c gone
    rw [instrs_removeEdge, succIds_removeEdge, preds_removeEdge, no_instrs, no_succs, no_preds]
    simp
  · exact fun c i member => wf.placed c i (by simpa using member)
  · simpa using wf.distinct
  · exact fun c e member => wf.real c e (fewer member)
  · rw [preds_removeEdge, wf.entry]
    simp
  · intro c e member exceptional
    rw [instrs_removeEdge, instrs_removeEdge]
    exact wf.guarded c e (fewer member) exceptional

/-- A block at one end of an edge is not removed. -/
theorem source_live (wf : g.WellFormed) (edge : b ∈ g.succIds a) : (g.block a).removed = false := by
  by_contra gone
  rw [(wf.bare a (by simpa using gone)).2.1] at edge
  cases edge

theorem target_live (wf : g.WellFormed) (edge : b ∈ g.succIds a) : (g.block b).removed = false := by
  by_contra gone
  have back := (wf.symm a b).mp edge
  rw [(wf.bare b (by simpa using gone)).2.2] at back
  cases back

theorem target_ne_enter (wf : g.WellFormed) (edge : b ∈ g.succIds a) : b ≠ enter := by
  rintro rfl
  have back := (wf.symm a enter).mp edge
  rw [wf.entry] at back
  cases back

end WellFormed

end FlowGraph

end ScriptFlow
