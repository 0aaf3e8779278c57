import ScriptFlow.FlowGraph.Calls
import ScriptFlow.Proofs.Digraph.Paths
import ScriptFlow.Proofs.FlowGraph.Prune

/-! Calls of `super` that no way to a return gets around. -/

namespace ScriptFlow.FlowGraph

variable {g : FlowGraph} {a b : BlockId} {path : List BlockId}

/-- An edge that is there not for the shape of the graph only. -/
def RealEdge (g : FlowGraph) (a b : BlockId) : Prop :=
  ∃ f, (b, f) ∈ (g.block a).succs ∧ f.fake = false

/-- A path over real edges, given by the blocks it passes. -/
structure RealPath (g : FlowGraph) (a b : BlockId) (path : List BlockId) : Prop where
  chain : path.IsChain g.RealEdge
  first : path.head? = some a
  last : path.getLast? = some b

/-- The block holds a call of `super` with a record of how often it raises. -/
def CallsSuper (g : FlowGraph) (b : BlockId) : Prop :=
  ∃ i ∈ (g.block b).instrs, ∃ s, g.instr i = .call s ∧ s.kind.isSuper = true ∧ s.frequency.isSome = true

theorem isSuperCall_iff {i : InstrId} : g.isSuperCall i = true ↔
    ∃ s, g.instr i = .call s ∧ s.kind.isSuper = true ∧ s.frequency.isSome = true := by
  rw [isSuperCall]
  cases g.instr i <;> simp [Instr.site?]

/-! Real paths are the paths of the graph without its fake edges. -/

theorem mem_successors_real : b ∈ (g.view .real).successors a ↔ g.RealEdge a b := by
  simp [mem_successors_view, RealEdge, EdgeFilter.accepts, EdgeFlags.isReal]

/-- Edges join blocks of the graph, so a path that takes one passes no others. -/
theorem Linked.inside_of_chain (linked : g.Linked) (chain : path.IsChain g.RealEdge)
    (long : 1 < path.length) : ∀ v ∈ path, v < g.blocks.size := by
  have ends {a b : BlockId} (edge : g.RealEdge a b) : a < g.blocks.size ∧ b < g.blocks.size := by
    obtain ⟨f, listed, -⟩ := edge
    have listed := g.mem_succIds.mpr ⟨f, listed⟩
    exact ⟨Linked.source_inside a b listed, linked.target_inside listed⟩
  induction path with
  | nil => exact nofun
  | cons a path ih =>
    cases path with
    | nil => exact absurd long (Nat.lt_irrefl 1)
    | cons b path =>
      rw [List.isChain_cons_cons] at chain
      obtain ⟨source, target⟩ := ends chain.1
      intro v member
      rcases List.mem_cons.mp member with rfl | later
      · exact source
      · cases path with
        | nil => exact List.mem_singleton.mp later ▸ target
        | cons c path => exact ih chain.2 (by simp) v later

theorem Linked.realPath_iff (linked : g.Linked) (apart : a ≠ b) :
    g.RealPath a b path ↔ (g.view .real).IsPath a b path := by
  have edges : (fun v w => w ∈ (g.view .real).successors v) = g.RealEdge :=
    funext fun v => funext fun w => propext mem_successors_real
  constructor
  · rintro ⟨chain, first, last⟩
    refine ⟨edges ▸ chain, ?_, first, last⟩
    rw [size_view]
    apply linked.inside_of_chain chain
    cases path with
    | nil => cases first
    | cons v path =>
      cases path with
      | nil =>
        obtain rfl : v = a := by simpa using first
        obtain rfl : v = b := by simpa using last
        exact absurd rfl apart
      | cons w path => simp
  · rintro ⟨chain, -, first, last⟩
    exact ⟨edges ▸ chain, first, last⟩

/-- A call of `super` is guaranteed exactly if the return can be reached and some one block with such
a call lies on all the ways there. -/
theorem guaranteesSuper_iff (linked : g.Linked) :
    g.guaranteesSuper = true ↔
      (∃ path, g.RealPath enter returnBlock path) ∧
        ∃ b, g.CallsSuper b ∧ ∀ path, g.RealPath enter returnBlock path → b ∈ path := by
  simp only [linked.realPath_iff (show enter ≠ returnBlock by decide)]
  simp only [guaranteesSuper, Bool.and_eq_true, List.any_eq_true, isSuperCall_iff]
  by_cases inside : enter < (g.view .real).size
  · have rooted : (g.view .real).Rooted enter := ⟨inside, linked.view_symm⟩
    rw [Digraph.isReached_iff inside, ← Digraph.reached_iff_path]
    refine and_congr_right fun reached => exists_congr fun b => ?_
    rw [Digraph.mem_chain_iff rooted reached, Digraph.dominates_iff_onEveryPath, and_comm]
    rfl
  · -- a graph without blocks
    have unreached : ((g.view .real).dominators enter).isReached returnBlock = false :=
      Bool.eq_false_iff.mpr fun reached =>
        inside (Nat.zero_lt_of_lt ((Digraph.getD_markAll ..).mp reached).2)
    have no_path : ¬∃ path, (g.view .real).IsPath enter returnBlock path :=
      fun ⟨path, is_path⟩ => inside (is_path.inside enter (List.mem_of_mem_head? is_path.first))
    simp only [unreached, Bool.false_eq_true, no_path, false_and]

/-- A `super` call in front of two ways to the return, beside a fake way around it. -/
def superFirst : FlowGraph :=
  let g := (ofScope .topLevel).pushBlock "Call"
  let g := (g.2.pushBlock "Left").2
  let g := (g.addEdge enter 6 .none).addEdge enter returnBlock { EdgeFlags.none with fake := true }
  let g := (g.addEdge 6 7 .none).addEdge 6 returnBlock .none
  let g := g.addEdge 7 returnBlock .none
  g.pushInstr 6 (.call { CallSite.plain ⟨true, false⟩ none .nil "run" with frequency := some .maybe })

theorem guaranteesSuper_superFirst :
    superFirst.Linked ∧ (∃ path, superFirst.RealPath enter returnBlock path) ∧
      ∃ b, superFirst.CallsSuper b ∧
        ∀ path, superFirst.RealPath enter returnBlock path → b ∈ path := by
  have linked : superFirst.Linked :=
    linked_of_below (by decide +kernel) (by decide +kernel) (by decide +kernel)
  exact ⟨linked, (guaranteesSuper_iff linked).mp (by decide +kernel)⟩

end ScriptFlow.FlowGraph
