import ScriptFlow.Proofs.FlowGraph.Uses
import ScriptFlow.Proofs.SingleAssignment.Converted

/-! What propagation relies on in a converted graph: bindings know the instructions that read them,
each is defined once, all edges are real, and exceptions pass through one empty block at most. -/

namespace ScriptFlow

namespace FlowGraph

structure Operable (g : FlowGraph) : Prop extends g.Closed where
  reads : ∀ b, ∀ i ∈ (g.block b).instrs, ∀ v ∈ (g.instr i).operands, i ∈ (g.binding v).uses
  uses : ∀ v : Nat, ∀ i ∈ (g.binding v).uses, i ∈ (g.block (g.blockOf i)).instrs
  single : ∀ a b, ∀ i ∈ (g.block a).instrs, ∀ j ∈ (g.block b).instrs, ∀ v,
    (g.instr i).target? = some v → (g.instr j).target? = some v → i = j
  real : ∀ a, ∀ e ∈ (g.block a).succs, e.2.fake = false
  guarded : ∀ a, ∀ e ∈ (g.block a).succs, e.2.isException = true →
    (g.block a).instrs ≠ [] ∨ (g.block e.1).instrs ≠ []

/-- The uses of a copied binding are instructions of the copy. -/
theorem Closed.uses_inside_duplicate {g : FlowGraph} (closed : g.Closed) {w j : Nat}
    (used : j ∈ (g.duplicate.binding w).uses) : j < g.duplicate.instrs.size := by
  have size : g.duplicate.instrs.size = g.allInstrs.length := by simp [closed.instrs_duplicate]
  rw [binding, bindings_duplicate, Array.getD_eq_getD_getElem?, List.getElem?_toArray,
    List.getElem?_map] at used
  cases kept : g.keptBindings[w]? with
  | none => simp [kept, default, instInhabitedBinding.default] at used
  | some v =>
    simp only [kept, Option.map_some, Option.getD_some, Renumbering.copyBinding,
      mem_foldl_insertNat, List.not_mem_nil, or_false, List.mem_filterMap] at used
    obtain ⟨i, -, number⟩ := used
    rw [closed.numberedBy_allInstrs] at number
    rw [size]
    exact (List.getElem?_eq_some_iff.mp number).1

theorem Operable.annotateLiveness {g : FlowGraph} (operable : g.Operable) :
    g.annotateLiveness.Operable where
  toClosed := ⟨⟨operable.symm, operable.succs_distinct, operable.preds_distinct⟩, operable.room,
    operable.kept, operable.bare, operable.placed, operable.distinct, operable.inScope⟩
  reads := operable.reads
  uses := operable.uses
  single := operable.single
  real := operable.real
  guarded := operable.guarded

end FlowGraph

namespace SingleAssignment

open FlowGraph

/-- A graph that passes the check defines no binding twice. -/
theorem eq_of_verify {g : FlowGraph} (closed : g.Closed) (passed : verify g = .ok ()) {i j v : Nat}
    (i_in : i ∈ g.allInstrs) (j_in : j ∈ g.allInstrs) (i_target : (g.instr i).target? = some v)
    (j_target : (g.instr j).target? = some v) : i = j := by
  obtain ⟨b, -, in_b⟩ := g.mem_allInstrs.mp i_in
  have inside := (closed.inScope b i in_b).target v i_target
  have few : (definitionCounts g).getD v 0 ≤ 1 := by
    unfold verify at passed
    dsimp only at passed
    split at passed
    · cases passed
    · rename_i none
      have small := List.find?_eq_none.mp none v (by simpa [bindingIds] using inside)
      exact Nat.le_of_not_lt (by simpa using small)
  rw [definitionCounts_eq g inside, List.countP_eq_length_filter] at few
  have both : ∀ k ∈ [i, j], k ∈ g.allInstrs.filter fun k => (g.instr k).target? == some v := by
    simp [i_in, j_in, i_target, j_target]
  generalize g.allInstrs.filter (fun k => (g.instr k).target? == some v) = found at few both
  cases found with
  | nil => exact absurd (both i (by simp)) List.not_mem_nil
  | cons k rest =>
    have alone : rest = [] := List.length_eq_zero_iff.mp (by simpa using few)
    subst alone
    have first : i = k := List.mem_singleton.mp (both i (by simp))
    have second : j = k := List.mem_singleton.mp (both j (by simp))
    rw [first, second]

namespace Conversion

variable {g : FlowGraph} {base r : Renaming} {phis : Nat → List InstrId} {start : Nat → Names}
  (conversion : Conversion g base r phis start)
include conversion

omit conversion in
theorem mem_uses_finished (v i : Nat) :
    i ∈ ((finished r).binding v).uses ↔ i ∈ (finished r).allInstrs ∧
      v ∈ ((finished r).instr i).operands ∧ v < (finished r).bindings.size := by
  have recorded := mem_uses_rebuildUses (renameRegisters r) v i
  rw [allInstrs_finished, instr_congr (instrs_finished r), bindings_size_finished]
  exact recorded

/-- Blocks that are not empty stay so. -/
theorem instrs_finished_ne_nil {b : Nat} (some_instr : (g.block b).instrs ≠ []) :
    ((finished r).block b).instrs ≠ [] := by
  rw [conversion.block_finished]
  simp [some_instr]

theorem operable_duplicate (passed : verify (finished r).duplicate = .ok ()) :
    (finished r).duplicate.Operable := by
  have closed := conversion.closed
  have copies := closed.duplicate_copies
  have closed' := copies.closed_copy closed
  constructor
  · exact closed'
  · intro c j member v operand
    obtain ⟨b, live, rfl, i, in_b, rfl⟩ := copies.exists_instr member
    have in_all := closed.mem_allInstrs_of_mem in_b
    rw [(copies.instr i in_all).2.1, Instr.operands_renumber] at operand
    obtain ⟨u, read, rfl⟩ := List.mem_map.mp operand
    obtain ⟨-, definition, uses, same, used⟩ :=
      copies.binding u (closed.kept_of_reference in_all (.inl read))
    rw [same]
    apply (used i in_all).mpr
    rw [mem_uses_finished]
    exact ⟨in_all, read, (closed.inScope b i in_b).operands u read⟩
  · intro v j used
    obtain ⟨i, in_all, rfl⟩ := copies.instr_onto j (closed.uses_inside_duplicate used)
    obtain ⟨b, live, in_b⟩ := (finished r).mem_allInstrs.mp in_all
    rw [(copies.instr i in_all).2.2, (closed.placed b i in_b).2, copies.block b live]
    exact List.mem_map_of_mem in_b
  · intro a b i i_in j j_in v i_target j_target
    exact eq_of_verify closed' passed (closed'.mem_allInstrs_of_mem i_in)
      (closed'.mem_allInstrs_of_mem j_in) i_target j_target
  · intro c e edge
    obtain ⟨b, live, rfl, same⟩ := copies.exists_block
      (FlowGraph.inside_of_succs _ (List.ne_nil_of_mem edge))
    rw [same, conversion.block_finished] at edge
    obtain ⟨e', edge', rfl⟩ := List.mem_map.mp edge
    exact conversion.wellFormed.real b e' edge'
  · intro c e edge exceptional
    obtain ⟨b, live, rfl, same⟩ := copies.exists_block
      (FlowGraph.inside_of_succs _ (List.ne_nil_of_mem edge))
    rw [same] at edge
    obtain ⟨e', edge', rfl⟩ := List.mem_map.mp edge
    have e_live := closed.target_live (a := b) (b := e'.1) (List.mem_map_of_mem edge')
    rw [copies.block b live, copies.block e'.1 e_live]
    rw [conversion.block_finished] at edge'
    rcases conversion.wellFormed.guarded b e' edge' exceptional with here | there
    · exact .inl (by simpa using conversion.instrs_finished_ne_nil here)
    · exact .inr (by simpa using conversion.instrs_finished_ne_nil there)

end Conversion

end SingleAssignment

namespace FlowGraph

open SingleAssignment

theorem of_toSingleAssignment {g g' : FlowGraph} (converted : g.toSingleAssignment = .ok () g') :
    verify g.singleAssignment = .ok () ∧ g' = g.singleAssignment.annotateLiveness := by
  unfold toSingleAssignment at converted
  generalize g.singleAssignment = h at *
  split at converted
  · cases converted
  · dsimp only at converted
    split at converted
    · rename_i passed
      exact ⟨passed, (EStateM.Result.ok.inj converted).2.symm⟩
    · cases converted

/-- Every well-formed graph that converts is fit for propagation. -/
theorem WellFormed.operable {g g' : FlowGraph} (wf : g.WellFormed)
    (converted : g.toSingleAssignment = .ok () g') : g'.Operable := by
  obtain ⟨phis, start, conversion⟩ := exists_conversion wf
  obtain ⟨passed, same⟩ := of_toSingleAssignment converted
  rw [same]
  exact (conversion.operable_duplicate passed).annotateLiveness

end FlowGraph

end ScriptFlow
