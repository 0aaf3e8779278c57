import Mathlib.Data.List.Count
import ScriptFlow.Proofs.FlowGraph.Copies
import ScriptFlow.Proofs.Lowering.Registers
import ScriptFlow.Proofs.SingleAssignment.Names

/-! The graph that conversion ends with is a copy of the renamed one, and it passes the check. -/

namespace ScriptFlow

/-- The graph after conversion, whether it passes the check or not. -/
def FlowGraph.converted (g : FlowGraph) : FlowGraph :=
  match g.toSingleAssignment with
  | .ok _ h => h
  | .error _ h => h

namespace SingleAssignment

open FlowGraph

variable {v b : Nat}

/-! The check. -/

theorem getD_foldl_count (vs : List Nat) (counts : Array Nat) (inside : v < counts.size) :
    (vs.foldl (fun a v => a.modify v (· + 1)) counts).getD v 0 = counts.getD v 0 + vs.count v := by
  induction vs generalizing counts with
  | nil => simp
  | cons u vs ih =>
    rw [List.foldl_cons, ih _ (by simpa using inside), List.count_cons]
    simp only [Array.getD_eq_getD_getElem?, Array.getElem?_modify, inside, Array.getElem?_eq_getElem]
    by_cases same : u = v
    · simp [same]
      omega
    · simp [same]

theorem definitionCounts_eq (g : FlowGraph) (inside : v < g.bindings.size) :
    (definitionCounts g).getD v 0 = g.allInstrs.countP fun i => (g.instr i).target? == some v := by
  have none : (Array.replicate g.bindings.size 0).getD v 0 = 0 := by
    simp [Array.getD_eq_getD_getElem?, inside]
  rw [definitionCounts, getD_foldl_count _ _ (by simpa using inside), none, Nat.zero_add, List.count,
    List.countP_filterMap]
  refine List.countP_congr fun i _ => ?_
  cases (g.instr i).target? <;> simp

/-- A graph in which every binding is defined once passes the check. -/
theorem verify_of_definedOnce {g : FlowGraph} (closed : g.Closed)
    (once : ∀ v : Nat, v < g.bindings.size →
      ∃! i : Nat, i ∈ g.allInstrs ∧ (g.instr i).target? = some v) : verify g = .ok () := by
  have count (v : Nat) (inside : v < g.bindings.size) : (definitionCounts g).getD v 0 = 1 := by
    obtain ⟨i, ⟨member, target⟩, unique⟩ := once v inside
    have same : g.allInstrs.countP (fun i => (g.instr i).target? == some v) = g.allInstrs.count i :=
      List.countP_congr fun j j_member => by
        simp only [beq_iff_eq]
        exact ⟨fun j_target => unique j ⟨j_member, j_target⟩, fun is => is ▸ target⟩
    rw [definitionCounts_eq g inside, same, List.count_eq_one_of_mem closed.distinct_allInstrs member]
  have bindings : ∀ v ∈ g.bindingIds, v < g.bindings.size := fun v member => by
    simpa [bindingIds] using member
  have many : (g.bindingIds.find? fun v => 1 < (definitionCounts g).getD v 0) = none := by
    refine List.find?_eq_none.mpr fun v member => ?_
    simp [count v (bindings v member)]
  have undefined : (g.bindingIds.find? fun v => (definitionCounts g).getD v 0 == 0) = none := by
    refine List.find?_eq_none.mpr fun v member => ?_
    simp [count v (bindings v member)]
  have unread : ((g.allInstrs.flatMap fun i => (g.instr i).operands).find?
      fun v => (definitionCounts g).getD v 0 == 0) = none := by
    refine List.find?_eq_none.mpr fun v member => ?_
    obtain ⟨i, in_all, operand⟩ := List.mem_flatMap.mp member
    obtain ⟨b, _, in_b⟩ := g.mem_allInstrs.mp in_all
    simp [count v ((closed.inScope b i in_b).operands v operand)]
  simp only [verify, many, undefined, unread]

/-! The renamed graph with its registers. -/

/-- The renamed graph before it is numbered afresh. -/
def finished (r : Renaming) : FlowGraph :=
  { (renameRegisters r).rebuildUses with isSingle := true, live := .empty }

section Finished

variable (r : Renaming)

theorem blocks_finished : (finished r).blocks = r.graph.blocks :=
  (sameShape_rebuildUses (renameRegisters r)).blocks

theorem instrs_finished : (finished r).instrs = r.graph.instrs :=
  (sameShape_rebuildUses (renameRegisters r)).instrs

theorem bindings_size_finished : (finished r).bindings.size = r.graph.bindings.size :=
  (sameShape_rebuildUses (renameRegisters r)).size

theorem allInstrs_finished : (finished r).allInstrs = r.graph.allInstrs := by
  have blocks := blocks_finished r
  simp only [allInstrs, liveBlocks, blocks, block_congr blocks]

/-- The name that a register or formal goes by. -/
def firstName (v : BindingId) : BindingId := (r.firsts.getD v none).getD v

theorem ids_finished : (finished r).header.ids = r.graph.header.ids.map (firstName r) := by
  have first : (fun v => (r.firsts.getD v none).getD v) = firstName r := rfl
  change (renameRegisters r).rebuildUses.header.ids = _
  rw [(sameShape_rebuildUses (renameRegisters r)).header]
  simp only [header, renameRegisters, Header.ids, first, List.map_append, List.map_map,
    Option.toList_map]
  rfl

theorem constants_finished : (finished r).constants = r.graph.constants :=
  congrArg Header.constants (sameShape_rebuildUses (renameRegisters r)).header

end Finished

namespace Conversion

variable {g : FlowGraph} {base r : Renaming} {phis : Nat → List InstrId} {start : Nat → Names}
  (conversion : Conversion g base r phis start)
include conversion

theorem block_finished (b : Nat) : (finished r).block b =
    { g.block b with instrs := phis b ++ (g.block b).instrs ++ fallbacks base r b } := by
  rw [block_congr (blocks_finished r), conversion.block_eq]

theorem liveBlocks_finished : (finished r).liveBlocks = g.liveBlocks := by
  rw [← conversion.liveBlocks_eq]
  simp only [liveBlocks, blocks_finished, block_congr (blocks_finished r)]

/-- Phis stand in blocks that are reached. -/
theorem reached_of_phi (some_phi : phis b ≠ []) : (g.view .all).Reached enter b := by
  obtain ⟨i, member⟩ := List.exists_mem_of_ne_nil _ some_phi
  obtain ⟨v, _, origin, _⟩ := conversion.merged.origin b i member
  exact Digraph.reached_of_mem_iterated conversion.rooted
    (conversion.wanted v b ⟨i, member, origin⟩).2

theorem placed_renamed {i : Nat} (member : i ∈ (r.graph.block b).instrs) :
    i < r.graph.instrs.size ∧ r.graph.blockOf i = b := by
  have grown := conversion.progress.grown
  rw [conversion.progress.block] at member
  rcases List.mem_append.mp member with old | fallback
  · obtain ⟨inside, place⟩ := conversion.ready.placed b i old
    have inside' := Nat.lt_of_lt_of_le inside grown
    rw [conversion.progress.blockOf i inside', if_pos inside]
    exact ⟨inside', place⟩
  · obtain ⟨rfl, new, inside⟩ := (mem_fallbacks grown).mp fallback
    rw [conversion.progress.blockOf i inside, if_neg (Nat.not_lt.mpr new)]
    exact ⟨inside, rfl⟩

theorem instrs_of_removed (gone : (g.block b).removed = true) : (r.graph.block b).instrs = [] := by
  have later : b ≠ enter := by
    rintro rfl
    rw [conversion.wellFormed.kept enter rfl] at gone
    cases gone
  have no_phis : phis b = [] := by
    by_contra some_phi
    rw [live_of_reached conversion.wellFormed (conversion.reached_of_phi some_phi)] at gone
    cases gone
  rw [conversion.block_eq, no_phis, (conversion.wellFormed.bare b gone).1, fallbacks, if_neg later]
  rfl

theorem live_of_mem {i : Nat} (member : i ∈ (r.graph.block b).instrs) : b ∈ g.liveBlocks := by
  have inside : b < g.blocks.size := by
    rw [← conversion.merged.size, ← conversion.progress.size]
    exact r.graph.inside_of_instrs (List.ne_nil_of_mem member)
  refine g.mem_liveBlocks.mpr ⟨inside, ?_⟩
  by_contra gone
  rw [conversion.instrs_of_removed (by simpa using gone)] at member
  cases member

theorem closed : (finished r).Closed where
  toLinked := conversion.wellFormed.toLinked.of_same
    (fun a => by rw [succIds, conversion.block_finished, succIds])
    fun a => by rw [conversion.block_finished]
  room := by
    rw [blocks_finished, conversion.progress.size, conversion.merged.size]
    exact conversion.wellFormed.room
  kept b special := by
    rw [conversion.block_finished]
    exact conversion.wellFormed.kept b special
  bare b gone := by
    rw [conversion.block_finished] at gone
    have rest := conversion.wellFormed.bare b gone
    rw [succIds, block_congr (blocks_finished r)]
    refine ⟨conversion.instrs_of_removed gone, ?_⟩
    rw [conversion.block_eq]
    exact rest.2
  placed b i member := by
    rw [instrs_finished, blockOf_congr (instrs_finished r)]
    exact conversion.placed_renamed (block_congr (blocks_finished r) b ▸ member)
  distinct b := by
    rw [block_congr (blocks_finished r), conversion.progress.block]
    refine List.nodup_append.mpr ⟨conversion.ready.distinct b, ?_, fun i old j fallback => ?_⟩
    · unfold fallbacks
      split
      · exact List.nodup_range'
      · exact List.nodup_nil
    · have early := (conversion.ready.placed b i old).1
      have late := ((mem_fallbacks conversion.progress.grown).mp fallback).2.1
      exact Nat.ne_of_lt (Nat.lt_of_lt_of_le early late)
  inScope b i member := by
    rw [instr_congr (instrs_finished r), bindings_size_finished]
    rw [block_congr (blocks_finished r)] at member
    have live := conversion.live_of_mem member
    exact ⟨fun v operand => (conversion.new_operand live member operand).2,
      fun n target => conversion.progress.target i n (conversion.placed_renamed member).1 target⟩

/-! What is left of the bindings are the new names, and each of them is defined once. -/

/-- A register that is written has a name. -/
theorem new_firstName (live : (g.block b).removed = false) (written : g.WrittenIn v b) :
    base.graph.bindings.size ≤ firstName r v := by
  obtain ⟨i, inside, member, target⟩ := written
  have old : i ∈ (base.graph.block b).instrs := by
    rw [conversion.instrs_base]
    exact List.mem_append_right _ member
  have b_live : b ∈ g.liveBlocks :=
    g.mem_liveBlocks.mpr ⟨g.inside_of_instrs (List.ne_nil_of_mem member), live⟩
  have source : (base.graph.instr i).target? = some v := by
    rw [conversion.merged.instr i inside, target]
  obtain ⟨before, after, split⟩ := List.append_of_mem old
  obtain ⟨n, renamed, new⟩ := ((conversion.walked.done b
    (conversion.visited b_live)).renames.renamed split).defines v source
  have named := conversion.progress.named i v n (conversion.ready.placed b i old).1 source renamed new
  obtain ⟨m, first⟩ := Option.isSome_iff_exists.mp named
  rw [firstName, first]
  exact (conversion.progress.first v m first).1

theorem new_of_kept (prepared : g.Prepared) (kept : v ∈ (finished r).keptBindings) :
    base.graph.bindings.size ≤ v ∧ v < r.graph.bindings.size := by
  obtain ⟨inside, referred⟩ := (finished r).mem_keptBindings.mp kept
  rw [bindings_size_finished] at inside
  refine ⟨?_, inside⟩
  have header := conversion.progress.header.trans conversion.merged.header
  have constants : (finished r).constants = .empty :=
    (constants_finished r).trans ((congrArg Header.constants header).trans prepared.constants)
  rcases (finished r).mem_referenced.mp referred with ⟨i, member, mentioned⟩ | register | none | none
  · rw [conversion.closed.keptInstrs_eq, allInstrs_finished] at member
    obtain ⟨b, live, in_b⟩ := r.graph.mem_allInstrs.mp member
    rw [conversion.liveBlocks_eq] at live
    rw [instr_congr (instrs_finished r)] at mentioned
    exact mentioned.elim (fun operand => (conversion.new_operand live in_b operand).1)
      (conversion.new_target live in_b)
  · rw [ids_finished, header] at register
    obtain ⟨u, member, rfl⟩ := List.mem_map.mp register
    obtain ⟨b, live, written⟩ := prepared.written u member
    exact conversion.new_firstName live written
  · rw [constants] at none
    cases none
  · cases none

theorem definedOnce_of_kept (prepared : g.Prepared) (kept : v ∈ (finished r).keptBindings) :
    ∃! i : Nat, i ∈ (finished r).allInstrs ∧ ((finished r).instr i).target? = some v := by
  obtain ⟨new, small⟩ := conversion.new_of_kept prepared kept
  simp only [allInstrs_finished, instr_congr (instrs_finished r)]
  exact conversion.defined_once new small

theorem definedOnce_copy (prepared : g.Prepared) {h : FlowGraph} {β ι ν : Nat → Nat}
    (copies : Copies (finished r) h β ι ν) (inside : v < h.bindings.size) :
    ∃! i : Nat, i ∈ h.allInstrs ∧ (h.instr i).target? = some v := by
  obtain ⟨u, kept, rfl⟩ := copies.binding_onto v inside
  exact copies.definedOnce_copy conversion.closed kept (conversion.definedOnce_of_kept prepared kept)

end Conversion

end SingleAssignment

namespace FlowGraph

open SingleAssignment

/-- A well-formed graph that is prepared is converted to a copy of its renamed form. -/
theorem exists_converted {g : FlowGraph} (wf : g.WellFormed) (prepared : g.Prepared) :
    ∃ base r phis start h β ι ν, Conversion g base r phis start ∧ Copies (finished r) h β ι ν ∧
      g.toSingleAssignment = .ok () h.annotateLiveness := by
  obtain ⟨phis, start, conversion⟩ := exists_conversion wf
  have copies := conversion.closed.duplicate_copies
  refine ⟨_, _, phis, start, _, _, _, _, conversion, copies, ?_⟩
  have passes := verify_of_definedOnce (copies.closed_copy conversion.closed)
    fun v inside => conversion.definedOnce_copy prepared copies inside
  have same : g.singleAssignment = (finished (renameAll ((g.view .all).dominators enter)
    (placePhis g ((g.view .all).dominators enter) g.liveness))).duplicate := rfl
  unfold toSingleAssignment
  rw [prepared.isSingle, if_neg Bool.false_ne_true]
  simp only [same, passes]

end FlowGraph

end ScriptFlow
