import ScriptFlow.Proofs.FlowGraph.Trim
import ScriptFlow.Proofs.SingleAssignment.Conversion

/-! Names and the instructions that define them. A name in force at a block is defined in the block or
in one that dominates it. -/

namespace ScriptFlow

namespace SingleAssignment

open FlowGraph

variable {v n i b : Nat}

/-- A name that is read was made while renaming. -/
theorem new_of_lookup {base r : Renaming} {names : Names} (progress : Progress base r)
    (sourced : Sourced base r names) (found : lookup? r names v = some n) :
    base.graph.bindings.size ≤ n ∧ n < r.graph.bindings.size := by
  unfold lookup? at found
  split at found
  · rename_i m in_force
    cases Option.some.inj found
    obtain ⟨new, i, inside, _, target⟩ := sourced v n (mem_of_lookup in_force)
    exact ⟨new, progress.target i n (Nat.lt_of_lt_of_le inside progress.grown) target⟩
  · exact ⟨(progress.marked v n found).1, (progress.marked v n found).2.1⟩

theorem lookup_of_found {r : Renaming} {names : Names}
    (found : (lookup? r names v).isSome = true) : lookup? r names v = some (nameOf r names v) := by
  obtain ⟨n, is⟩ := Option.isSome_iff_exists.mp found
  rw [nameOf, is]
  rfl

/-- An operand of a renamed instruction is a name in force. -/
theorem Renamed.lookup_operand {base r : Renaming} {names : Names}
    (renamed : Renamed base r names i) (plain : (base.graph.instr i).isPhi = false)
    (member : n ∈ (r.graph.instr i).operands) : ∃ v, lookup? r names v = some n := by
  obtain ⟨f, shape⟩ := renamed.reads plain
  have still : (r.graph.instr i).isPhi = false := by simp [shape, plain]
  rw [Instr.mem_operands_of_plain still, shape, Instr.slots_mapTarget, Instr.slots_mapSlots] at member
  obtain ⟨o, slot, same⟩ := List.mem_map.mp member
  cases o with
  | const c => cases same
  | binding v =>
    cases Operand.binding.inj same
    exact ⟨v, lookup_of_found
      (renamed.found plain v ((Instr.mem_operands_of_plain plain).mpr slot))⟩

namespace Conversion

variable {g : FlowGraph} {base r : Renaming} {phis : Nat → List InstrId} {start : Nat → Names}
  (conversion : Conversion g base r phis start)
include conversion

theorem block_eq (b : Nat) : r.graph.block b =
    { g.block b with instrs := phis b ++ (g.block b).instrs ++ fallbacks base r b } := by
  rw [conversion.progress.block, conversion.merged.block]

theorem liveBlocks_eq : r.graph.liveBlocks = g.liveBlocks := by
  rw [liveBlocks, liveBlocks, conversion.progress.size, conversion.merged.size]
  exact List.filter_congr fun b _ => by rw [conversion.block_eq]

theorem visited (live : b ∈ g.liveBlocks) :
    (g.view .all).Reached enter b ∨
      b < base.graph.blocks.size ∧ (base.graph.block b).removed = false := by
  rw [conversion.merged.size, conversion.merged.block]
  exact .inr (g.mem_liveBlocks.mp live)

theorem live_of_visited (visited : (g.view .all).Reached enter b ∨
    b < base.graph.blocks.size ∧ (base.graph.block b).removed = false) : b ∈ g.liveBlocks := by
  rw [conversion.merged.size, conversion.merged.block] at visited
  refine visited.elim (fun reached => ?_) g.mem_liveBlocks.mpr
  refine g.mem_liveBlocks.mpr ⟨?_, live_of_reached conversion.wellFormed reached⟩
  have inside := reached.holds
  rw [size_view] at inside
  exact inside

/-- An instruction with a new target stands in a block that is left. -/
theorem mem_allInstrs_of_new (inside : i < r.graph.instrs.size)
    (new : base.graph.bindings.size ≤ n) (target : (r.graph.instr i).target? = some n) :
    i ∈ r.graph.allInstrs := by
  by_cases old : i < base.graph.instrs.size
  · have touched : ∃ b, ((g.view .all).Reached enter b ∨
        b < base.graph.blocks.size ∧ (base.graph.block b).removed = false) ∧
        i ∈ (base.graph.block b).instrs := by
      by_contra away
      rw [conversion.walked.total.target? old away] at target
      exact absurd ((conversion.ready.within i old).target n target) (Nat.not_lt.mpr new)
    obtain ⟨b, visited, member⟩ := touched
    refine r.graph.mem_allInstrs.mpr ⟨b, ?_, ?_⟩
    · rw [conversion.liveBlocks_eq]
      exact conversion.live_of_visited visited
    · rw [conversion.progress.block]
      exact List.mem_append_left _ member
  · refine r.graph.mem_allInstrs.mpr ⟨enter, ?_, ?_⟩
    · rw [conversion.liveBlocks_eq]
      exact conversion.live_of_visited (.inl (.start conversion.inside))
    · rw [conversion.progress.block]
      refine List.mem_append_right _ ?_
      exact (mem_fallbacks conversion.progress.grown).mpr ⟨rfl, Nat.le_of_not_lt old, inside⟩

/-- A new name has exactly one definition. -/
theorem defined_once (new : base.graph.bindings.size ≤ n) (small : n < r.graph.bindings.size) :
    ∃! i : Nat, i ∈ r.graph.allInstrs ∧ (r.graph.instr i).target? = some n := by
  obtain ⟨i, inside, target⟩ := conversion.progress.owned n new small
  refine ⟨i, ⟨conversion.mem_allInstrs_of_new inside new target, target⟩, fun j ⟨member, same⟩ => ?_⟩
  obtain ⟨b, _, in_b⟩ := r.graph.mem_allInstrs.mp member
  refine conversion.progress.unique j i n ?_ inside new same target
  rw [conversion.progress.block] at in_b
  rcases List.mem_append.mp in_b with old | fallback
  · exact Nat.lt_of_lt_of_le (conversion.ready.placed b j old).1 conversion.progress.grown
  · exact ((mem_fallbacks conversion.progress.grown).mp fallback).2.2

/-- What is nil from the start is set in the first block. -/
theorem writes_of_uninitialized (entry : r.uninitialized.getD v none = some n) :
    r.graph.Writes n (r.graph.block enter).instrs := by
  obtain ⟨new, small, mark⟩ := conversion.progress.marked v n entry
  obtain ⟨i, inside, target⟩ := conversion.progress.owned n new small
  refine ⟨i, ?_, target⟩
  rw [conversion.progress.block]
  refine List.mem_append_right _ ((mem_fallbacks conversion.progress.grown).mpr ⟨rfl, ?_, inside⟩)
  by_contra old
  have := conversion.progress.initialized i n (Nat.lt_of_not_le old) target new
  rw [mark] at this
  cases this

theorem writes_block (writes : r.graph.Writes n (base.graph.block b).instrs) :
    r.graph.Writes n (r.graph.block b).instrs := by
  obtain ⟨i, member, target⟩ := writes
  exact ⟨i, by rw [conversion.progress.block]; exact List.mem_append_left _ member, target⟩

/-- A name in force after some instructions of a block is defined by one of them, or above the
block. -/
theorem writes_of_lookup {is : List InstrId}
    (reached : (g.view .all).Reached enter b) (renames : Renames base r (start b) is)
    (found : (namesAfter base r (start b) is).lookup v = some n) :
    r.graph.Writes n is ∨ ∃ d, (g.view .all).StrictlyDominates enter d b ∧
      r.graph.Writes n (r.graph.block d).instrs := by
  have rooted := conversion.rooted
  induction rank : (g.view .all).rank enter b using Nat.strongRecOn generalizing b is with
  | ind k ih =>
    rcases lookup_namesAfter renames v with ⟨i, member, _, same⟩ | ⟨_, same⟩
    · exact .inl ⟨i, member, same.symm.trans found⟩
    rw [same] at found
    refine .inr ?_
    cases parent : ((g.view .all).dominators enter).parent? b with
    | none =>
      rw [conversion.walked.root b (.inl reached) parent] at found
      cases found
    | some p =>
      rw [(conversion.walked.parent b p (.inl reached) parent).2] at found
      have above := (Digraph.parent_closest rooted parent).2.1
      have p_reached := Digraph.reached_parent rooted parent
      rcases ih _ (rank ▸ Digraph.rank_parent_lt rooted parent) p_reached
        (conversion.done p_reached).renames found rfl with here | ⟨d, dominates, defined⟩
      · exact ⟨p, above, conversion.writes_block here⟩
      · exact ⟨d, dominates.trans rooted.inside above reached, defined⟩

/-- What comes before an instruction of the program was there before names were set to nil. -/
theorem split_base {before after : List InstrId}
    (split : (r.graph.block b).instrs = before ++ i :: after) (body : i ∉ fallbacks base r b) :
    ∃ rest, (base.graph.block b).instrs = before ++ i :: rest := by
  rw [conversion.progress.block] at split
  rcases List.append_eq_append_iff.mp split with ⟨tail, _, end_split⟩ | ⟨tail, split', end_split⟩
  · exact absurd (by simp [end_split]) body
  · cases tail with
    | nil =>
      rw [List.nil_append] at end_split
      exact absurd (by simp [← end_split]) body
    | cons j tail =>
      obtain ⟨rfl, -⟩ := List.cons.inj end_split
      exact ⟨tail, split'⟩

theorem no_operands_of_fallback (member : i ∈ fallbacks base r b) :
    (r.graph.instr i).operands = [] := by
  obtain ⟨_, new, inside⟩ := (mem_fallbacks conversion.progress.grown).mp member
  obtain ⟨v, n, shape, _⟩ := conversion.progress.fallback i new inside
  rw [shape]
  rfl

theorem isPhi_iff (member : i ∈ (base.graph.block b).instrs) :
    (r.graph.instr i).isPhi = true ↔ i ∈ phis b := by
  rw [conversion.walked.total.isPhi i (conversion.ready.placed b i member).1]
  rw [conversion.instrs_base] at member
  constructor
  · intro phi
    refine (List.mem_append.mp member).resolve_right fun old => ?_
    rw [conversion.merged.isPhi_old conversion.wellFormed old] at phi
    cases phi
  · exact conversion.merged.isPhi_of_mem

/-- What an instruction reads is defined before it in its block, or above. -/
theorem writes_before_read (bare : (g.block enter).instrs = [])
    {before after : List InstrId} (reached : (g.view .all).Reached enter b)
    (split : (r.graph.block b).instrs = before ++ i :: after)
    (plain : (r.graph.instr i).isPhi = false) (operand : n ∈ (r.graph.instr i).operands) :
    r.graph.Writes n before ∨ ∃ d, (g.view .all).StrictlyDominates enter d b ∧
      r.graph.Writes n (r.graph.block d).instrs := by
  have body : i ∉ fallbacks base r b := fun fallback => by
    rw [conversion.no_operands_of_fallback fallback] at operand
    cases operand
  obtain ⟨rest, split'⟩ := conversion.split_base split body
  have member : i ∈ (base.graph.block b).instrs := by simp [split']
  have base_plain : (base.graph.instr i).isPhi = false := by
    rw [← conversion.walked.total.isPhi i (conversion.ready.placed b i member).1]
    exact plain
  have renames := (conversion.done reached).renames
  obtain ⟨v, found⟩ := (renames.renamed split').lookup_operand base_plain operand
  unfold lookup? at found
  split at found
  · rename_i m in_force
    cases Option.some.inj found
    rw [split', renames_append] at renames
    exact conversion.writes_of_lookup reached renames.1 in_force
  · -- the first block has no instructions of the program, so this is another one
    refine .inr ⟨enter, Digraph.strictlyDominates_of_entry ?_,
      conversion.writes_of_uninitialized found⟩
    rintro rfl
    have not_phi : i ∉ phis enter := fun phi => by
      rw [(conversion.isPhi_iff member).mpr phi] at plain
      cases plain
    rw [conversion.instrs_base, bare, List.append_nil] at member
    exact not_phi member

theorem keys_phi {t : Nat} {os : List (BlockId × BindingId)} (member : i ∈ phis b)
    (shape : r.graph.instr i = .phi t os) :
    os.map (·.1) = (g.block b).preds.filter ((g.view .all).dominators enter).isReached := by
  obtain ⟨_, _, _, _, _, shape', keys, _⟩ := conversion.phi_spec member
  rw [shape] at shape'
  rw [(Instr.phi.inj shape').2, keys]

/-- What a phi reads on an edge is a name in force at the end of the block that the edge leaves. -/
theorem lookup_phi {c t p : Nat} {os : List (BlockId × BindingId)} (member : i ∈ phis c)
    (shape : r.graph.instr i = .phi t os) (operand : (p, n) ∈ os) :
    (g.view .all).Reached enter p ∧ ∃ v, lookup? r (endNames base r start p) v = some n := by
  obtain ⟨v, t', os', _, _, shape', keys, reads⟩ := conversion.phi_spec member
  rw [shape] at shape'
  obtain ⟨rfl, rfl⟩ := Instr.phi.inj shape'
  have key : p ∈ os.map (·.1) := List.mem_map_of_mem operand
  rw [keys, List.mem_filter] at key
  have reached := (Digraph.isReached_iff conversion.inside).mp key.2
  obtain ⟨found, read⟩ := reads p key.1 reached
  have distinct : (os.map (·.1)).Nodup := by
    rw [keys]
    exact (conversion.wellFormed.preds_distinct c).filter _
  rw [lookup_of_mem distinct operand] at read
  exact ⟨reached, v, Option.some.inj read ▸ lookup_of_found found⟩

/-- A name in force at the end of a block is defined in a block that dominates it. -/
theorem writes_at_end (reached : (g.view .all).Reached enter b)
    (found : lookup? r (endNames base r start b) v = some n) :
    ∃ d, (g.view .all).Dominates enter d b ∧ r.graph.Writes n (r.graph.block d).instrs := by
  unfold lookup? at found
  split at found
  · rename_i m in_force
    cases Option.some.inj found
    rcases conversion.writes_of_lookup reached (conversion.done reached).renames in_force with
      here | ⟨d, dominates, defined⟩
    · exact ⟨b, .inl rfl, conversion.writes_block here⟩
    · exact ⟨d, .inr dominates, defined⟩
  · refine ⟨enter, ?_, conversion.writes_of_uninitialized found⟩
    by_cases first : b = enter
    · exact .inl first.symm
    · exact .inr (Digraph.strictlyDominates_of_entry first)

/-! Everything that is left has a new name. -/

theorem new_target (live : b ∈ g.liveBlocks) (member : i ∈ (r.graph.block b).instrs)
    (target : (r.graph.instr i).target? = some n) : base.graph.bindings.size ≤ n := by
  rw [conversion.progress.block] at member
  rcases List.mem_append.mp member with old | fallback
  · obtain ⟨before, after, split⟩ := List.append_of_mem old
    have renamed :=
      (conversion.walked.done b (conversion.visited live)).renames.renamed split
    cases source : (base.graph.instr i).target? with
    | some v =>
      obtain ⟨m, target', new⟩ := renamed.defines v source
      rw [target] at target'
      exact Option.some.inj target' ▸ new
    | none =>
      have plain : (base.graph.instr i).isPhi = false := by
        cases shape : base.graph.instr i with
        | phi t os =>
          rw [shape] at source
          cases source
        | _ => rfl
      obtain ⟨f, shape⟩ := renamed.reads plain
      rw [shape, Instr.target?_mapTarget, Instr.target?_mapSlots, source] at target
      cases target
  · obtain ⟨_, new, inside⟩ := (mem_fallbacks conversion.progress.grown).mp fallback
    obtain ⟨v, m, shape, entry⟩ := conversion.progress.fallback i new inside
    rw [shape] at target
    cases Option.some.inj target
    exact (conversion.progress.marked v n entry).1

theorem new_operand (live : b ∈ g.liveBlocks) (member : i ∈ (r.graph.block b).instrs)
    (operand : n ∈ (r.graph.instr i).operands) :
    base.graph.bindings.size ≤ n ∧ n < r.graph.bindings.size := by
  rw [conversion.progress.block] at member
  rcases List.mem_append.mp member with old | fallback
  · cases phi : (r.graph.instr i).isPhi with
    | true =>
      obtain ⟨t, os, shape⟩ := Instr.eq_phi phi
      rw [shape] at operand
      obtain ⟨o, pair, rfl⟩ := List.mem_map.mp operand
      obtain ⟨reached, v, found⟩ :=
        conversion.lookup_phi ((conversion.isPhi_iff old).mp phi) shape pair
      have done := conversion.done reached
      exact new_of_lookup conversion.progress (done.renames.sourced_after
        (fun i member => (conversion.ready.placed _ i member).1) done.sourced) found
    | false =>
      obtain ⟨before, after, split⟩ := List.append_of_mem old
      have inside : ∀ j : Nat, j ∈ (base.graph.block b).instrs → j < base.graph.instrs.size :=
        fun j member => (conversion.ready.placed b j member).1
      have done := conversion.walked.done b (conversion.visited live)
      have plain : (base.graph.instr i).isPhi = false := by
        rw [← conversion.walked.total.isPhi i (inside i old)]
        exact phi
      obtain ⟨v, found⟩ := (done.renames.renamed split).lookup_operand plain operand
      have renames := done.renames
      rw [split, renames_append] at renames
      refine new_of_lookup conversion.progress (renames.1.sourced_after (fun j member => ?_)
        done.sourced) found
      exact inside j (by simp [split, member])
  · rw [conversion.no_operands_of_fallback fallback] at operand
    cases operand

end Conversion

end SingleAssignment

end ScriptFlow
