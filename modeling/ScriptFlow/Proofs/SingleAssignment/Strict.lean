import ScriptFlow.Proofs.SingleAssignment.Converted

/-! Single-assignment form is strict: every binding has one definition, and no way leads to a read
without passing the definition first. -/

namespace ScriptFlow

namespace FlowGraph

variable {c j : Nat}

structure Strict (g : FlowGraph) : Prop where
  /-- Every binding is defined by exactly one instruction of a live block. -/
  defined : ∀ v : Nat, v < g.bindings.size →
    ∃! i : Nat, i ∈ g.allInstrs ∧ (g.instr i).target? = some v
  /-- What an instruction reads is defined before it in its block, or in a block that strictly
  dominates the block. -/
  reads : ∀ b, (g.view .all).Reached enter b → ∀ before i after,
    (g.block b).instrs = before ++ i :: after → (g.instr i).isPhi = false →
    ∀ v ∈ (g.instr i).operands, g.Writes v before ∨
      ∃ d, (g.view .all).StrictlyDominates enter d b ∧ g.Writes v (g.block d).instrs
  /-- A phi has one operand for each reached way into its block. -/
  merges : ∀ b, ∀ i ∈ (g.block b).instrs, ∀ t os, g.instr i = .phi t os →
    (os.map (·.1)).Nodup ∧
      ∀ p, p ∈ os.map (·.1) ↔ p ∈ (g.block b).preds ∧ (g.view .all).Reached enter p
  /-- What a phi reads is defined in a block that dominates the one its value comes from. -/
  selects : ∀ b, ∀ i ∈ (g.block b).instrs, ∀ t os, g.instr i = .phi t os → ∀ p v, (p, v) ∈ os →
    ∃ d, (g.view .all).Dominates enter d p ∧ g.Writes v (g.block d).instrs

theorem Strict.annotateLiveness {g : FlowGraph} (strict : g.Strict) : g.annotateLiveness.Strict :=
  ⟨strict.defined, strict.reads, strict.merges, strict.selects⟩

end FlowGraph

namespace SingleAssignment

open FlowGraph

namespace Conversion

variable {g : FlowGraph} {base r : Renaming} {phis : Nat → List InstrId} {start : Nat → Names}
  (conversion : Conversion g base r phis start)
include conversion

theorem reach_finished (ok : Nat → Prop) (b : Nat) :
    ((finished r).view .all).Reach enter ok b ↔ (g.view .all).Reach enter ok b := by
  have succs (b : Nat) : ((finished r).view .all).successors b = (g.view .all).successors b := by
    rw [successors_view, successors_view, succIds, conversion.block_finished]
    rfl
  constructor
  · intro reach
    induction reach with
    | start holds => exact .start holds
    | step _ edge holds ih => exact .step ih (succs _ ▸ edge) holds
  · intro reach
    induction reach with
    | start holds => exact .start holds
    | step _ edge holds ih => exact .step ih ((succs _).symm ▸ edge) holds

theorem size_view_finished : ((finished r).view .all).size = (g.view .all).size := by
  rw [size_view, size_view, blocks_finished, conversion.progress.size, conversion.merged.size]

theorem reached_finished (b : Nat) :
    ((finished r).view .all).Reached enter b ↔ (g.view .all).Reached enter b := by
  rw [Digraph.Reached, conversion.size_view_finished]
  exact conversion.reach_finished _ b

theorem strictlyDominates_finished (d b : Nat) :
    ((finished r).view .all).StrictlyDominates enter d b ↔
      (g.view .all).StrictlyDominates enter d b := by
  rw [Digraph.StrictlyDominates, Digraph.ReachedAvoiding, conversion.size_view_finished]
  exact and_congr_right fun _ => not_congr (conversion.reach_finished _ b)

section Copy

variable {h : FlowGraph} {β ι ν : Nat → Nat} (copies : Copies (finished r) h β ι ν)
include copies

theorem reached_copy {b : Nat} (live : b ∈ g.liveBlocks) :
    (h.view .all).Reached enter (β b) ↔ (g.view .all).Reached enter b := by
  rw [← conversion.liveBlocks_finished] at live
  rw [copies.reached_copy conversion.closed live, conversion.reached_finished]

/-- A reached block of the copy is the copy of a reached block. -/
theorem exists_reached (reached : (h.view .all).Reached enter c) :
    ∃ b ∈ g.liveBlocks, β b = c ∧ (g.view .all).Reached enter b := by
  have inside := reached.holds
  rw [size_view] at inside
  obtain ⟨b, live, rfl⟩ := copies.live_onto c inside
  rw [conversion.liveBlocks_finished] at live
  exact ⟨b, live, rfl, (conversion.reached_copy copies live).mp reached⟩

/-- A definition above a block is copied to one above its copy. -/
theorem writes_copy {v d : Nat} (writes : r.graph.Writes v (r.graph.block d).instrs) :
    h.Writes (ν v) (h.block (β d)).instrs := by
  have live : d ∈ (finished r).liveBlocks := by
    obtain ⟨i, member, _⟩ := writes
    rw [conversion.liveBlocks_finished]
    exact conversion.live_of_mem member
  rw [copies.block d live]
  refine copies.writes_copy conversion.closed
    (fun i member => conversion.closed.mem_allInstrs_of_mem member) ?_
  simpa only [Writes, block_congr (blocks_finished r), instr_congr (instrs_finished r)] using writes

theorem instr_copy {b i : Nat} (member : i ∈ (r.graph.block b).instrs) :
    h.instr (ι i) = (r.graph.instr i).renumber β ν := by
  have in_all : i ∈ (finished r).allInstrs := conversion.closed.mem_allInstrs_of_mem
    (by rw [block_congr (blocks_finished r)]; exact member)
  rw [(copies.instr i in_all).2.1, instr_congr (instrs_finished r)]

theorem instrs_copy {b : Nat} (live : b ∈ g.liveBlocks) :
    (h.block (β b)).instrs = (r.graph.block b).instrs.map ι := by
  rw [← conversion.liveBlocks_finished] at live
  rw [copies.block b live, block_congr (blocks_finished r)]

theorem reads_copy (bare : (g.block enter).instrs = []) {v : Nat} {before after : List InstrId}
    (reached : (h.view .all).Reached enter c) (split : (h.block c).instrs = before ++ j :: after)
    (plain : (h.instr j).isPhi = false) (operand : v ∈ (h.instr j).operands) :
    h.Writes v before ∨
      ∃ d, (h.view .all).StrictlyDominates enter d c ∧ h.Writes v (h.block d).instrs := by
  obtain ⟨b, live, rfl, b_reached⟩ := conversion.exists_reached copies reached
  rw [conversion.instrs_copy copies live] at split
  obtain ⟨before, rest, parts, rfl, rest_eq⟩ := List.map_eq_append_iff.mp split
  obtain ⟨i, after, rfl, rfl, rfl⟩ := List.map_eq_cons_iff.mp rest_eq
  have member : i ∈ (r.graph.block b).instrs := by simp [parts]
  rw [conversion.instr_copy copies member] at plain operand
  rw [Instr.isPhi_renumber] at plain
  rw [Instr.operands_renumber] at operand
  obtain ⟨u, read, rfl⟩ := List.mem_map.mp operand
  rcases conversion.writes_before_read bare b_reached parts plain read with
    here | ⟨d, dominates, above⟩
  · refine .inl (copies.writes_copy conversion.closed (fun k in_before => ?_) ?_)
    · refine conversion.closed.mem_allInstrs_of_mem (b := b) ?_
      rw [block_congr (blocks_finished r), parts]
      exact List.mem_append_left _ in_before
    · simpa only [Writes, instr_congr (instrs_finished r)] using here
  · refine .inr ⟨β d, ?_, conversion.writes_copy copies above⟩
    have d_live := conversion.live_of_visited (.inl (dominates.reached b_reached))
    rw [← conversion.liveBlocks_finished] at live d_live
    rw [copies.strictlyDominates_copy conversion.closed d_live live,
      conversion.strictlyDominates_finished]
    exact dominates

theorem exists_phi_copy {t : Nat} {os : List (BlockId × BindingId)}
    (member : j ∈ (h.block c).instrs) (shape : h.instr j = .phi t os) :
    ∃ b ∈ g.liveBlocks, β b = c ∧ ∃ i ∈ phis b, ∃ t' os', r.graph.instr i = .phi t' os' ∧
      t = ν t' ∧ os = os'.map fun o => (β o.1, ν o.2) := by
  obtain ⟨b, live, rfl, i, in_b, rfl⟩ := copies.exists_instr member
  rw [conversion.liveBlocks_finished] at live
  rw [block_congr (blocks_finished r)] at in_b
  rw [conversion.instr_copy copies in_b] at shape
  have phi : (r.graph.instr i).isPhi = true := by
    rw [← Instr.isPhi_renumber β ν, shape]
    rfl
  obtain ⟨t', os', shape'⟩ := Instr.eq_phi phi
  rw [shape', Instr.renumber_phi] at shape
  refine ⟨b, live, rfl, i, ?_, t', os', shape', (Instr.phi.inj shape).1.symm,
    (Instr.phi.inj shape).2.symm⟩
  rw [conversion.progress.block] at in_b
  refine (List.mem_append.mp in_b).elim (fun old => (conversion.isPhi_iff old).mp phi) fun fallback => ?_
  obtain ⟨_, new, inside⟩ := (mem_fallbacks conversion.progress.grown).mp fallback
  obtain ⟨_, _, assign, _⟩ := conversion.progress.fallback i new inside
  rw [assign] at phi
  cases phi

theorem merges_copy {t : Nat} {os : List (BlockId × BindingId)}
    (member : j ∈ (h.block c).instrs) (shape : h.instr j = .phi t os) :
    (os.map (·.1)).Nodup ∧
      ∀ p, p ∈ os.map (·.1) ↔ p ∈ (h.block c).preds ∧ (h.view .all).Reached enter p := by
  obtain ⟨b, live, rfl, i, phi, t', os', shape', -, rfl⟩ :=
    conversion.exists_phi_copy copies member shape
  have keys := conversion.keys_phi phi shape'
  have keys' : (os'.map fun o => (β o.1, ν o.2)).map (·.1) =
      ((g.block b).preds.filter ((g.view .all).dominators enter).isReached).map β := by
    rw [← keys, List.map_map, List.map_map]
    rfl
  have source {p : Nat} (back : p ∈ (g.block b).preds) : p ∈ g.liveBlocks := by
    rw [← conversion.liveBlocks_finished]
    refine conversion.closed.source_live ((conversion.closed.symm p b).mpr ?_)
    rw [conversion.block_finished]
    exact back
  have preds : (h.block (β b)).preds = (g.block b).preds.map β := by
    rw [copies.preds_copy (by rw [conversion.liveBlocks_finished]; exact live),
      conversion.block_finished]
  rw [keys']
  refine ⟨((conversion.wellFormed.preds_distinct b).filter _).map_on fun p p_in q q_in same => ?_,
    fun p => ?_⟩
  · have p_live := source (List.mem_filter.mp p_in).1
    have q_live := source (List.mem_filter.mp q_in).1
    rw [← conversion.liveBlocks_finished] at p_live q_live
    exact copies.live_inj p p_live q q_live same
  · rw [preds]
    simp only [List.mem_map, List.mem_filter]
    constructor
    · rintro ⟨q, ⟨back, reached⟩, rfl⟩
      exact ⟨⟨q, back, rfl⟩, (conversion.reached_copy copies (source back)).mpr
        ((Digraph.isReached_iff conversion.inside).mp reached)⟩
    · rintro ⟨⟨q, back, rfl⟩, reached⟩
      exact ⟨q, ⟨back, (Digraph.isReached_iff conversion.inside).mpr
        ((conversion.reached_copy copies (source back)).mp reached)⟩, rfl⟩

theorem selects_copy {t p v : Nat} {os : List (BlockId × BindingId)}
    (member : j ∈ (h.block c).instrs) (shape : h.instr j = .phi t os) (operand : (p, v) ∈ os) :
    ∃ d, (h.view .all).Dominates enter d p ∧ h.Writes v (h.block d).instrs := by
  obtain ⟨b, live, rfl, i, phi, t', os', shape', -, rfl⟩ :=
    conversion.exists_phi_copy copies member shape
  obtain ⟨⟨q, n⟩, pair, same⟩ := List.mem_map.mp operand
  obtain ⟨rfl, rfl⟩ := Prod.mk.inj same
  obtain ⟨reached, u, found⟩ := conversion.lookup_phi phi shape' pair
  obtain ⟨d, dominates, defined⟩ := conversion.writes_at_end reached found
  refine ⟨β d, ?_, conversion.writes_copy copies defined⟩
  refine dominates.imp (congrArg β) fun strictly => ?_
  have q_live := conversion.live_of_visited (.inl reached)
  have d_live := conversion.live_of_visited (.inl (strictly.reached reached))
  rw [← conversion.liveBlocks_finished] at q_live d_live
  rw [copies.strictlyDominates_copy conversion.closed d_live q_live,
    conversion.strictlyDominates_finished]
  exact strictly

theorem strict_copy (prepared : g.Prepared) : h.Strict where
  defined _ inside := conversion.definedOnce_copy prepared copies inside
  reads _ reached _ _ _ split plain _ operand :=
    conversion.reads_copy copies prepared.entry reached split plain operand
  merges _ _ member _ _ shape := conversion.merges_copy copies member shape
  selects _ _ member _ _ shape _ _ operand := conversion.selects_copy copies member shape operand

end Copy

end Conversion

end SingleAssignment

namespace Lowering

/-- Every graph that is built converts to strict single-assignment form. -/
theorem build_strict {l : Lowering} {body : Tree} {formals : List Formal}
    {next next' : Serial} {g : FlowGraph} (built : l.build body formals next = .ok g next')
    (single : formals.countP (·.paramKind == .block) ≤ 1) :
    ∃ g', g.toSingleAssignment = .ok () g' ∧ g'.Strict := by
  have prepared := build_prepared built single
  obtain ⟨base, r, phis, start, h, β, ι, ν, conversion, copies, converted⟩ :=
    FlowGraph.exists_converted (build_wellFormed built) prepared
  exact ⟨h.annotateLiveness, converted, (conversion.strict_copy copies prepared).annotateLiveness⟩

/-- `while x; y = y; x = b; end; y`, where `y` is read before it is assigned. -/
def carriedLoop : Tree :=
  .sequence [.whileLoop (.localVar "x") (.sequence [.assign (.localVar "y") (.localVar "y"),
    .assign (.localVar "x") (.localVar "b")]), .localVar "y"]

theorem build_strict_loop :
    ∃ g next, Lowering.build ⟨20, .topLevel, some "f", false⟩ carriedLoop
        [.required "x", .block "b"] 0 = .ok g next ∧
      [Formal.required "x", .block "b"].countP (·.paramKind == .block) ≤ 1 ∧
      ∃ g', g.toSingleAssignment = .ok () g' ∧ g'.Strict ∧
        g'.instr 14 = .phi 6 [(6, 3), (8, 9)] ∧ g'.instr 15 = .phi 7 [(6, 5), (8, 8)] := by
  obtain ⟨g, next, built, merged⟩ :
      ∃ g next, Lowering.build ⟨20, .topLevel, some "f", false⟩ carriedLoop
        [.required "x", .block "b"] 0 = .ok g next ∧
        g.converted.instr 14 = .phi 6 [(6, 3), (8, 9)] ∧
        g.converted.instr 15 = .phi 7 [(6, 5), (8, 8)] :=
    exists_built _ (by decide +kernel)
  obtain ⟨g', converted, strict⟩ := build_strict built (by decide)
  rw [FlowGraph.converted, converted] at merged
  exact ⟨g, next, built, by decide, g', converted, strict, merged⟩

/-- Only a formal that nothing writes keeps a graph that is built from being converted. -/
theorem build_strict_of_written {l : Lowering} {body : Tree} {formals : List Formal}
    {next next' : Serial} {g : FlowGraph} (built : l.build body formals next = .ok g next')
    (written : ∀ f ∈ g.formals, ∃ b, (g.block b).removed = false ∧ g.WrittenIn f.1 b) :
    ∃ g', g.toSingleAssignment = .ok () g' ∧ g'.Strict := by
  have prepared := (build_written built).2 written
  obtain ⟨base, r, phis, start, h, β, ι, ν, conversion, copies, converted⟩ :=
    FlowGraph.exists_converted (build_wellFormed built) prepared
  exact ⟨h.annotateLiveness, converted, (conversion.strict_copy copies prepared).annotateLiveness⟩

/-- Of two formals for a block the last one is bound, and nothing writes the first. -/
theorem twoBlocks_undefined :
    ∃ g next, Lowering.build ⟨20, .topLevel, some "f", false⟩ .nil [.block "a", .block "b"] 0 =
        .ok g next ∧
      ∃ g', g.toSingleAssignment = .error (.form (.noDefinition "a")) g' := by
  obtain ⟨g, next, built, unconverted, refused⟩ :
      ∃ g next, Lowering.build ⟨20, .topLevel, some "f", false⟩ .nil [.block "a", .block "b"] 0 =
          .ok g next ∧
        (g.isSingle = false ∧
          SingleAssignment.verify g.singleAssignment = .error (.form (.noDefinition "a"))) :=
    exists_built _ (by decide +kernel)
  exact ⟨g, next, built, g.singleAssignment, by simp [FlowGraph.toSingleAssignment, unconverted, refused]⟩

end Lowering

end ScriptFlow
