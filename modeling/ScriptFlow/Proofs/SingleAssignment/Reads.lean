import ScriptFlow.Proofs.SingleAssignment.Converted
import ScriptFlow.Proofs.SingleAssignment.Paths

/-! Conversion to single-assignment form keeps, along every path, which definitions are read. -/

namespace ScriptFlow

namespace FlowGraph

variable {x : Instr} {b : Nat}

/-! What is read depends on the code, and on which bindings stand for nil. -/

section Congr

variable {g h : FlowGraph} (blocks : h.blocks = g.blocks) (instrs : h.instrs = g.instrs)
  (original : ∀ v, (h.binding v).uninitialized = (g.binding v).uninitialized)
include original

theorem isFallback_congr (x : Instr) : h.isFallback x = g.isFallback x := by
  cases x <;> simp only [isFallback, original]

include blocks instrs

theorem passBlock_congr (visit : Nat) (s : Store) (b : Nat) :
    h.passBlock visit s b = g.passBlock visit s b := by
  have pass : h.passInstr visit = g.passInstr visit := by
    funext state x
    simp only [passInstr, isFallback_congr original]
  rw [passBlock, passBlock, code_congr blocks instrs, pass]

theorem readsFrom_congr (path : List BlockId) (visit : Nat) (s : Store) (b : Nat) :
    h.readsFrom visit s b path = g.readsFrom visit s b path := by
  induction path generalizing visit s b with
  | nil => rw [readsFrom, readsFrom, passBlock_congr blocks instrs original]
  | cons c path ih =>
    rw [readsFrom, readsFrom, passBlock_congr blocks instrs original, ih, passPhis, passPhis,
      code_congr blocks instrs]

end Congr

theorem passPhi_of_plain {p : BlockId} {old s : Store} (plain : x.isPhi = false) :
    passPhi p old s x = s := by
  cases x with
  | phi t os => cases plain
  | _ => rfl

/-! Copies. -/

namespace Copies

variable {g h : FlowGraph} {β ι ν : Nat → Nat} (copies : Copies g h β ι ν) (closed : g.Closed)
include copies closed

theorem code_copy (live : b ∈ g.liveBlocks) : h.code (β b) = (g.code b).map (·.renumber β ν) := by
  rw [code, code, copies.block b live, List.map_map, List.map_map]
  refine List.map_congr_left fun i member => ?_
  exact (copies.instr i (closed.mem_allInstrs_of_mem member)).2.1

omit copies in
/-- The bindings that an instruction of the graph mentions are kept. -/
theorem kept_of_code {v : Nat} (member : x ∈ g.code b)
    (mentioned : v ∈ x.operands ∨ x.target? = some v) : v ∈ g.keptBindings := by
  obtain ⟨i, in_b, rfl⟩ := List.mem_map.mp member
  exact closed.kept_of_reference (closed.mem_allInstrs_of_mem in_b) mentioned

theorem isFallback_copy (member : x ∈ g.code b) :
    h.isFallback (x.renumber β ν) = g.isFallback x := by
  cases x with
  | assign v o =>
    obtain ⟨_, definition, uses, same, _⟩ :=
      copies.binding v (kept_of_code closed member (.inr rfl))
    have value : (o.mapBinding ν == Operand.nil) = (o == .nil) := by
      cases o with
      | binding u => rfl
      | const c => rfl
    change (o.mapBinding ν == Operand.nil && (h.binding (ν v)).uninitialized) = _
    rw [same, value]
    rfl
  | declare d => cases d <;> rfl
  | _ => rfl

end Copies

/-- A phi has operands for blocks that are there. -/
def PhisLive (g : FlowGraph) : Prop :=
  ∀ b, ∀ t os, .phi t os ∈ g.code b → ∀ o ∈ os, o.1 ∈ g.liveBlocks

/-- Two stores hold the same in the bindings that are kept. -/
def SameStore (g : FlowGraph) (ν : Nat → Nat) (s t : Store) : Prop :=
  ∀ v ∈ g.keptBindings, t (ν v) = s v

namespace Copies

variable {g h : FlowGraph} {β ι ν : Nat → Nat} (copies : Copies g h β ι ν) (closed : g.Closed)
  {s t : Store}
include copies

theorem sameStore_put (same : g.SameStore ν s t) {v : Nat} (kept : v ∈ g.keptBindings) (o : Origin) :
    g.SameStore ν (s.put v o) (t.put (ν v) o) := by
  intro u u_kept
  unfold Store.put
  by_cases eq : u = v
  · rw [if_pos eq, if_pos (congrArg ν eq)]
  · rw [if_neg eq, if_neg fun again => eq (copies.binding_inj u u_kept v kept again)]
    exact same u u_kept

include closed

theorem sameStore_define (same : g.SameStore ν s t) (member : x ∈ g.code b)
    (o : Origin) : g.SameStore ν (s.define x o) (t.define (x.renumber β ν) o) := by
  unfold Store.define
  rw [Instr.target?_renumber]
  cases target : x.target? with
  | none => exact same
  | some v => exact copies.sameStore_put same (kept_of_code closed member (.inr target)) o

omit copies in
theorem read_copy (same : g.SameStore ν s t) (member : x ∈ g.code b)
    (plain : x.isPhi = false) : (x.renumber β ν).slots.map t.read = x.slots.map s.read := by
  rw [Instr.slots_renumber, List.map_map]
  refine List.map_congr_left fun o slot => ?_
  cases o with
  | const c => rfl
  | binding v =>
    have used := (Instr.mem_operands_of_plain plain).mpr slot
    exact congrArg some (same v (kept_of_code closed member (.inl used)))

theorem passInstr_copy (same : g.SameStore ν s t) (member : x ∈ g.code b)
    (visit : Nat) (log : Reads) :
    (h.passInstr visit (t, log) (x.renumber β ν)).2 = (g.passInstr visit (s, log) x).2 ∧
      g.SameStore ν (g.passInstr visit (s, log) x).1 (h.passInstr visit (t, log) (x.renumber β ν)).1 := by
  unfold passInstr
  dsimp only
  rw [Instr.isPhi_renumber, copies.isFallback_copy closed member]
  cases phi : x.isPhi with
  | true => exact ⟨rfl, same⟩
  | false =>
    rw [if_neg Bool.false_ne_true, if_neg Bool.false_ne_true]
    split
    · exact ⟨rfl, copies.sameStore_define closed same member _⟩
    · rw [read_copy closed same member phi]
      exact ⟨rfl, copies.sameStore_define closed same member _⟩

theorem passInstrs_copy (same : g.SameStore ν s t) {xs : List Instr}
    (members : ∀ x ∈ xs, x ∈ g.code b) (visit : Nat) (log : Reads) :
    ((xs.map (·.renumber β ν)).foldl (h.passInstr visit) (t, log)).2 =
        (xs.foldl (g.passInstr visit) (s, log)).2 ∧
      g.SameStore ν (xs.foldl (g.passInstr visit) (s, log)).1
        ((xs.map (·.renumber β ν)).foldl (h.passInstr visit) (t, log)).1 := by
  induction xs generalizing s t log with
  | nil => exact ⟨rfl, same⟩
  | cons x xs ih =>
    obtain ⟨log_eq, next⟩ := copies.passInstr_copy closed same (members x List.mem_cons_self) visit log
    rw [List.map_cons, List.foldl_cons, List.foldl_cons]
    generalize h.passInstr visit (t, log) (x.renumber β ν) = after' at log_eq next ⊢
    generalize g.passInstr visit (s, log) x = after at log_eq next ⊢
    obtain ⟨t', log'⟩ := after'
    obtain ⟨s', log₁⟩ := after
    obtain rfl : log' = log₁ := log_eq
    exact ih next (fun y later => members y (List.mem_cons_of_mem _ later)) log'

theorem passBlock_copy (same : g.SameStore ν s t) (live : b ∈ g.liveBlocks) (visit : Nat) :
    (h.passBlock visit t (β b)).2 = (g.passBlock visit s b).2 ∧
      g.SameStore ν (g.passBlock visit s b).1 (h.passBlock visit t (β b)).1 := by
  unfold passBlock
  rw [copies.code_copy closed live]
  exact copies.passInstrs_copy closed same (fun _ member => member) visit []

omit closed in
theorem lookup_copy {os : List (BlockId × BindingId)} {p : Nat} (live : p ∈ g.liveBlocks)
    (keys : ∀ o ∈ os, o.1 ∈ g.liveBlocks) :
    (os.map fun o => (β o.1, ν o.2)).lookup (β p) = (os.lookup p).map ν := by
  induction os with
  | nil => rfl
  | cons o os ih =>
    have rest := ih fun o later => keys o (List.mem_cons_of_mem _ later)
    rw [List.map_cons, List.lookup_cons, List.lookup_cons, rest]
    by_cases eq : p = o.1
    · simp [eq]
    · have other : β p ≠ β o.1 :=
        fun again => eq (copies.live_inj p live o.1 (keys o List.mem_cons_self) again)
      rw [beq_false_of_ne eq, beq_false_of_ne other]

theorem passPhi_copy (phis : g.PhisLive) (same : g.SameStore ν s t) {p : Nat}
    (p_live : p ∈ g.liveBlocks) (member : x ∈ g.code b) {s' t' : Store}
    (now : g.SameStore ν s' t') :
    g.SameStore ν (passPhi p s s' x) (passPhi (β p) t t' (x.renumber β ν)) := by
  cases phi : x.isPhi with
  | false =>
    rw [passPhi_of_plain phi, passPhi_of_plain (by rw [Instr.isPhi_renumber, phi])]
    exact now
  | true =>
    obtain ⟨n, os, rfl⟩ := Instr.eq_phi phi
    rw [Instr.renumber_phi]
    simp only [passPhi]
    rw [copies.lookup_copy p_live (phis b n os member)]
    cases operand : os.lookup p with
    | none => exact now
    | some m =>
      have kept := kept_of_code closed member (.inl (List.mem_map_of_mem (mem_of_lookup operand)))
      simp only [Option.map_some, Option.elim_some, same m kept]
      exact copies.sameStore_put now (kept_of_code closed member (.inr rfl)) _

theorem passPhis_copy (phis : g.PhisLive) (same : g.SameStore ν s t) {p : Nat}
    (p_live : p ∈ g.liveBlocks) (live : b ∈ g.liveBlocks) :
    g.SameStore ν (g.passPhis p s b) (h.passPhis (β p) t (β b)) := by
  -- the stores that the phis read stay as they are while those they write to change
  have step (xs : List Instr) (members : ∀ x ∈ xs, x ∈ g.code b) (s' t' : Store)
      (now : g.SameStore ν s' t') : g.SameStore ν (xs.foldl (passPhi p s) s')
        ((xs.map (·.renumber β ν)).foldl (passPhi (β p) t) t') := by
    induction xs generalizing s' t' with
    | nil => exact now
    | cons x xs ih =>
      exact ih (fun y later => members y (List.mem_cons_of_mem _ later)) _ _
        (copies.passPhi_copy closed phis same p_live (members x List.mem_cons_self) now)
  unfold passPhis
  rw [copies.code_copy closed live]
  exact step _ (fun _ member => member) s t same

theorem readsFrom_copy (phis : g.PhisLive) (path : List BlockId) (same : g.SameStore ν s t)
    (live : b ∈ g.liveBlocks) (chain : List.IsChain (fun a b => b ∈ g.succIds a) (b :: path))
    (visit : Nat) : h.readsFrom visit t (β b) (path.map β) = g.readsFrom visit s b path := by
  induction path generalizing b s t visit with
  | nil => rw [List.map_nil, readsFrom, readsFrom, (copies.passBlock_copy closed same live visit).1]
  | cons c path ih =>
    obtain ⟨log_eq, after⟩ := copies.passBlock_copy closed same live visit
    obtain ⟨edge, chain⟩ := List.isChain_cons_cons.mp chain
    have c_live := closed.target_live edge
    rw [List.map_cons, readsFrom, readsFrom, log_eq,
      ih (copies.passPhis_copy closed phis after live c_live) c_live chain (visit + 1)]

theorem reads_copy (phis : g.PhisLive) {path : List BlockId} (is_path : g.IsPath path) :
    h.reads (path.map β) = g.reads path := by
  have first := copies.readsFrom_copy closed phis path (s := .initial) (t := .initial)
    (fun _ _ => rfl) (closed.distinguished_live (b := enter) rfl) is_path 0
  rw [copies.fixed enter rfl] at first
  exact first

end Copies

/-- The graphs have the same blocks and edges, under the numbers that `β` gives them, and the same
instructions of the program but for the bindings that they mention. -/
structure Corresponds (g h : FlowGraph) (β : Nat → Nat) : Prop where
  entry : β enter = enter
  live : ∀ b ∈ g.liveBlocks, β b ∈ h.liveBlocks
  once : ∀ c ∈ h.liveBlocks, ∃! b, b ∈ g.liveBlocks ∧ β b = c
  name : ∀ b ∈ g.liveBlocks, (h.block (β b)).name = (g.block b).name
  succs : ∀ b ∈ g.liveBlocks, (h.block (β b)).succs = (g.block b).succs.map fun e => (β e.1, e.2)
  program : ∀ b ∈ g.liveBlocks,
    ((h.code (β b)).filter h.isProgram).map (·.renumber id fun _ => 0) =
      (g.code b).map (·.renumber β fun _ => 0)

end FlowGraph

namespace SingleAssignment

open FlowGraph

namespace Conversion

variable {g : FlowGraph} {base r : Renaming} {phis : Nat → List InstrId} {start : Nat → Names}
  (conversion : Conversion g base r phis start)
include conversion

theorem phisLive : (finished r).PhisLive := by
  intro b t os member o operand
  have code : (finished r).code b = r.graph.code b :=
    code_congr (blocks_finished r) (instrs_finished r) b
  rw [code] at member
  obtain ⟨i, phi, shape⟩ := conversion.exists_phi member
  have key : o.1 ∈ os.map (·.1) := List.mem_map_of_mem operand
  rw [conversion.keys_phi phi shape, List.mem_filter] at key
  have edge := (conversion.closed.symm o.1 b).mpr (by
    rw [conversion.block_finished]
    exact key.1)
  exact conversion.closed.source_live edge

theorem reads_finished {path : List BlockId} (is_path : g.IsPath path) :
    (finished r).reads path = g.reads path := by
  have shape := sameShape_rebuildUses (renameRegisters r)
  have same : (finished r).reads path = r.graph.reads path :=
    readsFrom_congr (blocks_finished r) (instrs_finished r) shape.original path 0 .initial enter
  rw [same, conversion.reads_eq is_path]

theorem isPath_finished {path : List BlockId} (is_path : g.IsPath path) :
    (finished r).IsPath path := by
  have succs (b : Nat) : (finished r).succIds b = g.succIds b := by
    rw [succIds, conversion.block_finished, succIds]
  unfold IsPath
  simp only [succs]
  exact is_path

theorem renamed_of_mem {i : Nat} (live : b ∈ g.liveBlocks) (member : i ∈ (g.block b).instrs) :
    i ∈ (base.graph.block b).instrs ∧ (base.graph.instr i).isPhi = false ∧
      ∃ names, Renamed base r names i := by
  have old : i ∈ (base.graph.block b).instrs := by
    rw [conversion.instrs_base]
    exact List.mem_append_right _ member
  obtain ⟨before, after, split⟩ := List.append_of_mem old
  exact ⟨old, conversion.merged.isPhi_old conversion.wellFormed member, _,
    (conversion.walked.done b (conversion.visited live)).renames.renamed split⟩

/-- Of a converted block, the instructions of the program are those that were there before. -/
theorem program_finished (live : b ∈ g.liveBlocks) :
    ((finished r).code b).filter (finished r).isProgram = (g.block b).instrs.map r.graph.instr := by
  have code : (finished r).code b = r.graph.code b :=
    code_congr (blocks_finished r) (instrs_finished r) b
  have program : (finished r).isProgram = r.graph.isProgram := by
    funext x
    have shape := sameShape_rebuildUses (renameRegisters r)
    have fallback : (finished r).isFallback x = r.graph.isFallback x :=
      isFallback_congr shape.original x
    rw [isProgram, isProgram, fallback]
  have inside {i : Nat} (member : i ∈ (base.graph.block b).instrs) : i < base.graph.instrs.size :=
    (conversion.ready.placed b i member).1
  have dropped_phis : ((phis b).map r.graph.instr).filter r.graph.isProgram = [] := by
    refine List.filter_eq_nil_iff.mpr fun x member => ?_
    obtain ⟨i, phi, rfl⟩ := List.mem_map.mp member
    have old : i ∈ (base.graph.block b).instrs := by
      rw [conversion.instrs_base]
      exact List.mem_append_left _ phi
    simp [isProgram, (conversion.isPhi_iff old).mpr phi]
  have dropped_fallbacks : ((fallbacks base r b).map r.graph.instr).filter r.graph.isProgram = [] := by
    refine List.filter_eq_nil_iff.mpr fun x member => ?_
    obtain ⟨i, fallback, rfl⟩ := List.mem_map.mp member
    obtain ⟨v, n, shape, stands⟩ := conversion.fallback_of_mem fallback
    simp [isProgram, shape, isFallback, (conversion.progress.marked v n stands).2.2]
  have kept : ((g.block b).instrs.map r.graph.instr).filter r.graph.isProgram =
      (g.block b).instrs.map r.graph.instr := by
    refine List.filter_eq_self.mpr fun x member => ?_
    obtain ⟨i, in_b, rfl⟩ := List.mem_map.mp member
    obtain ⟨old, plain, names, renamed⟩ := conversion.renamed_of_mem live in_b
    have still : (r.graph.instr i).isPhi = false := by
      rw [conversion.isPhi_eq (inside old), plain]
    simp [isProgram, still, conversion.progress.isFallback_eq (inside old) plain renamed]
  rw [code, program, conversion.code_eq, List.filter_append, List.filter_append, dropped_phis,
    dropped_fallbacks, kept, List.nil_append, List.append_nil]

theorem corresponds {h : FlowGraph} {β ι ν : Nat → Nat} (copies : Copies (finished r) h β ι ν) :
    Corresponds g h β := by
  have closed := conversion.closed
  have lives := conversion.liveBlocks_finished
  refine ⟨copies.fixed enter rfl, ?_, ?_, ?_, ?_, ?_⟩
  · exact fun b live => copies.live b (lives ▸ live)
  · intro c live
    obtain ⟨b, b_live, same⟩ := copies.live_onto c (h.mem_liveBlocks.mp live).1
    refine ⟨b, ⟨lives ▸ b_live, same⟩, fun a ⟨a_live, again⟩ => ?_⟩
    exact copies.live_inj a (lives ▸ a_live) b b_live (again.trans same.symm)
  · intro b live
    rw [copies.block b (lives ▸ live), conversion.block_finished]
  · intro b live
    rw [copies.block b (lives ▸ live), conversion.block_finished]
  · intro b live
    have live' : b ∈ (finished r).liveBlocks := lives ▸ live
    have program : ((finished r).code b).filter (h.isProgram ∘ (·.renumber β ν)) =
        ((finished r).code b).filter (finished r).isProgram := by
      refine List.filter_congr fun x member => ?_
      simp only [Function.comp, isProgram, Instr.isPhi_renumber, copies.isFallback_copy closed member]
    rw [copies.code_copy closed live', List.filter_map, program, conversion.program_finished live, code,
      List.map_map, List.map_map, List.map_map]
    refine List.map_congr_left fun i in_b => ?_
    obtain ⟨_, plain, names, renamed⟩ := conversion.renamed_of_mem live in_b
    obtain ⟨f, shape⟩ := renamed.reads plain
    have forget (o : Operand) : (nameOperand r names o).mapBinding (fun _ => 0) =
        o.mapBinding fun _ => 0 := by cases o <;> rfl
    simp only [Function.comp, Instr.renumber_renumber, shape]
    change (((base.graph.instr i).mapSlots _).mapTarget f).renumber β (fun _ => 0) = _
    rw [Instr.renumber_const_mapSlots β forget plain,
      conversion.merged.instr i (conversion.wellFormed.placed b i in_b).1]

end Conversion

end SingleAssignment

namespace Lowering

/-- A built graph and its single-assignment form have the same program, and along every path the
instructions of the program read what the same instructions wrote. -/
theorem build_reads {l : Lowering} {body : Tree} {formals : List Formal} {next next' : Serial}
    {g : FlowGraph} (built : l.build body formals next = .ok g next')
    (single : formals.countP (·.paramKind == .block) ≤ 1) :
    ∃ g' β, g.toSingleAssignment = .ok () g' ∧ g.Corresponds g' β ∧
      ∀ path, g.IsPath path → g'.reads (path.map β) = g.reads path := by
  obtain ⟨base, r, phis, start, h, β, ι, ν, conversion, copies, converted⟩ :=
    FlowGraph.exists_converted (build_wellFormed built) (build_prepared built single)
  have same := conversion.corresponds copies
  refine ⟨h.annotateLiveness, β, converted,
    ⟨same.entry, same.live, same.once, same.name, same.succs, same.program⟩, fun path is_path => ?_⟩
  calc h.annotateLiveness.reads (path.map β)
    _ = h.reads (path.map β) :=
      FlowGraph.readsFrom_congr (g := h) (h := h.annotateLiveness) rfl rfl (fun _ => rfl) _ 0 .initial _
    _ = (SingleAssignment.finished r).reads path :=
      copies.reads_copy conversion.closed conversion.phisLive (conversion.isPath_finished is_path)
    _ = g.reads path := conversion.reads_finished is_path

/-- `while $c; t = x; x = y; y = t; end; z`: two values that change places, and one never set. -/
def swappingLoop : Tree :=
  .sequence [.whileLoop (.globalVar "$c") (.sequence [.assign (.localVar "t") (.localVar "x"),
    .assign (.localVar "x") (.localVar "y"), .assign (.localVar "y") (.localVar "t")]),
    .localVar "z"]

theorem build_reads_loop :
    ∃ g next, Lowering.build ⟨20, .topLevel, some "f", false⟩ swappingLoop
        [.required "x", .optional "y" (.int 1), .block "b"] 0 = .ok g next ∧
      [Formal.required "x", .optional "y" (.int 1), .block "b"].countP (·.paramKind == .block) ≤ 1 ∧
      ∃ g' β, g.toSingleAssignment = .ok () g' ∧ g.Corresponds g' β ∧
        (g'.reads ([6, 8, 7, 10, 11, 10, 11].map β)).getLast? =
          some [[some (.written 5 1)], [some (.written 5 2)], [some (.written 7 0)], []] := by
  obtain ⟨g, next, built, is_path, second⟩ :
      ∃ g next, Lowering.build ⟨20, .topLevel, some "f", false⟩ swappingLoop
        [.required "x", .optional "y" (.int 1), .block "b"] 0 = .ok g next ∧
        [0, 6, 8, 7, 10, 11, 10, 11].IsChain (fun a b => b ∈ g.succIds a) ∧
        (g.reads [6, 8, 7, 10, 11, 10, 11]).getLast? =
          some [[some (.written 5 1)], [some (.written 5 2)], [some (.written 7 0)], []] :=
    exists_built _ (by decide +kernel)
  obtain ⟨g', β, converted, same, reads⟩ := build_reads built (by decide)
  exact ⟨g, next, built, by decide, g', β, converted, same, reads _ is_path ▸ second⟩

end Lowering

end ScriptFlow
