import ScriptFlow.Proofs.Digraph.Frontier
import ScriptFlow.Proofs.FlowGraph.Growth
import ScriptFlow.Proofs.Liveness
import ScriptFlow.SingleAssignment

/-! Phis stand in front of the blocks where definitions of a live binding meet. -/

namespace ScriptFlow

namespace FlowGraph

variable {i : Nat}
variable (g : FlowGraph) {b : Nat} {x : Instr}

theorem instr_insertPhi_self : (g.insertPhi b x).instr g.instrs.size = x := by
  simp [instr, insertPhi, modifyBlock]

theorem instr_insertPhi_ne (other : i ≠ g.instrs.size) : (g.insertPhi b x).instr i = g.instr i := by
  simp [instr, insertPhi, modifyBlock, Array.getD_eq_getD_getElem?, Array.getElem?_push, other]

theorem blockOf_insertPhi_self : (g.insertPhi b x).blockOf g.instrs.size = b := by
  simp [blockOf, insertPhi, modifyBlock]

theorem blockOf_insertPhi_ne (other : i ≠ g.instrs.size) :
    (g.insertPhi b x).blockOf i = g.blockOf i := by
  simp [blockOf, insertPhi, modifyBlock, Array.getD_eq_getD_getElem?, Array.getElem?_push, other]

theorem size_insertPhi (b : Nat) (x : Instr) : (g.insertPhi b x).blocks.size = g.blocks.size := by
  simp [insertPhi]

theorem instrs_size_insertPhi (b : Nat) (x : Instr) :
    (g.insertPhi b x).instrs.size = g.instrs.size + 1 := by
  simp [insertPhi, modifyBlock]

theorem block_insertPhi (b c : Nat) (x : Instr) :
    (g.insertPhi b x).block c =
      if b = c ∧ b < g.blocks.size then
        { g.block b with
          instrs := (g.block b).instrs.takeWhile (fun i => (g.instr i).isPhi) ++
            g.instrs.size :: (g.block b).instrs.dropWhile (fun i => (g.instr i).isPhi) }
      else g.block c :=
  block_modifyBlock _ b c _

end FlowGraph

namespace SingleAssignment

open FlowGraph

/-- The graph `g` with the phis `phis b` in front of each block `b`, and nothing renamed yet. -/
structure Merged (g : FlowGraph) (t : DominatorTree) (r : Renaming) (phis : Nat → List InstrId) :
    Prop where
  size : r.graph.blocks.size = g.blocks.size
  block : ∀ b, r.graph.block b = { g.block b with instrs := phis b ++ (g.block b).instrs }
  bindings : r.graph.bindings = g.bindings
  firsts : r.firsts = Array.replicate g.bindings.size none
  uninitialized : r.uninitialized = Array.replicate g.bindings.size none
  header : r.graph.header = g.header
  grown : g.instrs.size ≤ r.graph.instrs.size
  instr : ∀ i : Nat, i < g.instrs.size → r.graph.instr i = g.instr i
  blockOf : ∀ i : Nat, i < g.instrs.size → r.graph.blockOf i = g.blockOf i
  fresh : ∀ b, ∀ i : Nat, i ∈ phis b → g.instrs.size ≤ i ∧ i < r.graph.instrs.size ∧
    r.graph.blockOf i = b
  origin : ∀ b, ∀ i : Nat, i ∈ phis b → ∃ v : Nat, v < g.bindings.size ∧
    r.origins.get? i = some v ∧ r.graph.instr i = phiFor g t v b
  distinct : ∀ b, (phis b).Nodup
  added : ∀ i : Nat, g.instrs.size ≤ i → i < r.graph.instrs.size → ∃ b, i ∈ phis b

/-- There is a phi for the binding at the block. -/
def HasPhi (r : Renaming) (phis : Nat → List InstrId) (v b : Nat) : Prop :=
  ∃ i ∈ phis b, r.origins.get? i = some v

namespace Merged

variable {g : FlowGraph} {t : DominatorTree} {r : Renaming} {phis : Nat → List InstrId}

theorem isPhi_of_mem (merged : Merged g t r phis) {b : Nat} (member : i ∈ phis b) :
    (r.graph.instr i).isPhi = true := by
  obtain ⟨v, _, _, eq⟩ := merged.origin b i member
  rw [eq]
  rfl

theorem isPhi_old (merged : Merged g t r phis) (wf : g.WellFormed) {b : Nat}
    (member : i ∈ (g.block b).instrs) : (r.graph.instr i).isPhi = false := by
  rw [merged.instr i (wf.placed b i member).1]
  exact wf.plain_of_mem member

/-- The phis are those that a block starts with. -/
theorem split (merged : Merged g t r phis) (wf : g.WellFormed) (b : Nat) :
    (r.graph.block b).instrs.takeWhile (fun i => (r.graph.instr i).isPhi) = phis b ∧
      (r.graph.block b).instrs.dropWhile (fun i => (r.graph.instr i).isPhi) =
        (g.block b).instrs := by
  have phi : ∀ i ∈ phis b, (r.graph.instr i).isPhi = true := fun i => merged.isPhi_of_mem
  have plain : ∀ i ∈ (g.block b).instrs, (r.graph.instr i).isPhi = false :=
    fun i => merged.isPhi_old wf
  rw [merged.block]
  rw [List.takeWhile_append_of_pos phi, List.dropWhile_append_of_pos phi]
  cases instrs : (g.block b).instrs with
  | nil => simp
  | cons i is =>
    have first := plain i (by simp [instrs])
    simp [first]

theorem start (g : FlowGraph) (t : DominatorTree) (r : Renaming) (graph : r.graph = g)
    (firsts : r.firsts = Array.replicate g.bindings.size none)
    (uninitialized : r.uninitialized = Array.replicate g.bindings.size none) :
    Merged g t r fun _ => [] where
  size := by rw [graph]
  block b := by rw [graph]; rfl
  bindings := by rw [graph]
  firsts := firsts
  uninitialized := uninitialized
  header := by rw [graph]
  grown := by rw [graph]
  instr i _ := by rw [graph]
  blockOf i _ := by rw [graph]
  fresh _ _ member := by cases member
  origin _ _ member := by cases member
  distinct _ := .nil
  added i old inside := by
    rw [graph] at inside
    exact absurd inside (Nat.not_lt_of_le old)

/-- The phis after one more is placed. -/
def morePhis (phis : Nat → List InstrId) (b new : Nat) : Nat → List InstrId :=
  fun c => if b = c then phis b ++ [new] else phis c

theorem mem_morePhis {b new c : Nat} (member : i ∈ morePhis phis b new c) :
    i ∈ phis c ∨ i = new ∧ b = c := by
  unfold morePhis at member
  grind

theorem mem_morePhis_of_mem {b new c : Nat} (member : i ∈ phis c) : i ∈ morePhis phis b new c := by
  unfold morePhis
  split
  · rename_i same
    exact List.mem_append_left _ (same ▸ member)
  · exact member

theorem placePhi (merged : Merged g t r phis) (wf : g.WellFormed) {v b : Nat}
    (known : v < g.bindings.size) (inside : b < g.blocks.size) :
    Merged g t (placePhi t v r b) (morePhis phis b r.graph.instrs.size) := by
  obtain ⟨taken, dropped⟩ := merged.split wf b
  have same_phi : phiFor r.graph t v b = phiFor g t v b := by
    simp only [phiFor, merged.block]
  have old (i : Nat) : i ≠ r.graph.instrs.size →
      (SingleAssignment.placePhi t v r b).graph.instr i = r.graph.instr i ∧
      (SingleAssignment.placePhi t v r b).graph.blockOf i = r.graph.blockOf i ∧
      (SingleAssignment.placePhi t v r b).origins.get? i = r.origins.get? i := by
    intro other
    refine ⟨?_, ?_, ?_⟩
    · exact instr_insertPhi_ne r.graph other
    · exact blockOf_insertPhi_ne r.graph other
    · exact (Dict.get?_put _ _ _ _).trans (if_neg other)
  refine ⟨?_, ?_, merged.bindings, merged.firsts, merged.uninitialized, merged.header, ?_, ?_, ?_, ?_,
    ?_, ?_, ?_⟩
  · exact (size_insertPhi r.graph b _).trans merged.size
  · intro c
    refine (block_insertPhi r.graph b c _).trans ?_
    rw [taken, dropped, merged.size, merged.block]
    by_cases h : b = c
    · simp [h, morePhis, h ▸ inside]
    · simp [h, morePhis, merged.block]
  · rw [SingleAssignment.placePhi, instrs_size_insertPhi]
    exact Nat.le_succ_of_le merged.grown
  · intro i small
    rw [(old i (by have := merged.grown; omega)).1, merged.instr i small]
  · intro i small
    rw [(old i (by have := merged.grown; omega)).2.1, merged.blockOf i small]
  · intro c i member
    rw [SingleAssignment.placePhi, instrs_size_insertPhi]
    rcases mem_morePhis member with before | ⟨rfl, rfl⟩
    · have facts := merged.fresh c i before
      exact ⟨facts.1, by omega, (old i (by omega)).2.1.trans facts.2.2⟩
    · exact ⟨merged.grown, Nat.lt_succ_self _, blockOf_insertPhi_self r.graph⟩
  · intro c i member
    rcases mem_morePhis member with before | ⟨rfl, rfl⟩
    · obtain ⟨u, u_known, origin, shape⟩ := merged.origin c i before
      have same := old i (Nat.ne_of_lt (merged.fresh c i before).2.1)
      exact ⟨u, u_known, same.2.2.trans origin, same.1.trans shape⟩
    · exact ⟨v, known, (Dict.get?_put _ _ _ _).trans (if_pos rfl),
        (instr_insertPhi_self r.graph).trans same_phi⟩
  · intro c
    unfold morePhis
    split
    · refine List.nodup_append.mpr ⟨merged.distinct b, by simp, fun i member j last => ?_⟩
      rw [List.mem_singleton.mp last]
      exact Nat.ne_of_lt (merged.fresh b i member).2.1
    · exact merged.distinct c
  · intro i old inside
    rw [SingleAssignment.placePhi, instrs_size_insertPhi] at inside
    rcases Nat.lt_succ_iff_lt_or_eq.mp inside with before | rfl
    · obtain ⟨c, member⟩ := merged.added i old before
      exact ⟨c, mem_morePhis_of_mem member⟩
    · exact ⟨b, by simp [morePhis]⟩

theorem hasPhi_placePhi (merged : Merged g t r phis) (v b u c : Nat) :
    HasPhi (SingleAssignment.placePhi t v r b) (morePhis phis b r.graph.instrs.size) u c ↔
      HasPhi r phis u c ∨ (u, c) = (v, b) := by
  have origin (i : Nat) : (SingleAssignment.placePhi t v r b).origins.get? i =
      if i = r.graph.instrs.size then some v else r.origins.get? i := Dict.get?_put _ _ _ _
  constructor
  · rintro ⟨i, member, here⟩
    rw [origin] at here
    rcases mem_morePhis member with before | ⟨rfl, rfl⟩
    · rw [if_neg (Nat.ne_of_lt (merged.fresh c i before).2.1)] at here
      exact .inl ⟨i, before, here⟩
    · rw [if_pos rfl] at here
      exact .inr (by rw [Option.some.inj here])
  · rintro (⟨i, member, here⟩ | new)
    · have older : i ≠ r.graph.instrs.size := Nat.ne_of_lt (merged.fresh c i member).2.1
      exact ⟨i, mem_morePhis_of_mem member, by rw [origin, if_neg older, here]⟩
    · obtain ⟨rfl, rfl⟩ := Prod.mk.inj new
      exact ⟨r.graph.instrs.size, by simp [morePhis], by rw [origin, if_pos rfl]⟩

/-- Phis for all the given pairs of a binding and a block. -/
theorem placeAll (merged : Merged g t r phis) (wf : g.WellFormed) (places : List (Nat × Nat))
    (inside : ∀ p ∈ places, p.1 < g.bindings.size ∧ p.2 < g.blocks.size) :
    ∃ phis', Merged g t
        (places.foldl (fun r p => SingleAssignment.placePhi t p.1 r p.2) r) phis' ∧
      ∀ u c,
        HasPhi (places.foldl (fun r p => SingleAssignment.placePhi t p.1 r p.2) r) phis' u c ↔
          HasPhi r phis u c ∨ (u, c) ∈ places := by
  induction places generalizing r phis with
  | nil => exact ⟨phis, merged, fun u c => by simp⟩
  | cons p places ih =>
    have here := inside p (by simp)
    obtain ⟨phis', all, has⟩ :=
      ih (merged.placePhi wf here.1 here.2) fun q member => inside q (by simp [member])
    refine ⟨phis', all, fun u c => ?_⟩
    rw [List.foldl_cons, has, merged.hasPhi_placePhi, List.mem_cons, or_assoc]

end Merged

theorem BlocksOf.mem_of_add (s : BlocksOf) (v u b c : Nat) :
    c ∈ (s.add v b).of u ↔ c ∈ s.of u ∨ c = b ∧ u = v ∧ v < s.size := by
  simp only [of, add, Array.getD_eq_getD_getElem?, Array.getElem?_modify]
  grind

/-- The blocks that define each binding. -/
def definers (g : FlowGraph) : BlocksOf :=
  g.allInstrs.foldl
    (fun (s : BlocksOf) i => (((g.instr i).target?.map fun v => s.add v (g.blockOf i))).getD s)
    (Array.replicate g.bindings.size [])

theorem mem_foldl_define (g : FlowGraph) (is : List InstrId) (s : BlocksOf) (v b : Nat)
    (known : v < s.size)
    (source : b ∈ s.of v ∨ ∃ i ∈ is, (g.instr i).target? = some v ∧ g.blockOf i = b) :
    b ∈ BlocksOf.of (is.foldl (fun (s : BlocksOf) i =>
      (((g.instr i).target?.map fun v => s.add v (g.blockOf i))).getD s) s) v := by
  induction is generalizing s with
  | nil => simpa using source
  | cons i is ih =>
    rw [List.foldl_cons]
    refine ih _ ?_ ?_
    · cases (g.instr i).target? with
      | none => exact known
      | some u =>
        simp only [Option.map_some, Option.getD_some]
        simpa [BlocksOf.add] using known
    · rcases source with old | ⟨j, member, writes, place⟩
      · left
        cases (g.instr i).target? with
        | none => exact old
        | some u => exact (BlocksOf.mem_of_add s u v _ _).mpr (.inl old)
      · rcases List.mem_cons.mp member with rfl | later
        · left
          rw [writes]
          exact (BlocksOf.mem_of_add s v v _ _).mpr (.inr ⟨place.symm, rfl, known⟩)
        · exact .inr ⟨j, later, writes, place⟩

theorem mem_definers {g : FlowGraph} (wf : g.WellFormed) {v b : Nat}
    (writes : g.Writes v (g.block b).instrs) : b ∈ (definers g).of v := by
  obtain ⟨i, member, target⟩ := writes
  have placed := wf.placed b i member
  refine mem_foldl_define g g.allInstrs _ v b ?_ (.inr ⟨i, ?_, target, placed.2⟩)
  · rw [Array.size_replicate]
    exact (wf.inScope i placed.1).target v target
  · exact g.mem_allInstrs.mpr
      ⟨b, wf.mem_liveBlocks_of_instrs (List.ne_nil_of_mem member), member⟩

/-- Phis are placed in front of the blocks, for a live binding wherever the frontier of one of its
definitions or phis is. -/
theorem placePhis_merged {g : FlowGraph} (wf : g.WellFormed) (t : DominatorTree) :
    ∃ phis, Merged g t (placePhis g t g.liveness) phis ∧
      (∀ v b, HasPhi (placePhis g t g.liveness) phis v b → g.LiveIn v b ∧
        b ∈ ((g.view .all).frontiers t).iterated ((definers g).of v ++ [enter])) ∧
      ∀ v b, g.LiveIn v b →
        b ∈ ((g.view .all).frontiers t).iterated ((definers g).of v ++ [enter]) →
        HasPhi (placePhis g t g.liveness) phis v b := by
  let places := g.liveness.globals.flatMap fun v =>
    ((((g.view .all).frontiers t).iterated ((definers g).of v ++ [enter])).filter
      (g.liveness.isLiveIn v)).map fun b => (v, b)
  have as_fold : placePhis g t g.liveness =
      places.foldl (fun r p => placePhi t p.1 r p.2)
        { graph := g
          generations := Array.replicate g.bindings.size 0
          firsts := Array.replicate g.bindings.size none
          uninitialized := Array.replicate g.bindings.size none
          origins := .empty } := by
    simp only [places, placePhis, definers, List.foldl_flatMap, List.foldl_map]
  -- where edges meet there is a block
  have live_of_iterated {seeds : List Nat} {b : Nat}
      (member : b ∈ ((g.view .all).frontiers t).iterated seeds) : b ∈ g.liveBlocks := by
    refine (Frontiers.iterated_spec _ seeds).2 (· ∈ g.liveBlocks) (fun v _ m frontier => ?_) b member
    have source := ((Digraph.frontiers_spec (g.view .all) t).2 v m).mp frontier
    obtain ⟨p, back⟩ : ∃ p, p ∈ (g.view .all).predecessors m := by
      refine List.exists_mem_of_ne_nil _ fun none => ?_
      simp [Digraph.frontierSources, none] at source
    rw [wf.view_symm, successors_view] at back
    exact g.mem_liveBlocks.mpr ⟨wf.target_inside back, wf.target_live back⟩
  have inside : ∀ p ∈ places, p.1 < g.bindings.size ∧ p.2 < g.blocks.size := by
    intro p member
    simp only [places, List.mem_flatMap, List.mem_map, List.mem_filter] at member
    obtain ⟨v, global, b, ⟨iterated, _⟩, rfl⟩ := member
    exact ⟨g.inside_of_global global, (g.mem_liveBlocks.mp (live_of_iterated iterated)).1⟩
  have mem_places (v b : Nat) : (v, b) ∈ places ↔ v ∈ g.liveness.globals ∧
      b ∈ ((g.view .all).frontiers t).iterated ((definers g).of v ++ [enter]) ∧
      g.liveness.isLiveIn v b = true := by
    simp [places]
  obtain ⟨phis, merged, has⟩ := (Merged.start g t
    { graph := g
      generations := Array.replicate g.bindings.size 0
      firsts := Array.replicate g.bindings.size none
      uninitialized := Array.replicate g.bindings.size none
      origins := .empty } rfl rfl rfl).placeAll wf places inside
  rw [as_fold]
  refine ⟨phis, merged, fun v b here => ?_, fun v b live iterated => ?_⟩
  · rcases (has v b).mp here with ⟨_, none, _⟩ | wanted
    · cases none
    · obtain ⟨global, iterated, live⟩ := (mem_places v b).mp wanted
      have known := g.inside_of_global global
      exact ⟨(wf.plain.isLiveIn_iff (live_of_iterated iterated) known).mp live, iterated⟩
  · obtain ⟨live_in, global⟩ := wf.liveness_complete live
    exact (has v b).mpr (.inr ((mem_places v b).mpr ⟨global, iterated, live_in⟩))

end SingleAssignment

end ScriptFlow
