import Mathlib.Data.List.Induction
import Mathlib.Data.List.Nodup
import ScriptFlow.FlowGraph.Compact
import ScriptFlow.Proofs.Dict
import ScriptFlow.Proofs.Digraph.Reach
import ScriptFlow.Proofs.FlowGraph.Growth
import ScriptFlow.Proofs.FlowGraph.WellFormed

/-! A copy of a graph has its blocks, instructions and bindings under new numbers. -/

namespace ScriptFlow.FlowGraph

variable {a b : Nat}

/-! New numbers are places in the list of what is kept. -/

theorem lookupId_push (ids : Array (Option Nat)) (x : Option Nat) (i : Nat) :
    lookupId (ids.push x) i = if i = ids.size then x else lookupId ids i := by
  simp only [lookupId, Array.getD_eq_getD_getElem?, Array.getElem?_push]
  split <;> rfl

theorem lookupId_outside {ids : Array (Option Nat)} {i : Nat} (outside : ids.size ≤ i) :
    lookupId ids i = none := by
  simp [lookupId, Array.getD_eq_getD_getElem?, outside]

/-- The places that are marked, ascending. -/
def markedPlaces (marks : List Bool) : List Nat :=
  (List.range marks.length).filter fun i => marks.getD i false

theorem markedPlaces_append (marks : List Bool) (keep : Bool) :
    markedPlaces (marks ++ [keep]) =
      markedPlaces marks ++ if keep then [marks.length] else [] := by
  have older : (List.range marks.length).filter (fun i => (marks ++ [keep]).getD i false) =
      markedPlaces marks :=
    List.filter_congr fun i inside => by
      rw [List.mem_range] at inside
      simp [List.getElem?_append_left inside]
  rw [markedPlaces, List.length_append, List.length_singleton, List.range_succ, List.filter_append,
    older]
  cases keep <;> simp

theorem foldl_nextNumber (marks : List Bool) :
    (marks.foldl nextNumber (#[], 0)).1.size = marks.length ∧
      (marks.foldl nextNumber (#[], 0)).2 = (markedPlaces marks).length ∧
      ∀ i c : Nat, lookupId (marks.foldl nextNumber (#[], 0)).1 i = some c ↔
        (markedPlaces marks)[c]? = some i := by
  induction marks using List.reverseRecOn with
  | nil => simp [lookupId, markedPlaces]
  | append_singleton marks keep ih =>
    obtain ⟨size, next, lookup⟩ := ih
    rw [List.foldl_append, List.foldl_cons, List.foldl_nil, markedPlaces_append]
    generalize marks.foldl nextNumber (#[], 0) = state at size next lookup ⊢
    have last (c : Nat) : (markedPlaces marks)[c]? ≠ some marks.length := by
      rw [← size, Ne, ← lookup, lookupId_outside (Nat.le_refl _)]
      simp
    cases keep with
    | false =>
      refine ⟨by simp [nextNumber, size], by simp [nextNumber, next], fun i c => ?_⟩
      have := last c
      have := lookup i c
      have push := lookupId_push state.1 none i
      simp only [nextNumber, Bool.false_eq_true, if_false, List.append_nil, push, size]
      grind
    | true =>
      refine ⟨by simp [nextNumber, size], by simp [nextNumber, next], fun i c => ?_⟩
      have := last c
      have := lookup i c
      have push := lookupId_push state.1 (some state.2) i
      simp only [nextNumber, if_true, List.getElem?_append]
      rw [push, size, next]
      grind

theorem lookupId_renumber (marks : Array Bool) (i c : Nat) :
    lookupId (renumber marks) i = some c ↔ (markedPlaces marks.toList)[c]? = some i := by
  rw [renumber, ← Array.foldl_toList]
  exact (foldl_nextNumber marks.toList).2.2 i c

theorem markedPlaces_mark (size : Nat) (ids : List Nat) :
    markedPlaces (mark (Array.replicate size false) ids).toList =
      (List.range size).filter fun i => decide (i ∈ ids) := by
  have length : (mark (Array.replicate size false) ids).size = size := by
    have keep (marks : Array Bool) : (mark marks ids).size = marks.size := by
      unfold mark
      induction ids generalizing marks with
      | nil => rfl
      | cons i ids ih => rw [List.foldl_cons, ih, Array.size_setIfInBounds]
    rw [keep, Array.size_replicate]
  rw [markedPlaces, Array.length_toList, length]
  refine List.filter_congr fun i inside => ?_
  have marked := Digraph.getD_markAll size ids i
  rw [List.mem_range] at inside
  rw [Bool.eq_iff_iff]
  simp only [inside, and_true] at marked
  simpa [mark, Digraph.markAll, Array.getD_eq_getD_getElem?] using marked

theorem lookupId_places (is : List Nat) (size : Nat) (distinct : is.Nodup)
    (inside : ∀ i ∈ is, i < size) :
    let ids := (is.zip (List.range is.length)).foldl
      (fun ids (e : Nat × Nat) => ids.setIfInBounds e.1 (some e.2)) (Array.replicate size none)
    ids.size = size ∧ ∀ i j : Nat, lookupId ids i = some j ↔ is[j]? = some i := by
  induction is using List.reverseRecOn with
  | nil =>
    refine ⟨Array.size_replicate, fun i j => ?_⟩
    simp only [List.zip_nil_left, List.foldl_nil, lookupId, Array.getD_eq_getD_getElem?,
      Array.getElem?_replicate]
    split <;> simp
  | append_singleton is a ih =>
    have apart : a ∉ is := by
      rw [List.nodup_append] at distinct
      exact fun member => distinct.2.2 a member a (by simp) rfl
    obtain ⟨ids_size, lookup⟩ := ih (List.nodup_append.mp distinct).1
      fun i member => inside i (List.mem_append_left _ member)
    have zip : (is ++ [a]).zip (List.range (is ++ [a]).length) =
        is.zip (List.range is.length) ++ [(a, is.length)] := by
      rw [List.length_append, List.length_singleton, List.range_succ, List.zip_append (by simp)]
      rfl
    have a_inside := inside a (by simp)
    have absent (j : Nat) : is[j]? ≠ some a := fun found => apart (List.mem_of_getElem? found)
    simp only [zip, List.foldl_append, List.foldl_cons, List.foldl_nil]
    generalize (is.zip (List.range is.length)).foldl _ _ = ids at ids_size lookup ⊢
    refine ⟨by rw [Array.size_setIfInBounds, ids_size], fun i j => ?_⟩
    have := absent j
    have old := lookup i j
    simp only [lookupId, Array.getD_eq_getD_getElem?, Array.getElem?_setIfInBounds,
      List.getElem?_append] at old ⊢
    grind

/-- What is kept is numbered by its place among the kept ones. -/
def NumberedBy (number? : Nat → Option Nat) (kept : List Nat) : Prop :=
  ∀ a c : Nat, number? a = some c ↔ kept[c]? = some a

namespace NumberedBy

variable {number? : Nat → Option Nat} {kept : List Nat} (numbered : NumberedBy number? kept)
include numbered

theorem of_mem (member : a ∈ kept) :
    number? a = some ((number? a).getD a) ∧ kept[(number? a).getD a]? = some a := by
  obtain ⟨c, place⟩ := List.mem_iff_getElem?.mp member
  rw [(numbered a c).mpr place]
  exact ⟨rfl, place⟩

theorem lt_length (member : a ∈ kept) : (number? a).getD a < kept.length :=
  (List.getElem?_eq_some_iff.mp (numbered.of_mem member).2).1

theorem inj (a_member : a ∈ kept) (b_member : b ∈ kept)
    (same : (number? a).getD a = (number? b).getD b) : a = b := by
  have place := (numbered.of_mem a_member).2
  rw [same, (numbered.of_mem b_member).2] at place
  exact (Option.some.inj place).symm

theorem onto {c : Nat} (inside : c < kept.length) : ∃ a ∈ kept, (number? a).getD a = c := by
  have place : kept[c]? = some kept[c] := List.getElem?_eq_getElem inside
  refine ⟨kept[c], List.mem_of_getElem? place, ?_⟩
  rw [(numbered _ c).mpr place]
  rfl

theorem getD_map {α : Type} (f : Nat → α) (default : α) (member : a ∈ kept) :
    (kept.map f).toArray.getD ((number? a).getD a) default = f a := by
  simp [Array.getD_eq_getD_getElem?, (numbered.of_mem member).2]

end NumberedBy

variable (g : FlowGraph)

def keptBindings : List BindingId := g.bindingIds.filter fun v => decide (v ∈ g.referenced)

theorem mem_referenced {v : Nat} : v ∈ g.referenced ↔
    (∃ i ∈ g.keptInstrs, v ∈ (g.instr i).operands ∨ (g.instr i).target? = some v) ∨
      v ∈ g.header.ids ∨ v ∈ g.constants.keys ∨ v ∈ g.live.keys := by
  simp only [referenced, header, Header.ids, List.mem_append, List.mem_flatMap, Option.mem_toList,
    or_assoc]

theorem mem_keptBindings {v : Nat} :
    v ∈ g.keptBindings ↔ v < g.bindings.size ∧ v ∈ g.referenced := by
  simp [keptBindings, bindingIds]

theorem numberedBy_keptBindings : NumberedBy g.renumbering.binding? g.keptBindings := by
  intro v n
  rw [Renumbering.binding?, renumbering, lookupId_renumber, markedPlaces_mark]
  rfl

theorem numberedBy_keptBlocks : NumberedBy g.renumbering.block? g.keptBlocks := by
  intro b c
  have same : (List.range g.blocks.size).filter (fun b => decide (b ∈ g.keptBlocks)) =
      g.keptBlocks :=
    List.filter_congr fun b inside => by
      rw [List.mem_range] at inside
      simp [keptBlocks, inside]
  rw [Renumbering.block?, renumbering, lookupId_renumber, markedPlaces_mark, same]

/-- The six blocks that every graph has come first. -/
theorem keptBlocks_place (room : 6 ≤ g.blocks.size) (special : isDistinguished b = true) :
    g.keptBlocks[b]? = some b := by
  have small : b < 6 := Nat.lt_succ_of_le (of_decide_eq_true special)
  have first : g.keptBlocks = List.range 6 ++ (List.range' 6 (g.blocks.size - 6)).filter
      fun b => !(g.block b).removed || isDistinguished b := by
    have split : List.range g.blocks.size = List.range 6 ++ List.range' 6 (g.blocks.size - 6) := by
      rw [List.range_eq_range', List.range_eq_range']
      have := List.range'_append_1 (s := 0) (m := 6) (n := g.blocks.size - 6)
      rw [Nat.zero_add, Nat.add_sub_cancel' room] at this
      exact this.symm
    rw [keptBlocks, split, List.filter_append]
    congr 1
    refine List.filter_eq_self.mpr fun c inside => ?_
    rw [List.mem_range] at inside
    simp [isDistinguished, Nat.le_of_lt_succ inside]
  rw [first, List.getElem?_append_left (by simpa using small), List.getElem?_range small]

/-! Graphs that refer only to what is in them. -/

structure Closed (g : FlowGraph) : Prop extends Linked g where
  room : 6 ≤ g.blocks.size
  kept : ∀ b : Nat, isDistinguished b = true → (g.block b).removed = false
  bare : ∀ b, (g.block b).removed = true →
    (g.block b).instrs = [] ∧ g.succIds b = [] ∧ (g.block b).preds = []
  placed : ∀ b, ∀ i : Nat, i ∈ (g.block b).instrs → i < g.instrs.size ∧ g.blockOf i = b
  distinct : ∀ b, (g.block b).instrs.Nodup
  inScope : ∀ b, ∀ i : Nat, i ∈ (g.block b).instrs → (g.instr i).Within g.bindings.size

namespace Closed

variable {g : FlowGraph} (closed : g.Closed)
include closed

theorem target_live (edge : b ∈ g.succIds a) : b ∈ g.liveBlocks := by
  refine g.mem_liveBlocks.mpr ⟨closed.target_inside edge, ?_⟩
  by_contra gone
  have back := (closed.symm a b).mp edge
  rw [(closed.bare b (by simpa using gone)).2.2] at back
  cases back

theorem source_live (edge : b ∈ g.succIds a) : a ∈ g.liveBlocks := by
  refine g.mem_liveBlocks.mpr ⟨Linked.source_inside a b edge, ?_⟩
  by_contra gone
  rw [(closed.bare a (by simpa using gone)).2.1] at edge
  cases edge

theorem keptBlocks_eq : g.keptBlocks = g.liveBlocks :=
  List.filter_congr fun b _ => by
    cases special : isDistinguished b with
    | false => simp
    | true => simp [closed.kept b special]

theorem keptInstrs_eq : g.keptInstrs = g.allInstrs := by
  rw [keptInstrs, closed.keptBlocks_eq, allInstrs]

theorem distinct_allInstrs : g.allInstrs.Nodup := by
  refine List.nodup_flatMap.mpr ⟨fun b _ => closed.distinct b, ?_⟩
  refine (List.nodup_range.filter _).imp fun {a b} other i in_a in_b => other ?_
  exact (closed.placed a i in_a).2.symm.trans (closed.placed b i in_b).2

theorem numberedBy_liveBlocks : NumberedBy g.renumbering.block? g.liveBlocks :=
  closed.keptBlocks_eq ▸ g.numberedBy_keptBlocks

theorem numberedBy_allInstrs : NumberedBy g.renumbering.instr? g.allInstrs := by
  intro i j
  rw [Renumbering.instr?, renumbering, closed.keptInstrs_eq]
  refine (lookupId_places g.allInstrs g.instrs.size closed.distinct_allInstrs fun i member => ?_).2 i j
  obtain ⟨b, _, in_b⟩ := g.mem_allInstrs.mp member
  exact (closed.placed b i in_b).1

end Closed

/-! Copies. -/

/-- The graph `h` has the blocks, instructions and bindings of `g` that are kept, under the numbers
that `block`, `instr` and `binding` give them. -/
structure Copies (g h : FlowGraph) (β ι ν : Nat → Nat) : Prop where
  live : ∀ b : Nat, b ∈ g.liveBlocks → β b ∈ h.liveBlocks
  live_inj : ∀ a : Nat, a ∈ g.liveBlocks → ∀ b : Nat, b ∈ g.liveBlocks → β a = β b → a = b
  live_onto : ∀ c : Nat, c < h.blocks.size → ∃ b : Nat, b ∈ g.liveBlocks ∧ β b = c
  fixed : ∀ b : Nat, isDistinguished b = true → β b = b
  block : ∀ b : Nat, b ∈ g.liveBlocks → h.block (β b) =
    { g.block b with
      instrs := (g.block b).instrs.map ι
      succs := (g.block b).succs.map fun e => (β e.1, e.2)
      preds := (g.block b).preds.map β }
  instr : ∀ i : Nat, i ∈ g.allInstrs → ι i < h.instrs.size ∧
    h.instr (ι i) = (g.instr i).renumber β ν ∧ h.blockOf (ι i) = β (g.blockOf i)
  instr_inj : ∀ i : Nat, i ∈ g.allInstrs → ∀ j : Nat, j ∈ g.allInstrs → ι i = ι j → i = j
  instr_onto : ∀ j : Nat, j < h.instrs.size → ∃ i : Nat, i ∈ g.allInstrs ∧ ι i = j
  binding : ∀ v : Nat, v ∈ g.keptBindings → ν v < h.bindings.size ∧ ∃ definition uses,
    h.binding (ν v) = { g.binding v with definition, uses } ∧
      ∀ i : Nat, i ∈ g.allInstrs → (ι i ∈ uses ↔ i ∈ (g.binding v).uses)
  binding_inj : ∀ u : Nat, u ∈ g.keptBindings → ∀ v : Nat, v ∈ g.keptBindings → ν u = ν v → u = v
  binding_onto : ∀ n : Nat, n < h.bindings.size → ∃ v : Nat, v ∈ g.keptBindings ∧ ν v = n

namespace Renumbering

variable (r : Renumbering)

/-- A number that is not kept stays as it is. -/
def instrOr (i : InstrId) : InstrId := (r.instr? i).getD i

theorem instr_eq (x : Instr) : r.instr x = x.renumber r.blockOr r.bindingOr := by
  have operand : r.operand = Operand.mapBinding r.bindingOr := by
    funext o
    cases o <;> rfl
  rw [instr, Instr.renumber, operand]

end Renumbering

section Duplicate

variable {g : FlowGraph} (closed : g.Closed)
include closed

theorem Closed.blocks_duplicate :
    g.duplicate.blocks =
      (g.liveBlocks.map fun b => g.renumbering.copyBlock (g.block b)).toArray := by
  simp only [duplicate, closed.keptBlocks_eq]

theorem Closed.instrs_duplicate :
    g.duplicate.instrs =
      (g.allInstrs.map fun i =>
        Placed.mk (g.renumbering.instr (g.instr i)) (g.renumbering.blockOr (g.blockOf i))).toArray := by
  simp only [duplicate, closed.keptBlocks_eq, allInstrs, List.map_flatMap]
  congr 1
  refine List.flatMap_congr fun b _ => List.map_congr_left fun i member => ?_
  rw [(closed.placed b i member).2]

omit closed in
theorem bindings_duplicate :
    g.duplicate.bindings =
      (g.keptBindings.map fun v => g.renumbering.copyBinding (g.binding v)).toArray := by
  have same : g.bindingIds.filter (fun b => (g.renumbering.binding? b).isSome) = g.keptBindings := by
    refine List.filter_congr fun v inside => ?_
    rw [Bool.eq_iff_iff, decide_eq_true_iff, Option.isSome_iff_exists]
    have member : v ∈ g.keptBindings ↔ v ∈ g.referenced := by
      simp only [keptBindings, List.mem_filter, inside, true_and, decide_eq_true_iff]
    rw [← member, List.mem_iff_getElem?]
    exact exists_congr fun n => g.numberedBy_keptBindings v n
  simp only [duplicate, same]

/-- Edges lead to blocks that are kept. -/
theorem Closed.copyBlock_eq (live : b ∈ g.liveBlocks) :
    g.renumbering.copyBlock (g.block b) =
      { g.block b with
        instrs := (g.block b).instrs.map g.renumbering.instrOr
        succs := (g.block b).succs.map fun e => (g.renumbering.blockOr e.1, e.2)
        preds := (g.block b).preds.map g.renumbering.blockOr } := by
  have instrs : (g.block b).instrs.filterMap g.renumbering.instr? =
      (g.block b).instrs.map g.renumbering.instrOr := by
    rw [← List.filterMap_eq_map]
    refine List.filterMap_congr fun i member => ?_
    exact (closed.numberedBy_allInstrs.of_mem (g.mem_allInstrs.mpr ⟨b, live, member⟩)).1
  have succs : ((g.block b).succs.filterMap fun e => (g.renumbering.block? e.1).map (·, e.2)) =
      (g.block b).succs.map fun e => (g.renumbering.blockOr e.1, e.2) := by
    rw [← List.filterMap_eq_map]
    refine List.filterMap_congr fun e member => ?_
    rw [(closed.numberedBy_liveBlocks.of_mem (closed.target_live (List.mem_map_of_mem member))).1]
    rfl
  have preds : (g.block b).preds.filterMap g.renumbering.block? =
      (g.block b).preds.map g.renumbering.blockOr := by
    rw [← List.filterMap_eq_map]
    refine List.filterMap_congr fun a member => ?_
    exact (closed.numberedBy_liveBlocks.of_mem (closed.source_live ((closed.symm a b).mpr member))).1
  rw [Renumbering.copyBlock, instrs, succs, preds]

theorem Closed.block_duplicate (live : b ∈ g.liveBlocks) :
    g.duplicate.block (g.renumbering.blockOr b) = g.renumbering.copyBlock (g.block b) := by
  rw [block, closed.blocks_duplicate]
  exact closed.numberedBy_liveBlocks.getD_map _ _ live

theorem Closed.isDistinguished_place (special : isDistinguished b = true) :
    g.liveBlocks[b]? = some b :=
  closed.keptBlocks_eq ▸ g.keptBlocks_place closed.room special

theorem Closed.duplicate_copies :
    Copies g g.duplicate g.renumbering.blockOr g.renumbering.instrOr g.renumbering.bindingOr := by
  have blocks := closed.numberedBy_liveBlocks
  have instrs := closed.numberedBy_allInstrs
  have bindings := g.numberedBy_keptBindings
  have blocks_size : g.duplicate.blocks.size = g.liveBlocks.length := by
    simp [closed.blocks_duplicate]
  have instrs_size : g.duplicate.instrs.size = g.allInstrs.length := by
    simp [closed.instrs_duplicate]
  have bindings_size : g.duplicate.bindings.size = g.keptBindings.length := by
    simp [bindings_duplicate]
  refine ⟨?_, ?_, ?_, ?_, ?_, ?_, ?_, ?_, ?_, ?_, ?_⟩
  · intro b live
    refine g.duplicate.mem_liveBlocks.mpr ⟨blocks_size ▸ blocks.lt_length live, ?_⟩
    rw [closed.block_duplicate live]
    exact (g.mem_liveBlocks.mp live).2
  · exact fun a a_live b b_live => blocks.inj a_live b_live
  · exact fun c inside => blocks.onto (blocks_size ▸ inside)
  · intro b special
    rw [Renumbering.blockOr, (blocks b b).mpr (closed.isDistinguished_place special)]
    rfl
  · intro b live
    rw [closed.block_duplicate live, closed.copyBlock_eq live]
  · intro i member
    have entry : g.duplicate.instrs.getD (g.renumbering.instrOr i) default =
        ⟨g.renumbering.instr (g.instr i), g.renumbering.blockOr (g.blockOf i)⟩ := by
      rw [closed.instrs_duplicate]
      exact instrs.getD_map _ _ member
    refine ⟨instrs_size ▸ instrs.lt_length member, ?_, ?_⟩
    · rw [FlowGraph.instr, entry, Renumbering.instr_eq]
    · rw [blockOf, entry]
  · exact fun i i_member j j_member => instrs.inj i_member j_member
  · exact fun j inside => instrs.onto (instrs_size ▸ inside)
  · intro v member
    have entry : g.duplicate.binding (g.renumbering.bindingOr v) =
        g.renumbering.copyBinding (g.binding v) := by
      rw [binding, bindings_duplicate]
      exact bindings.getD_map _ _ member
    refine ⟨bindings_size ▸ bindings.lt_length member, _, _, entry, fun i i_member => ?_⟩
    obtain ⟨number, place⟩ := instrs.of_mem i_member
    rw [mem_foldl_insertNat, List.mem_filterMap]
    constructor
    · rintro (⟨j, used, found⟩ | none)
      · rw [instrs j, Renumbering.instrOr, place] at found
        exact Option.some.inj found ▸ used
      · cases none
    · exact fun used => .inl ⟨i, used, number⟩
  · exact fun u u_member v v_member => bindings.inj u_member v_member
  · exact fun n inside => bindings.onto (bindings_size ▸ inside)

end Duplicate

end ScriptFlow.FlowGraph
