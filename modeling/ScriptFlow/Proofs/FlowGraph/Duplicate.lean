import Mathlib.Data.Finset.Card
import Mathlib.Data.Set.Function
import ScriptFlow.FlowGraph.Text
import ScriptFlow.Proofs.FlowGraph.Compact
import ScriptFlow.Proofs.FlowGraph.Uses

/-! A copy of a graph is the graph under other numbers: numbers one to one, every table the image of
the original's, the same text, and nothing left for a second copy to do. -/

namespace ScriptFlow.FlowGraph

variable {b v : Nat}

/-! Graphs that can be copied. -/

/-- The numbers that stand in a graph are numbers of something in it, and names tell its blocks
apart. -/
structure Indexed (g : FlowGraph) : Prop where
  room : 6 ≤ g.blocks.size
  placed : ∀ b ∈ g.keptBlocks, ∀ i : Nat, i ∈ (g.block b).instrs →
    i < g.instrs.size ∧ g.blockOf i = b
  distinct : ∀ b ∈ g.keptBlocks, (g.block b).instrs.Nodup
  bindings : ∀ v : Nat, v ∈ g.referenced → v < g.bindings.size
  named : ∀ a ∈ g.liveBlocks, ∀ b ∈ g.liveBlocks, g.blockName a = g.blockName b → a = b

/-- Edges join blocks that are not removed, instructions name no others, and the records of
definitions and uses are up to date. -/
structure Orderly (g : FlowGraph) : Prop where
  succs : ∀ a : Nat, a < g.blocks.size → ∀ b ∈ g.succIds a, a ∈ g.liveBlocks ∧ b ∈ g.liveBlocks
  preds : ∀ b : Nat, b < g.blocks.size → ∀ a ∈ (g.block b).preds,
    a ∈ g.liveBlocks ∧ b ∈ g.liveBlocks
  names : ∀ i ∈ g.allInstrs, ∀ b ∈ (g.instr i).blocks, b ∈ g.liveBlocks
  records : g.rebuildUses = g

instance (g : FlowGraph) : Decidable g.Indexed :=
  decidable_of_iff (_ ∧ _ ∧ _ ∧ _ ∧ _)
    ⟨fun ⟨room, placed, distinct, bindings, named⟩ => ⟨room, placed, distinct, bindings, named⟩,
      fun ⟨room, placed, distinct, bindings, named⟩ => ⟨room, placed, distinct, bindings, named⟩⟩

instance (g : FlowGraph) : Decidable g.Orderly :=
  decidable_of_iff (_ ∧ _ ∧ _ ∧ _)
    ⟨fun ⟨succs, preds, names, records⟩ => ⟨succs, preds, names, records⟩,
      fun ⟨succs, preds, names, records⟩ => ⟨succs, preds, names, records⟩⟩

/-- The block with other numbers for blocks and instructions. -/
def renumberBlock (β ι : Nat → Nat) (b : Block) : Block :=
  { b with
    instrs := b.instrs.map ι
    succs := b.succs.map fun e => (β e.1, e.2)
    preds := b.preds.map β }

/-- The graph `h` is what is kept of `g` under the numbers that `β`, `ι` and `ν` give to blocks,
instructions and bindings. -/
structure Renames (g h : FlowGraph) (β ι ν : Nat → Nat) : Prop where
  blocks : Set.BijOn β {b | b ∈ g.keptBlocks} (Set.Iio h.blocks.size)
  instrs : Set.BijOn ι {i | i ∈ g.keptInstrs} (Set.Iio h.instrs.size)
  bindings : Set.BijOn ν {v | v ∈ g.referenced} (Set.Iio h.bindings.size)
  blocks_order : g.keptBlocks.map β = List.range h.blocks.size
  instrs_order : g.keptInstrs.map ι = List.range h.instrs.size
  fixed : ∀ b : Nat, isDistinguished b = true → β b = b
  block : ∀ b ∈ g.keptBlocks, h.block (β b) = renumberBlock β ι (g.block b)
  instr : ∀ i ∈ g.keptInstrs,
    h.instr (ι i) = (g.instr i).renumber β ν ∧ h.blockOf (ι i) = β (g.blockOf i)
  binding : ∀ v ∈ g.referenced, ∃ uses,
    h.binding (ν v) = { g.binding v with definition := (g.binding v).definition.map ι, uses } ∧
      uses.Pairwise (· < ·) ∧ uses.Perm ((g.binding v).uses.map ι)
  live : h.live.entries =
    g.live.entries.map fun e => (ν e.1, (e.2.filter (· ∈ g.keptBlocks)).map β)
  constants : h.constants.entries = g.constants.entries.map fun e => (ν e.1, e.2)
  selfRegister : h.selfRegister = g.selfRegister.map ν
  blockRegister : h.blockRegister = g.blockRegister.map ν
  finalReturn : h.finalReturn = g.finalReturn.map ν
  finalException : h.finalException = g.finalException.map ν
  formals : h.formals = g.formals.map fun f => (ν f.1, f.2)
  names : h.names = (g.keptBlocks.map fun b => ((g.block b).name, β b)).reverse

/-! Numbers. -/

namespace NumberedBy

variable {number? : Nat → Option Nat} {kept : List Nat} (numbered : NumberedBy number? kept)
include numbered

theorem bijOn : Set.BijOn (fun a => (number? a).getD a) {a | a ∈ kept} (Set.Iio kept.length) :=
  ⟨fun _ member => numbered.lt_length member, fun _ left _ right => numbered.inj left right,
    fun _ inside => numbered.onto inside⟩

theorem map_eq_range : kept.map (fun a => (number? a).getD a) = List.range kept.length := by
  refine List.ext_getElem (by simp) fun c inside _ => ?_
  rw [List.length_map] at inside
  simp [(numbered kept[c] c).mpr (List.getElem?_eq_getElem inside)]

theorem filterMap_eq_map {α γ : Type} {xs : List α} (key : α → Nat) (f : α → Nat → γ)
    (members : ∀ x ∈ xs, key x ∈ kept) :
    xs.filterMap (fun x => (number? (key x)).map (f x)) =
      xs.map fun x => f x ((number? (key x)).getD (key x)) := by
  rw [← List.filterMap_eq_map]
  refine List.filterMap_congr fun x member => ?_
  rw [(numbered.of_mem (members x member)).1]
  rfl

theorem filterMap_ids {xs : List Nat} (members : ∀ a ∈ xs, a ∈ kept) :
    xs.filterMap number? = xs.map fun a => (number? a).getD a := by
  rw [← List.filterMap_eq_map]
  exact List.filterMap_congr fun a member => (numbered.of_mem (members a member)).1

/-- What is not kept is left out. -/
theorem filterMap_filter (xs : List Nat) :
    xs.filterMap number? = (xs.filter (· ∈ kept)).map fun a => (number? a).getD a := by
  rw [← numbered.filterMap_ids fun a member => of_decide_eq_true (List.mem_filter.mp member).2,
    List.filterMap_filter]
  refine List.filterMap_congr fun a _ => ?_
  split
  · rfl
  · rename_i absent
    refine Option.eq_none_iff_forall_ne_some.mpr fun c number => absent ?_
    exact decide_eq_true (List.mem_of_getElem? ((numbered a c).mp number))

theorem bind_eq_map {x : Option Nat} (member : ∀ a, x = some a → a ∈ kept) :
    x.bind number? = x.map fun a => (number? a).getD a := by
  cases x with
  | none => rfl
  | some a => exact (numbered.of_mem (member a rfl)).1

end NumberedBy

theorem NumberedBy.of_range {number? : Nat → Option Nat} {n : Nat}
    (numbered : NumberedBy number? (List.range n)) (a : Nat) :
    (a < n → number? a = some a) ∧ (number? a).getD a = a := by
  by_cases inside : a < n
  · have number := (numbered a a).mpr (List.getElem?_range inside)
    exact ⟨fun _ => number, by rw [number]; rfl⟩
  · have none : number? a = none := by
      refine Option.eq_none_iff_forall_ne_some.mpr fun c number => inside ?_
      exact List.mem_range.mp (List.mem_of_getElem? ((numbered a c).mp number))
    exact ⟨fun holds => absurd holds inside, by rw [none]; rfl⟩

variable {g : FlowGraph}

theorem Orderly.edges (orderly : g.Orderly) (a b : Nat)
    (edge : b ∈ g.succIds a ∨ a ∈ (g.block b).preds) : a ∈ g.liveBlocks ∧ b ∈ g.liveBlocks := by
  rcases edge with edge | back
  · exact orderly.succs a (Linked.source_inside a b edge) b edge
  · exact orderly.preds b (g.inside_of_preds (List.ne_nil_of_mem back)) a back

theorem mem_keptBlocks_of_live (live : b ∈ g.liveBlocks) : b ∈ g.keptBlocks := by
  obtain ⟨inside, there⟩ := g.mem_liveBlocks.mp live
  simp [keptBlocks, inside, there]

theorem filter_keptBlocks : g.keptBlocks.filter (fun b => !(g.block b).removed) = g.liveBlocks := by
  rw [keptBlocks, List.filter_filter]
  refine List.filter_congr fun b _ => ?_
  cases (g.block b).removed <;> simp

theorem mem_keptInstrs {i : Nat} : i ∈ g.keptInstrs ↔ ∃ b ∈ g.keptBlocks, i ∈ (g.block b).instrs := by
  simp [keptInstrs]

theorem mem_keptInstrs_of_mem {i : Nat} (member : i ∈ g.allInstrs) : i ∈ g.keptInstrs := by
  obtain ⟨b, live, in_b⟩ := g.mem_allInstrs.mp member
  exact mem_keptInstrs.mpr ⟨b, mem_keptBlocks_of_live live, in_b⟩

namespace Indexed

variable (indexed : g.Indexed)
include indexed

theorem keptInstrs_nodup : g.keptInstrs.Nodup := by
  refine List.nodup_flatMap.mpr ⟨indexed.distinct, ?_⟩
  refine (List.nodup_range.filter _).pairwise_of_forall_ne fun a a_kept b b_kept other i in_a in_b => ?_
  exact other ((indexed.placed a a_kept i in_a).2.symm.trans (indexed.placed b b_kept i in_b).2)

theorem numberedBy_keptInstrs : NumberedBy g.renumbering.instr? g.keptInstrs := by
  intro i j
  rw [Renumbering.instr?, renumbering]
  refine (lookupId_places g.keptInstrs g.instrs.size indexed.keptInstrs_nodup fun i member => ?_).2 i j
  obtain ⟨b, kept, in_b⟩ := mem_keptInstrs.mp member
  exact (indexed.placed b kept i in_b).1

theorem mem_keptBindings_iff : v ∈ g.keptBindings ↔ v ∈ g.referenced := by
  rw [g.mem_keptBindings]
  exact ⟨And.right, fun member => ⟨indexed.bindings v member, member⟩⟩

/-! The parts of a copy. -/

theorem instrs_duplicate : g.duplicate.instrs = (g.keptInstrs.map fun i =>
    Placed.mk (g.renumbering.instr (g.instr i)) (g.renumbering.blockOr (g.blockOf i))).toArray := by
  simp only [duplicate, keptInstrs, List.map_flatMap]
  congr 1
  refine List.flatMap_congr fun b kept => List.map_congr_left fun i member => ?_
  rw [(indexed.placed b kept i member).2]

theorem size_duplicate : g.duplicate.blocks.size = g.keptBlocks.length ∧
    g.duplicate.instrs.size = g.keptInstrs.length ∧
    g.duplicate.bindings.size = g.keptBindings.length := by
  refine ⟨by simp [duplicate], ?_, ?_⟩
  · simp [indexed.instrs_duplicate]
  · simp [bindings_duplicate]

theorem live_duplicate : g.duplicate.live.entries = g.live.entries.map fun e =>
    (g.renumbering.bindingOr e.1, (e.2.filter (· ∈ g.keptBlocks)).map g.renumbering.blockOr) := by
  have blocks (bs : List BlockId) : bs.filterMap g.renumbering.block? =
      (bs.filter (· ∈ g.keptBlocks)).map g.renumbering.blockOr :=
    g.numberedBy_keptBlocks.filterMap_filter bs
  have entries := g.numberedBy_keptBindings.filterMap_eq_map Prod.fst
    (fun e v => (v, e.2.filterMap g.renumbering.block?)) fun e (member : e ∈ g.live.entries) =>
      indexed.mem_keptBindings_iff.mpr
        (g.mem_referenced.mpr (.inr (.inr (.inr (List.mem_map_of_mem member)))))
  refine Eq.trans entries ?_
  simp only [blocks, Renumbering.bindingOr]

variable (orderly : g.Orderly)
include orderly

theorem copyBlock_eq (kept : b ∈ g.keptBlocks) :
    g.renumbering.copyBlock (g.block b) =
      renumberBlock g.renumbering.blockOr g.renumbering.instrOr (g.block b) := by
  have instrs := indexed.numberedBy_keptInstrs.filterMap_ids
    fun i member => mem_keptInstrs.mpr ⟨b, kept, member⟩
  have succs := g.numberedBy_keptBlocks.filterMap_eq_map Prod.fst
    (fun (e : Nat × EdgeFlags) c => (c, e.2)) fun e member =>
      mem_keptBlocks_of_live (orderly.edges b e.1 (.inl (List.mem_map_of_mem member))).2
  have preds := g.numberedBy_keptBlocks.filterMap_ids
    fun a member => mem_keptBlocks_of_live (orderly.edges a b (.inr member)).1
  rw [Renumbering.copyBlock, instrs, succs, preds]
  rfl

theorem block_duplicate (kept : b ∈ g.keptBlocks) :
    g.duplicate.block (g.renumbering.blockOr b) =
      renumberBlock g.renumbering.blockOr g.renumbering.instrOr (g.block b) :=
  (g.numberedBy_keptBlocks.getD_map _ _ kept).trans (indexed.copyBlock_eq orderly kept)

/-- Definitions and uses are instructions of blocks that are not removed. -/
theorem binding_duplicate (member : v ∈ g.referenced) : ∃ uses,
    g.duplicate.binding (g.renumbering.bindingOr v) =
        { g.binding v with
          definition := (g.binding v).definition.map g.renumbering.instrOr, uses } ∧
      uses.Pairwise (· < ·) ∧ uses.Perm ((g.binding v).uses.map g.renumbering.instrOr) := by
  have entry : g.duplicate.binding (g.renumbering.bindingOr v) =
      g.renumbering.copyBinding (g.binding v) := by
    rw [FlowGraph.binding, bindings_duplicate]
    exact g.numberedBy_keptBindings.getD_map _ _ (indexed.mem_keptBindings_iff.mpr member)
  obtain ⟨definition, ascend, uses⟩ :=
    rebuildUses_eq_self_iff.mp orderly.records v (indexed.bindings v member)
  have numbered := indexed.numberedBy_keptInstrs
  have defined : (g.binding v).definition.bind g.renumbering.instr? =
      (g.binding v).definition.map g.renumbering.instrOr := by
    refine numbered.bind_eq_map fun i is => mem_keptInstrs_of_mem ?_
    rw [definition] at is
    exact (List.mem_filter.mp (List.mem_of_getLast? is)).1
  have used : (g.binding v).uses.filterMap g.renumbering.instr? =
      (g.binding v).uses.map g.renumbering.instrOr :=
    numbered.filterMap_ids fun i member => mem_keptInstrs_of_mem ((uses i).mp member).1
  have sorted : (((g.binding v).uses.map g.renumbering.instrOr).foldl
      (fun us i => insertNat i us) []).Pairwise (· < ·) := foldl_insertNat_sorted List.Pairwise.nil
  refine ⟨_, ?_, sorted, ?_⟩
  · rw [entry, Renumbering.copyBinding, defined, used]
  · refine (List.perm_ext_iff_of_nodup ?_ ?_).mpr fun j => ?_
    · exact sorted.imp Nat.ne_of_lt
    · refine List.Nodup.map_on (fun i i_in j j_in => ?_) (ascend.imp Nat.ne_of_lt)
      exact numbered.inj (mem_keptInstrs_of_mem ((uses i).mp i_in).1)
        (mem_keptInstrs_of_mem ((uses j).mp j_in).1)
    · rw [mem_foldl_insertNat, or_iff_left List.not_mem_nil]

theorem renames_duplicate : Renames g g.duplicate g.renumbering.blockOr g.renumbering.instrOr
    g.renumbering.bindingOr := by
  obtain ⟨blocks, instrs, bindings⟩ := indexed.size_duplicate
  have numbered := g.numberedBy_keptBindings
  have kept {v : Nat} (member : v ∈ g.referenced) := indexed.mem_keptBindings_iff.mpr member
  have register {x : Option Nat} (held : ∀ v, x = some v → v ∈ g.header.ids) :
      x.bind g.renumbering.binding? = x.map g.renumbering.bindingOr :=
    numbered.bind_eq_map fun v is => kept (g.mem_referenced.mpr (.inr (.inl (held v is))))
  refine ⟨blocks ▸ g.numberedBy_keptBlocks.bijOn, instrs ▸ indexed.numberedBy_keptInstrs.bijOn, ?_,
    blocks ▸ g.numberedBy_keptBlocks.map_eq_range,
    instrs ▸ indexed.numberedBy_keptInstrs.map_eq_range, fun b special => ?_,
    fun b => indexed.block_duplicate orderly, fun i member => ?_,
    fun v => indexed.binding_duplicate orderly, ?_, ?_, register ?_, register ?_, register ?_,
    register ?_, ?_, rfl⟩
  · rw [bindings]
    have bij := numbered.bijOn
    simp only [indexed.mem_keptBindings_iff] at bij
    exact bij
  · rw [Renumbering.blockOr, (g.numberedBy_keptBlocks b b).mpr (g.keptBlocks_place indexed.room special)]
    rfl
  · have entry : g.duplicate.instrs.getD (g.renumbering.instrOr i) default =
        ⟨g.renumbering.instr (g.instr i), g.renumbering.blockOr (g.blockOf i)⟩ := by
      rw [indexed.instrs_duplicate]
      exact indexed.numberedBy_keptInstrs.getD_map _ _ member
    constructor
    · rw [FlowGraph.instr, entry, Renumbering.instr_eq]
    · rw [blockOf, entry]
  · exact indexed.live_duplicate
  · exact numbered.filterMap_eq_map Prod.fst (fun e v => (v, e.2)) fun e member =>
      kept (g.mem_referenced.mpr (.inr (.inr (.inl (List.mem_map_of_mem member)))))
  · simp +contextual [header, Header.ids]
  · simp +contextual [header, Header.ids]
  · simp +contextual [header, Header.ids]
  · simp +contextual [header, Header.ids]
  · refine numbered.filterMap_eq_map Prod.fst (fun f v => (v, f.2)) fun f member =>
      kept (g.mem_referenced.mpr (.inr (.inl ?_)))
    exact List.mem_append_right _ (List.mem_map_of_mem member)

end Indexed

/-! A copy meets what was asked of the original. -/

namespace Renames

variable {h : FlowGraph} {β ι ν : Nat → Nat} (renames : Renames g h β ι ν)
include renames


theorem keptBlocks_copy : h.keptBlocks = g.keptBlocks.map β := by
  rw [keptBlocks, ← renames.blocks_order, List.filter_eq_self]
  intro c member
  obtain ⟨b, kept, rfl⟩ := List.mem_map.mp member
  have stays := (List.mem_filter.mp kept).2
  rw [renames.block b kept, renumberBlock]
  cases special : isDistinguished b with
  | true => rw [renames.fixed b special, special, Bool.or_true]
  | false =>
    rw [special, Bool.or_false] at stays
    rw [stays, Bool.true_or]

theorem liveBlocks_copy : h.liveBlocks = g.liveBlocks.map β := by
  rw [liveBlocks, ← renames.blocks_order, List.filter_map, ← filter_keptBlocks]
  refine congrArg _ (List.filter_congr fun b kept => ?_)
  rw [Function.comp_apply, renames.block b kept, renumberBlock]

theorem flatMap_instrs_copy {bs : List BlockId} (kept : ∀ b ∈ bs, b ∈ g.keptBlocks) :
    ((bs.map β).flatMap fun b => (h.block b).instrs) =
      (bs.flatMap fun b => (g.block b).instrs).map ι := by
  rw [List.flatMap_map, List.map_flatMap]
  refine List.flatMap_congr fun b member => ?_
  rw [renames.block b (kept b member), renumberBlock]

theorem keptInstrs_copy : h.keptInstrs = g.keptInstrs.map ι := by
  rw [keptInstrs, renames.keptBlocks_copy]
  exact renames.flatMap_instrs_copy fun _ kept => kept

theorem allInstrs_copy : h.allInstrs = g.allInstrs.map ι := by
  rw [allInstrs, renames.liveBlocks_copy]
  exact renames.flatMap_instrs_copy fun _ => mem_keptBlocks_of_live

theorem mem_referenced_copy {n : Nat} : n ∈ h.referenced ↔ ∃ v ∈ g.referenced, ν v = n := by
  have ids : h.header.ids = g.header.ids.map ν := by
    simp only [header, Header.ids, renames.selfRegister, renames.blockRegister,
      renames.finalReturn, renames.finalException, renames.formals, List.map_append, List.map_map,
      Option.toList_map]
    rfl
  have constants : h.constants.keys = g.constants.keys.map ν := by
    simp only [Dict.keys, renames.constants, List.map_map]
    rfl
  have live : h.live.keys = g.live.keys.map ν := by
    simp only [Dict.keys, renames.live, List.map_map]
    rfl
  have instrs : (∃ j ∈ h.keptInstrs, n ∈ (h.instr j).operands ∨
      (h.instr j).target? = some n) ↔
      ∃ v, (∃ i ∈ g.keptInstrs, v ∈ (g.instr i).operands ∨ (g.instr i).target? = some v) ∧
        ν v = n := by
    rw [renames.keptInstrs_copy]
    constructor
    · rintro ⟨j, member, referred⟩
      obtain ⟨i, kept, rfl⟩ := List.mem_map.mp member
      rw [(renames.instr i kept).1, Instr.operands_renumber, Instr.target?_renumber, List.mem_map,
        Option.map_eq_some_iff] at referred
      rcases referred with ⟨v, reads, same⟩ | ⟨v, writes, same⟩
      · exact ⟨v, ⟨i, kept, .inl reads⟩, same⟩
      · exact ⟨v, ⟨i, kept, .inr writes⟩, same⟩
    · rintro ⟨v, ⟨i, kept, referred⟩, rfl⟩
      refine ⟨_, List.mem_map_of_mem kept, ?_⟩
      rw [(renames.instr i kept).1, Instr.operands_renumber, Instr.target?_renumber]
      exact referred.imp List.mem_map_of_mem fun writes => by rw [writes]; rfl
  simp only [mem_referenced, ids, constants, live, instrs, List.mem_map, or_and_right, exists_or]

theorem indexed_copy (indexed : g.Indexed) : h.Indexed := by
  have blocks := renames.keptBlocks_copy
  refine ⟨?_, ?_, ?_, ?_, ?_⟩
  · have last : (5 : Nat) ∈ g.keptBlocks := List.mem_of_getElem? (g.keptBlocks_place indexed.room rfl)
    have inside := renames.blocks.mapsTo last
    rw [renames.fixed 5 rfl] at inside
    exact inside
  · rw [blocks]
    intro c member j in_c
    obtain ⟨b, kept, rfl⟩ := List.mem_map.mp member
    rw [renames.block b kept] at in_c
    obtain ⟨i, in_b, rfl⟩ := List.mem_map.mp in_c
    have i_kept := mem_keptInstrs.mpr ⟨b, kept, in_b⟩
    refine ⟨renames.instrs.mapsTo i_kept, ?_⟩
    rw [(renames.instr i i_kept).2, (indexed.placed b kept i in_b).2]
  · rw [blocks]
    intro c member
    obtain ⟨b, kept, rfl⟩ := List.mem_map.mp member
    rw [renames.block b kept]
    refine (indexed.distinct b kept).map_on fun i in_b j in_b' same => ?_
    exact renames.instrs.injOn (mem_keptInstrs.mpr ⟨b, kept, in_b⟩)
      (mem_keptInstrs.mpr ⟨b, kept, in_b'⟩) same
  · intro n member
    obtain ⟨v, referred, rfl⟩ := (renames.mem_referenced_copy).mp member
    exact renames.bindings.mapsTo referred
  · rw [renames.liveBlocks_copy]
    intro c member d member' same
    obtain ⟨a, a_live, rfl⟩ := List.mem_map.mp member
    obtain ⟨b, b_live, rfl⟩ := List.mem_map.mp member'
    rw [blockName, blockName, renames.block a (mem_keptBlocks_of_live a_live),
      renames.block b (mem_keptBlocks_of_live b_live)] at same
    rw [indexed.named a a_live b b_live same]

theorem orderly_copy (indexed : g.Indexed) (orderly : g.Orderly) : h.Orderly := by
  have live := renames.liveBlocks_copy
  refine ⟨?_, ?_, ?_, rebuildUses_eq_self_iff.mpr ?_⟩
  · intro c inside d edge
    obtain ⟨a, kept, rfl⟩ := renames.blocks.surjOn inside
    rw [succIds, renames.block a kept, renumberBlock, List.map_map] at edge
    obtain ⟨e, member, rfl⟩ := List.mem_map.mp edge
    have ends := orderly.edges a e.1 (.inl (List.mem_map_of_mem member))
    rw [live]
    exact ⟨List.mem_map_of_mem ends.1, List.mem_map_of_mem ends.2⟩
  · intro d inside c back
    obtain ⟨b, kept, rfl⟩ := renames.blocks.surjOn inside
    rw [renames.block b kept] at back
    obtain ⟨a, member, rfl⟩ := List.mem_map.mp back
    have ends := orderly.edges a b (.inr member)
    rw [live]
    exact ⟨List.mem_map_of_mem ends.1, List.mem_map_of_mem ends.2⟩
  · rw [live, renames.allInstrs_copy]
    intro j member c named
    obtain ⟨i, in_all, rfl⟩ := List.mem_map.mp member
    rw [(renames.instr i (mem_keptInstrs_of_mem in_all)).1, Instr.blocks_renumber] at named
    obtain ⟨b, names, rfl⟩ := List.mem_map.mp named
    exact List.mem_map_of_mem (orderly.names i in_all b names)
  · intro n inside
    obtain ⟨v, referred, rfl⟩ := renames.bindings.surjOn inside
    obtain ⟨uses, entry, ascend, perm⟩ := renames.binding v referred
    obtain ⟨definition, -, used⟩ :=
      rebuildUses_eq_self_iff.mp orderly.records v (indexed.bindings v referred)
    have referred_of {i u : Nat} (in_all : i ∈ g.allInstrs)
        (there : u ∈ (g.instr i).operands ∨ (g.instr i).target? = some u) : u ∈ g.referenced :=
      g.mem_referenced.mpr (.inl ⟨i, mem_keptInstrs_of_mem in_all, there⟩)
    rw [entry, renames.allInstrs_copy]
    refine ⟨?_, ascend, fun j => ?_⟩
    · change (g.binding v).definition.map ι = _
      rw [definition, List.filter_map, List.getLast?_map]
      congr 2
      refine List.filter_congr fun i in_all => ?_
      rw [Function.comp_apply, (renames.instr i (mem_keptInstrs_of_mem in_all)).1,
        Instr.target?_renumber, decide_eq_decide, Option.map_eq_some_iff]
      constructor
      · exact fun target => ⟨v, target, rfl⟩
      · rintro ⟨u, target, same⟩
        rw [target, renames.bindings.injOn (referred_of in_all (.inr target)) referred same]
    · change j ∈ uses ↔ _
      rw [perm.mem_iff, List.mem_map, List.mem_map]
      constructor
      · rintro ⟨i, member, rfl⟩
        obtain ⟨in_all, reads⟩ := (used i).mp member
        refine ⟨⟨i, in_all, rfl⟩, ?_⟩
        rw [(renames.instr i (mem_keptInstrs_of_mem in_all)).1, Instr.operands_renumber]
        exact List.mem_map_of_mem reads
      · rintro ⟨⟨i, in_all, rfl⟩, reads⟩
        rw [(renames.instr i (mem_keptInstrs_of_mem in_all)).1, Instr.operands_renumber] at reads
        obtain ⟨u, reads, same⟩ := List.mem_map.mp reads
        have eq := renames.bindings.injOn (referred_of in_all (.inl reads)) referred same
        exact ⟨i, (used i).mpr ⟨in_all, eq ▸ reads⟩, rfl⟩

/-! A copy reads the same. -/

omit renames in
theorem paramText_mapOperands {q : Param}
    (same : ∀ o ∈ q.operands, h.operandText (o.mapBinding ν) = g.operandText o) :
    h.paramText (q.mapOperands (Operand.mapBinding ν)) = g.paramText q := by
  cases q with
  | argument i => exact congrArg ("argument(" ++ · ++ ")") (same i (.head _))
  | argumentRange s n =>
    exact congrArg₂ ("argument_range(" ++ · ++ ", " ++ · ++ ")") (same s (.head _))
      (same n (.tail _ (.head _)))
  | responds v m => exact congrArg ("responds(" ++ · ++ ", " ++ m ++ ")") (same v (.head _))
  | _ => rfl

omit renames in
theorem callText_renumber {s : CallSite}
    (operands : ∀ o ∈ s.operands, h.operandText (o.mapBinding ν) = g.operandText o)
    (target : ∀ v, s.target = some v → h.bindingName (ν v) = g.bindingName v) :
    h.textOf ((Instr.call s).renumber β ν) = g.textOf (.call s) := by
  simp only [CallSite.operands, List.cons_append, List.mem_cons, List.mem_append,
    Option.mem_toList] at operands
  have args : (s.args.map (Operand.mapBinding ν)).map (fun a => ", " ++ h.operandText a) =
      s.args.map fun a => ", " ++ g.operandText a := by
    rw [List.map_map]
    refine List.map_congr_left fun o member => ?_
    rw [Function.comp_apply, operands o (.inr (.inl member))]
  have target : (s.target.map ν).map h.bindingName = s.target.map g.bindingName := by
    rw [Option.map_map]
    exact Option.map_congr fun v is => target v is
  have block : (s.block.map (Operand.mapBinding ν)).map (fun b => ", &" ++ h.operandText b) =
      s.block.map fun b => ", &" ++ g.operandText b := by
    rw [Option.map_map]
    refine Option.map_congr fun o is => ?_
    rw [Function.comp_apply, operands o (.inr (.inr is))]
  change callWord s.kind ++ " " ++ ((s.target.map ν).map h.bindingName).getD "_" ++ ", " ++
    h.operandText (s.receiver.mapBinding ν) ++ ", " ++ s.method ++
    String.join ((s.args.map (Operand.mapBinding ν)).map fun a => ", " ++ h.operandText a) ++
    ((s.block.map (Operand.mapBinding ν)).map fun b => ", &" ++ h.operandText b).getD "" = _
  rw [args, target, block, operands s.receiver (.inl rfl)]
  rfl

omit renames in
/-- The text of an instruction shows the names of blocks and bindings, not their numbers. -/
theorem textOf_renumber {x : Instr} (blocks : ∀ b ∈ x.blocks, h.blockName (β b) = g.blockName b)
    (operands : ∀ v ∈ x.operands, h.bindingName (ν v) = g.bindingName v)
    (target : ∀ v, x.target? = some v → h.bindingName (ν v) = g.bindingName v) :
    h.textOf (x.renumber β ν) = g.textOf x := by
  have slots (plain : x.isPhi = false) :
      ∀ o ∈ x.slots, h.operandText (o.mapBinding ν) = g.operandText o := by
    intro o member
    cases o with
    | binding v => exact operands v ((Instr.mem_operands_of_plain plain).mpr member)
    | const c => rfl
  cases x with
  | phi t os =>
    have texts : (os.map fun o => (β o.1, ν o.2)).map
          (fun o => ", [" ++ h.blockName o.1 ++ ": " ++ h.bindingName o.2 ++ "]") =
        os.map fun o => ", [" ++ g.blockName o.1 ++ ": " ++ g.bindingName o.2 ++ "]" := by
      rw [List.map_map]
      refine List.map_congr_left fun o member => ?_
      rw [Function.comp_apply, blocks o.1 (List.mem_map_of_mem member),
        operands o.2 (List.mem_map_of_mem member)]
    rw [Instr.renumber_phi]
    exact congrArg₂ (fun name texts => "phi " ++ name ++ String.join texts) (target t rfl) texts
  | call s => exact callText_renumber (slots rfl) target
  | param t q frame =>
    exact congrArg₂ ("param " ++ · ++ ", " ++ ·) (target t rfl) (paramText_mapOperands (slots rfl))
  | declare d =>
    cases d with
    | expectSize test size o =>
      exact congrArg
        ("declare expect_tuple_size " ++ sizeTestText test ++ " " ++ toString size ++ ", " ++ ·)
        (slots rfl o (.head _))
    | «alias» o v =>
      exact congrArg₂ ("declare alias " ++ · ++ ", " ++ ·) (slots rfl o (.head _))
        (slots rfl v (.tail _ (.head _)))
  | jump b => exact congrArg ("jump " ++ ·) (blocks b (.head _))
  | branch o yes no =>
    have first := congrArg₂ ("branch " ++ · ++ ", " ++ · ++ ", ") (slots rfl o (.head _))
      (blocks yes (.head _))
    exact congrArg₂ (· ++ ·) first (blocks no (.tail _ (.head _)))
  | assign t o =>
    exact congrArg₂ ("assign " ++ · ++ ", " ++ ·) (target t rfl) (slots rfl o (.head _))
  | returnWith o => exact congrArg ("return " ++ ·) (slots rfl o (.head _))
  | raise o => exact congrArg ("raise " ++ ·) (slots rfl o (.head _))
  | storeGlobal name o =>
    exact congrArg ("store_global " ++ name ++ ", " ++ ·) (slots rfl o (.head _))

theorem blockName_copy (kept : b ∈ g.keptBlocks) : h.blockName (β b) = g.blockName b := by
  rw [blockName, renames.block b kept]
  rfl

theorem bindingName_copy (referred : v ∈ g.referenced) : h.bindingName (ν v) = g.bindingName v := by
  obtain ⟨uses, entry, -⟩ := renames.binding v referred
  rw [bindingName, entry]
  rfl

theorem instrText_copy (orderly : g.Orderly) {i : Nat} (member : i ∈ g.allInstrs) :
    h.instrText (ι i) = g.instrText i := by
  have kept := mem_keptInstrs_of_mem member
  rw [instrText, (renames.instr i kept).1]
  refine textOf_renumber (fun b named => ?_) (fun v reads => ?_) fun v writes => ?_
  · exact renames.blockName_copy (mem_keptBlocks_of_live (orderly.names i member b named))
  · exact renames.bindingName_copy (g.mem_referenced.mpr (.inl ⟨i, kept, .inl reads⟩))
  · exact renames.bindingName_copy (g.mem_referenced.mpr (.inl ⟨i, kept, .inr writes⟩))

theorem find_copy (indexed : g.Indexed) (live : b ∈ g.liveBlocks) :
    (h.liveBlocks.find? fun c => h.blockName c == g.blockName b) = some (β b) := by
  rw [renames.liveBlocks_copy]
  have found : ((g.liveBlocks.map β).find? fun c => h.blockName c == g.blockName b).isSome = true := by
    rw [List.find?_isSome]
    refine ⟨β b, List.mem_map_of_mem live, ?_⟩
    rw [renames.blockName_copy (mem_keptBlocks_of_live live), beq_self_eq_true]
  obtain ⟨c, is⟩ := Option.isSome_iff_exists.mp found
  obtain ⟨a, a_live, rfl⟩ := List.mem_map.mp (List.mem_of_find?_eq_some is)
  have name := List.find?_some is
  rw [beq_iff_eq, renames.blockName_copy (mem_keptBlocks_of_live a_live)] at name
  rw [is, indexed.named b live a a_live name.symm]

theorem sameStructure_copy (indexed : g.Indexed) (orderly : g.Orderly) :
    g.sameStructure h = true := by
  have length : (g.liveBlocks.length == h.liveBlocks.length) = true := by
    rw [renames.liveBlocks_copy, List.length_map, beq_self_eq_true]
  rw [sameStructure, length, Bool.true_and, List.all_eq_true]
  intro b live
  have kept := mem_keptBlocks_of_live live
  have texts : g.blockTexts b = h.blockTexts (β b) := by
    rw [blockTexts, blockTexts, renames.block b kept, renumberBlock, List.map_map]
    refine List.map_congr_left fun i member => (renames.instrText_copy orderly ?_).symm
    exact g.mem_allInstrs.mpr ⟨b, live, member⟩
  have edges : g.namedEdges b = h.namedEdges (β b) := by
    rw [namedEdges, namedEdges, renames.block b kept, renumberBlock, List.map_map]
    refine List.map_congr_left fun e member => ?_
    have target := (orderly.edges b e.1 (.inl (List.mem_map_of_mem member))).2
    rw [Function.comp_apply, renames.blockName_copy (mem_keptBlocks_of_live target)]
  rw [renames.find_copy indexed live, Option.any_some, ← texts, ← edges]
  simp [sameElements]

end Renames

/-! A graph without gaps in its numbers is its own copy. -/

/-- Every number below the sizes is in use, in the order of the blocks, and remarks on the graph
use no others. -/
structure Dense (g : FlowGraph) : Prop where
  blocks : g.keptBlocks = List.range g.blocks.size
  instrs : g.keptInstrs = List.range g.instrs.size
  bindings : g.keptBindings = List.range g.bindings.size
  live : ∀ e ∈ g.live.entries, ∀ b ∈ e.2, b < g.blocks.size
  findings : ∀ f ∈ g.findings, (∀ b ∈ f.block, b < g.blocks.size) ∧
    ∀ i ∈ f.instr, i < g.instrs.size
  names : g.names = (g.keptBlocks.map fun b => ((g.block b).name, b)).reverse

theorem filterMap_eq_self {α : Type} {f : α → Option α} {xs : List α}
    (same : ∀ x ∈ xs, f x = some x) : xs.filterMap f = xs := by
  rw [List.filterMap_congr same]
  exact List.filterMap_some

theorem bind_eq_self {f : Nat → Option Nat} {x : Option Nat}
    (same : ∀ a ∈ x, f a = some a) : x.bind f = x := by
  cases x with
  | none => rfl
  | some a => exact same a rfl

theorem map_getD_range {α : Type} (xs : Array α) (default : α) :
    ((List.range xs.size).map fun i => xs.getD i default).toArray = xs := by
  refine Array.ext (by simp) fun i inside _ => ?_
  have bound : i < xs.size := by simpa using inside
  simp [Array.getD_eq_getD_getElem?, bound]

theorem foldl_insertNat_eq_self {ns : List Nat} (sorted : ns.Pairwise (· < ·)) :
    ns.foldl (fun us i => insertNat i us) [] = ns := by
  refine (foldl_insertNat_sorted List.Pairwise.nil).eq_of_mem_iff sorted fun i => ?_
  rw [mem_foldl_insertNat, or_iff_left List.not_mem_nil]

namespace Dense

variable (dense : g.Dense) (indexed : g.Indexed)
include dense indexed

theorem numbers :
    (∀ b : Nat, b < g.blocks.size → g.renumbering.block? b = some b) ∧
    (∀ i : Nat, i < g.instrs.size → g.renumbering.instr? i = some i) ∧
    (∀ v : Nat, v ∈ g.referenced → g.renumbering.binding? v = some v) ∧
    g.renumbering.blockOr = id ∧ g.renumbering.bindingOr = id := by
  have block := (dense.blocks ▸ g.numberedBy_keptBlocks).of_range
  have instr := (dense.instrs ▸ indexed.numberedBy_keptInstrs).of_range
  have binding := (dense.bindings ▸ g.numberedBy_keptBindings).of_range
  exact ⟨fun b => (block b).1, fun i => (instr i).1,
    fun v member => (binding v).1 (indexed.bindings v member), funext fun b => (block b).2,
    funext fun v => (binding v).2⟩

variable (orderly : g.Orderly)
include orderly

theorem copyBlock_eq_self (inside : b < g.blocks.size) :
    g.renumbering.copyBlock (g.block b) = g.block b := by
  obtain ⟨block, instr, -⟩ := dense.numbers indexed
  have kept : b ∈ g.keptBlocks := dense.blocks ▸ List.mem_range.mpr inside
  have instrs : (g.block b).instrs.filterMap g.renumbering.instr? = (g.block b).instrs :=
    filterMap_eq_self fun i member => instr i (indexed.placed b kept i member).1
  have succs : ((g.block b).succs.filterMap fun e => (g.renumbering.block? e.1).map (·, e.2)) =
      (g.block b).succs :=
    filterMap_eq_self fun e member => by
      have target := (orderly.edges b e.1 (.inl (List.mem_map_of_mem member))).2
      rw [block e.1 (g.mem_liveBlocks.mp target).1]
      rfl
  have preds : (g.block b).preds.filterMap g.renumbering.block? = (g.block b).preds :=
    filterMap_eq_self fun a member =>
      block a (g.mem_liveBlocks.mp (orderly.edges a b (.inr member)).1).1
  rw [Renumbering.copyBlock, instrs, succs, preds]

theorem copyBinding_eq_self (inside : v < g.bindings.size) :
    g.renumbering.copyBinding (g.binding v) = g.binding v := by
  obtain ⟨-, number, -⟩ := dense.numbers indexed
  have instr {i : Nat} (member : i ∈ g.allInstrs) : g.renumbering.instr? i = some i :=
    number i (List.mem_range.mp (dense.instrs ▸ mem_keptInstrs_of_mem member))
  obtain ⟨last, ascend, used⟩ := rebuildUses_eq_self_iff.mp orderly.records v inside
  have definition : (g.binding v).definition.bind g.renumbering.instr? = (g.binding v).definition :=
    bind_eq_self fun i is => by
      rw [last] at is
      exact instr (List.mem_filter.mp (List.mem_of_getLast? is)).1
  have uses : (g.binding v).uses.filterMap g.renumbering.instr? = (g.binding v).uses :=
    filterMap_eq_self fun i member => instr ((used i).mp member).1
  rw [Renumbering.copyBinding, definition, uses, foldl_insertNat_eq_self ascend]

theorem duplicate_eq_self : g.duplicate = g := by
  obtain ⟨block, instr, binding, blockOr, bindingOr⟩ := dense.numbers indexed
  have blocks : (g.keptBlocks.map fun b => g.renumbering.copyBlock (g.block b)).toArray =
      g.blocks := by
    rw [dense.blocks, List.map_congr_left fun b member =>
      dense.copyBlock_eq_self indexed orderly (List.mem_range.mp member)]
    exact map_getD_range g.blocks default
  have names : (g.keptBlocks.map fun b => ((g.block b).name, g.renumbering.blockOr b)).reverse =
      g.names := by
    rw [blockOr, dense.names]
    rfl
  have instrs : g.duplicate.instrs = g.instrs := by
    rw [indexed.instrs_duplicate, dense.instrs]
    simp only [Renumbering.instr_eq, blockOr, bindingOr, Instr.renumber_id]
    exact map_getD_range g.instrs default
  have bindings : g.duplicate.bindings = g.bindings := by
    rw [bindings_duplicate, dense.bindings, List.map_congr_left fun v member =>
      dense.copyBinding_eq_self indexed orderly (List.mem_range.mp member)]
    exact map_getD_range g.bindings default
  have register {x : Option Nat} (held : ∀ v ∈ x, v ∈ g.header.ids) :
      x.bind g.renumbering.binding? = x :=
    bind_eq_self fun v is => binding v (g.mem_referenced.mpr (.inr (.inl (held v is))))
  have formals : (g.formals.filterMap fun f => (g.renumbering.binding? f.1).map (·, f.2)) =
      g.formals := by
    refine filterMap_eq_self fun f member => ?_
    have held : f.1 ∈ g.header.ids := List.mem_append_right _ (List.mem_map_of_mem member)
    rw [binding f.1 (g.mem_referenced.mpr (.inr (.inl held)))]
    rfl
  have live : (g.live.entries.filterMap fun e =>
      (g.renumbering.binding? e.1).map (·, e.2.filterMap g.renumbering.block?)) = g.live.entries := by
    refine filterMap_eq_self fun e member => ?_
    rw [binding e.1 (g.mem_referenced.mpr (.inr (.inr (.inr (List.mem_map_of_mem member))))),
      filterMap_eq_self fun b inside => block b (dense.live e member b inside)]
    rfl
  have constants : (g.constants.entries.filterMap fun e =>
      (g.renumbering.binding? e.1).map (·, e.2)) = g.constants.entries := by
    refine filterMap_eq_self fun e member => ?_
    rw [binding e.1 (g.mem_referenced.mpr (.inr (.inr (.inl (List.mem_map_of_mem member)))))]
    rfl
  have findings : g.findings.map g.renumbering.copyFinding = g.findings := by
    have same : ∀ f ∈ g.findings, g.renumbering.copyFinding f = f := by
      intro f member
      obtain ⟨in_block, at_instr⟩ := dense.findings f member
      rw [Renumbering.copyFinding, bind_eq_self fun b is => block b (in_block b is),
        bind_eq_self fun i is => instr i (at_instr i is)]
    rw [List.map_congr_left same, List.map_id']
  have copy : g.duplicate =
      { g with
        blocks := (g.keptBlocks.map fun b => g.renumbering.copyBlock (g.block b)).toArray
        names := (g.keptBlocks.map fun b => ((g.block b).name, g.renumbering.blockOr b)).reverse
        instrs := g.duplicate.instrs
        bindings := g.duplicate.bindings
        selfRegister := g.selfRegister.bind g.renumbering.binding?
        blockRegister := g.blockRegister.bind g.renumbering.binding?
        finalReturn := g.finalReturn.bind g.renumbering.binding?
        finalException := g.finalException.bind g.renumbering.binding?
        formals := g.formals.filterMap fun f => (g.renumbering.binding? f.1).map (·, f.2)
        live := ⟨g.live.entries.filterMap fun e =>
          (g.renumbering.binding? e.1).map (·, e.2.filterMap g.renumbering.block?)⟩
        constants := ⟨g.constants.entries.filterMap fun e => (g.renumbering.binding? e.1).map (·, e.2)⟩
        findings := g.findings.map g.renumbering.copyFinding } := rfl
  rw [copy, blocks, names, instrs, bindings, register, register, register, register, formals, live,
    constants, findings]
  all_goals simp +contextual [header, Header.ids]

end Dense

theorem Indexed.dense_duplicate (indexed : g.Indexed) (orderly : g.Orderly) : g.duplicate.Dense := by
  have renames := indexed.renames_duplicate orderly
  have inside_of_number {b c : Nat} (number : g.renumbering.block? b = some c) :
      c < g.duplicate.blocks.size := by
    rw [indexed.size_duplicate.1]
    exact (List.getElem?_eq_some_iff.mp ((g.numberedBy_keptBlocks b c).mp number)).1
  have instr_inside {i j : Nat} (number : g.renumbering.instr? i = some j) :
      j < g.duplicate.instrs.size := by
    rw [indexed.size_duplicate.2.1]
    exact (List.getElem?_eq_some_iff.mp ((indexed.numberedBy_keptInstrs i j).mp number)).1
  refine ⟨?_, ?_, ?_, ?_, ?_, ?_⟩
  · rw [renames.keptBlocks_copy, renames.blocks_order]
  · rw [renames.keptInstrs_copy, renames.instrs_order]
  · refine List.filter_eq_self.mpr fun n member => decide_eq_true ?_
    obtain ⟨v, referred, rfl⟩ := renames.bindings.surjOn (List.mem_range.mp member)
    exact renames.mem_referenced_copy.mpr ⟨v, referred, rfl⟩
  · rw [renames.live]
    intro e member c in_e
    obtain ⟨e, -, rfl⟩ := List.mem_map.mp member
    obtain ⟨b, kept, rfl⟩ := List.mem_map.mp in_e
    exact renames.blocks.mapsTo (of_decide_eq_true (List.mem_filter.mp kept).2)
  · intro f member
    obtain ⟨f, -, rfl⟩ := List.mem_map.mp member
    constructor
    · intro c is
      obtain ⟨b, -, number⟩ := Option.bind_eq_some_iff.mp is
      exact inside_of_number number
    · intro j is
      obtain ⟨i, -, number⟩ := Option.bind_eq_some_iff.mp is
      exact instr_inside number
  · rw [renames.names, renames.keptBlocks_copy, List.map_map]
    refine congrArg List.reverse (List.map_congr_left fun b kept => ?_)
    rw [Function.comp_apply, renames.block b kept]
    rfl

/-- A copy is a faithful renaming. It reads the same as the original, its tables are the images of
the original's under numbers given one to one, it is fit to be copied itself, and copying it again
changes nothing. The blocks in question are those that are not removed and the six that every graph
has. -/
theorem duplicate_faithful {g : FlowGraph} (indexed : g.Indexed) (orderly : g.Orderly) :
    g.sameStructure g.duplicate = true ∧ (∃ β ι ν, Renames g g.duplicate β ι ν) ∧
      g.duplicate.Indexed ∧ g.duplicate.Orderly ∧ g.duplicate.duplicate = g.duplicate := by
  have renames := indexed.renames_duplicate orderly
  have indexed_copy := renames.indexed_copy indexed
  have orderly_copy := renames.orderly_copy indexed orderly
  exact ⟨renames.sameStructure_copy indexed orderly, ⟨_, _, _, renames⟩, indexed_copy, orderly_copy,
    (indexed.dense_duplicate orderly).duplicate_eq_self indexed_copy orderly_copy⟩

/-- A loop over two blocks, with a removed block between them and without a place for failed block
calls. -/
def trimmedLoop : FlowGraph :=
  let g := ofScope .topLevel
  let (dead, g) := g.pushBlock "Dead"
  let (head, g) := g.pushBlock "Head"
  let (body, g) := g.pushBlock "Body"
  let (x, g) := g.addBinding "x#1" .variable
  let (_, g) := g.addBinding "unread" .temporary
  let (y, g) := g.addBinding "x#2" .variable
  let g := ((g.addEdge enter head .none).addEdge head body .none).addEdge body head .none
  let g := (g.addEdge dead head .none).addEdge head returnBlock .none
  let g := (g.pushInstr body (.assign y (.binding x))).pushInstr body (.jump head)
  let g := g.pushInstr head (.phi x [(enter, x), (body, y)])
  let g := g.pushInstr head (.branch (.binding x) body returnBlock)
  ((g.dropBlock dead).dropBlock yieldFail).rebuildUses

theorem duplicate_faithful_trimmedLoop :
    trimmedLoop.liveBlocks.length < trimmedLoop.blocks.size ∧
      trimmedLoop.sameStructure trimmedLoop.duplicate = true ∧
      (∃ β ι ν, Renames trimmedLoop trimmedLoop.duplicate β ι ν) ∧
      trimmedLoop.duplicate.duplicate = trimmedLoop.duplicate := by
  have indexed : trimmedLoop.Indexed := by decide +kernel
  have orderly : trimmedLoop.Orderly := by decide +kernel
  obtain ⟨same, renames, -, -, again⟩ := duplicate_faithful indexed orderly
  exact ⟨by decide +kernel, same, renames, again⟩

/-- A removed block stays in the copy when it is one of the six, so the blocks that are not removed
do not fill the numbers of the copy. -/
theorem duplicate_keeps_yieldFail :
    trimmedLoop.Indexed ∧ trimmedLoop.Orderly ∧
      ¬ ∃ β : Nat → Nat, Set.BijOn β {b | b ∈ trimmedLoop.liveBlocks}
        (Set.Iio trimmedLoop.duplicate.blocks.size) := by
  refine ⟨by decide +kernel, by decide +kernel, ?_⟩
  rintro ⟨β, bij⟩
  have covered : Finset.range trimmedLoop.duplicate.blocks.size ⊆
      trimmedLoop.liveBlocks.toFinset.image β := by
    intro c inside
    obtain ⟨b, live, rfl⟩ := bij.surjOn (Finset.mem_range.mp inside)
    exact Finset.mem_image_of_mem β (List.mem_toFinset.mpr live)
  have few : trimmedLoop.liveBlocks.length < trimmedLoop.duplicate.blocks.size := by decide +kernel
  have bound := (Finset.card_le_card covered).trans
    (Finset.card_image_le.trans trimmedLoop.liveBlocks.toFinset_card_le)
  rw [Finset.card_range] at bound
  omega

end ScriptFlow.FlowGraph
