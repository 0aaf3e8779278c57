import ScriptFlow.Proofs.SingleAssignment.Placement
import ScriptFlow.Proofs.SingleAssignment.Walk

/-! A graph with its phis placed and all its definitions renamed: which names are in force where, and
what the phis read. -/

namespace ScriptFlow

variable {v b c : Nat}

theorem FlowGraph.enter_inside {g : FlowGraph} (wf : g.WellFormed) :
    enter < (g.view .all).size := by
  rw [size_view]
  exact Nat.lt_of_lt_of_le (by decide) wf.room

namespace SingleAssignment

open FlowGraph

theorem phiFor_within {g : FlowGraph} {t : DominatorTree} {n : Nat} (known : v < n) :
    (phiFor g t v b).Within n := by
  constructor
  · intro u member
    obtain ⟨o, pair, rfl⟩ := List.mem_map.mp member
    obtain ⟨p, _, rfl⟩ := List.mem_map.mp pair
    exact known
  · rintro u eq
    cases Option.some.inj eq
    exact known

theorem Merged.ready {g : FlowGraph} {t : DominatorTree} {base : Renaming}
    {phis : Nat → List InstrId} (merged : Merged g t base phis) (wf : g.WellFormed) :
    Ready base where
  room := by
    rw [merged.size]
    exact Nat.lt_of_lt_of_le (by decide) wf.room
  within i inside := by
    rw [merged.bindings]
    by_cases old : i < g.instrs.size
    · rw [merged.instr i old]
      exact wf.inScope i old
    · obtain ⟨b, member⟩ := merged.added i (Nat.le_of_not_lt old) inside
      obtain ⟨v, known, _, shape⟩ := merged.origin b i member
      rw [shape]
      exact phiFor_within known
  placed b i member := by
    rw [merged.block] at member
    rcases List.mem_append.mp member with phi | old
    · exact (merged.fresh b i phi).2
    · obtain ⟨inside, place⟩ := wf.placed b i old
      exact ⟨Nat.lt_of_lt_of_le inside merged.grown, (merged.blockOf i inside).trans place⟩
  distinct b := by
    rw [merged.block]
    refine List.nodup_append.mpr ⟨merged.distinct b, wf.distinct b, fun i phi j old => ?_⟩
    exact Nat.ne_of_gt (Nat.lt_of_lt_of_le (wf.placed b j old).1 (merged.fresh b i phi).1)
  origin b i member v origin := by
    have phi : i ∈ phis b := (merged.split wf b).1 ▸ member
    obtain ⟨u, known, origin', _⟩ := merged.origin b i phi
    rw [origin] at origin'
    rw [merged.bindings, Option.some.inj origin']
    exact known

/-- The graph `g` is converted: `base` has its phis placed, and in `r` all blocks are renamed, each
from the names `start` gives for it. -/
structure Conversion (g : FlowGraph) (base r : Renaming) (phis : Nat → List InstrId)
    (start : Nat → Names) : Prop where
  wellFormed : g.WellFormed
  merged : Merged g ((g.view .all).dominators enter) base phis
  wanted : ∀ v b, HasPhi base phis v b → g.LiveIn v b ∧
    b ∈ ((g.view .all).frontiers ((g.view .all).dominators enter)).iterated
      ((definers g).of v ++ [enter])
  complete : ∀ v b, g.LiveIn v b →
    b ∈ ((g.view .all).frontiers ((g.view .all).dominators enter)).iterated
      ((definers g).of v ++ [enter]) → HasPhi base phis v b
  walked : Walked base ((g.view .all).dominators enter) r
    (fun b => (g.view .all).Reached enter b ∨
      b < base.graph.blocks.size ∧ (base.graph.block b).removed = false) start

theorem exists_conversion {g : FlowGraph} (wf : g.WellFormed) :
    ∃ phis start,
      Conversion g (placePhis g ((g.view .all).dominators enter) g.liveness)
        (renameAll ((g.view .all).dominators enter)
          (placePhis g ((g.view .all).dominators enter) g.liveness)) phis start := by
  obtain ⟨phis, merged, wanted, complete⟩ := placePhis_merged wf ((g.view .all).dominators enter)
  have unnamed := merged.firsts
  have unread := merged.uninitialized
  rw [← merged.bindings] at unnamed unread
  obtain ⟨start, walked⟩ := renameAll_walked ⟨enter_inside wf, wf.view_symm⟩ (merged.ready wf)
    (by rw [merged.size, size_view]) unnamed unread
  exact ⟨phis, start, wf, merged, wanted, complete, walked⟩

/-- The names in force at the end of a block. -/
def endNames (base r : Renaming) (start : Nat → Names) (b : Nat) : Names :=
  namesAfter base r (start b) (base.graph.block b).instrs

/-- The names in force at the start of a block, behind its phis. -/
def bodyNames (base r : Renaming) (phis : Nat → List InstrId) (start : Nat → Names) (b : Nat) :
    Names :=
  namesAfter base r (start b) (phis b)

section Names

variable {base r : Renaming} {names : Names} {i : Nat}

theorem lookup_addName (renamed : Renamed base r names i) (v : Nat) :
    (addName base r names i).lookup v =
      if (base.graph.instr i).target? = some v then (r.graph.instr i).target?
      else names.lookup v := by
  cases source : (base.graph.instr i).target? with
  | none => simp [addName, source]
  | some u =>
    obtain ⟨n, target, _⟩ := renamed.defines u source
    simp only [addName, source, target, List.lookup_cons, Option.some.injEq]
    grind

/-- A name in force after some instructions belongs to the last of them that defines the binding, if
one does. -/
theorem lookup_namesAfter {is : List InstrId} (renames : Renames base r names is) (v : Nat) :
    (∃ i ∈ is, (base.graph.instr i).target? = some v ∧
      (namesAfter base r names is).lookup v = (r.graph.instr i).target?) ∨
    (∀ i ∈ is, (base.graph.instr i).target? ≠ some v) ∧
      (namesAfter base r names is).lookup v = names.lookup v := by
  induction is generalizing names with
  | nil => exact .inr ⟨by simp, rfl⟩
  | cons i is ih =>
    rcases ih renames.2 with ⟨j, member, source, found⟩ | ⟨others, found⟩
    · exact .inl ⟨j, List.mem_cons_of_mem _ member, source, found⟩
    · rw [lookup_addName renames.1] at found
      by_cases source : (base.graph.instr i).target? = some v
      · rw [if_pos source] at found
        exact .inl ⟨i, List.mem_cons_self, source, found⟩
      · rw [if_neg source] at found
        refine .inr ⟨fun j member => ?_, found⟩
        rcases List.mem_cons.mp member with rfl | later
        · exact source
        · exact others j later

theorem namesAfter_append (names : Names) (is js : List InstrId) :
    namesAfter base r names (is ++ js) = namesAfter base r (namesAfter base r names is) js :=
  List.foldl_append

theorem renames_append {is js : List InstrId} :
    Renames base r names (is ++ js) ↔
      Renames base r names is ∧ Renames base r (namesAfter base r names is) js := by
  induction is generalizing names with
  | nil => exact ⟨fun h => ⟨trivial, h⟩, fun h => h.2⟩
  | cons i is ih => simp only [List.cons_append, Renames, ih, and_assoc, namesAfter, List.foldl_cons]

theorem Renames.renamed {is : List InstrId} (renames : Renames base r names is) {before after}
    (split : is = before ++ i :: after) : Renamed base r (namesAfter base r names before) i := by
  rw [split, renames_append] at renames
  exact renames.2.1

end Names

namespace Conversion

variable {g : FlowGraph} {base r : Renaming} {phis : Nat → List InstrId} {start : Nat → Names}
  (conversion : Conversion g base r phis start)
include conversion

theorem inside : enter < (g.view .all).size := enter_inside conversion.wellFormed

theorem rooted : (g.view .all).Rooted enter :=
  ⟨conversion.inside, conversion.wellFormed.view_symm⟩

theorem ready : Ready base := conversion.merged.ready conversion.wellFormed

theorem progress : Progress base r := conversion.walked.progress

theorem instrs_base (b : Nat) : (base.graph.block b).instrs = phis b ++ (g.block b).instrs := by
  rw [conversion.merged.block]

theorem done (reached : (g.view .all).Reached enter b) : Done base r (start b) b :=
  conversion.walked.done b (.inl reached)

theorem renames_phis (reached : (g.view .all).Reached enter b) :
    Renames base r (start b) (phis b) := by
  have renames := (conversion.done reached).renames
  rw [conversion.instrs_base, renames_append] at renames
  exact renames.1

theorem renames_body (reached : (g.view .all).Reached enter b) :
    Renames base r (bodyNames base r phis start b) (g.block b).instrs := by
  have renames := (conversion.done reached).renames
  rw [conversion.instrs_base, renames_append] at renames
  exact renames.2

theorem endNames_eq (b : Nat) :
    endNames base r start b =
      namesAfter base r (bodyNames base r phis start b) (g.block b).instrs := by
  rw [endNames, conversion.instrs_base, namesAfter_append, bodyNames]

theorem sourced_body (reached : (g.view .all).Reached enter b) :
    Sourced base r (bodyNames base r phis start b) :=
  (conversion.renames_phis reached).sourced_after
    (fun i member => (conversion.merged.fresh b i member).2.1) (conversion.done reached).sourced

theorem reached_step (reached : (g.view .all).Reached enter b)
    (edge : c ∈ g.succIds b) : (g.view .all).Reached enter c := by
  refine .step reached (by rwa [successors_view]) ?_
  rw [size_view]
  exact conversion.wellFormed.target_inside edge

/-- A phi for the binding, or another definition of it, is seen in the graph with phis. -/
theorem defines_of_mem {i : Nat} (member : i ∈ (base.graph.block b).instrs)
    (target : (base.graph.instr i).target? = some v) :
    HasPhi base phis v b ∨ b ∈ (definers g).of v := by
  rw [conversion.instrs_base] at member
  rcases List.mem_append.mp member with phi | old
  · obtain ⟨u, _, origin, shape⟩ := conversion.merged.origin b i phi
    rw [shape] at target
    cases Option.some.inj target
    exact .inl ⟨i, phi, origin⟩
  · rw [conversion.merged.instr i (conversion.wellFormed.placed b i old).1] at target
    exact .inr (mem_definers conversion.wellFormed ⟨i, old, target⟩)

/-- A block with a block in its frontier where a live binding has no phi does not define it. -/
theorem lookup_endNames_of_frontier {x : Nat} (reached : (g.view .all).Reached enter x)
    (frontier : c ∈ ((g.view .all).frontiers ((g.view .all).dominators enter)).of x)
    (live : g.LiveIn v c) (bare : ¬HasPhi base phis v c) :
    (endNames base r start x).lookup v = (start x).lookup v := by
  have iterated (source : x ∈ (definers g).of v ++ [enter] ∨
      x ∈ ((g.view .all).frontiers ((g.view .all).dominators enter)).iterated
        ((definers g).of v ++ [enter])) : HasPhi base phis v c :=
    conversion.complete v c live ((Frontiers.iterated_spec _ _).1 x source c frontier)
  rcases lookup_namesAfter (conversion.done reached).renames v with
    ⟨i, member, target, _⟩ | ⟨_, same⟩
  · rcases conversion.defines_of_mem member target with phi | definer
    · exact absurd (iterated (.inr (conversion.wanted v x phi).2)) bare
    · exact absurd (iterated (.inl (List.mem_append_left _ definer))) bare
  · exact same

/-- Where a live binding has no phi, its name is that at the end of every block before. -/
theorem lookup_start (reached : (g.view .all).Reached enter b)
    (edge : c ∈ g.succIds b) (live : g.LiveIn v c) (bare : ¬HasPhi base phis v c) :
    (start c).lookup v = (endNames base r start b).lookup v := by
  have rooted := conversion.rooted
  have c_reached := conversion.reached_step reached edge
  have view_edge : c ∈ (g.view .all).successors b := by rwa [successors_view]
  obtain ⟨q, parent⟩ := Digraph.exists_parent rooted c_reached
    (conversion.wellFormed.target_ne_enter edge)
  have along : (endNames base r start b).lookup v = (endNames base r start q).lookup v := by
    refine Digraph.eq_along_chain ((g.view .all).dominators enter)
      (fun x => (endNames base r start x).lookup v) q _
      (Digraph.parent_mem_chain rooted parent reached view_edge) fun x below p link => ?_
    have x_reached := (Digraph.dominates_of_mem_chainFrom rooted _ reached
      ((List.takeWhile_sublist _).subset below)).reached reached
    have frontier := Digraph.mem_frontier_of_chain rooted reached view_edge parent below
    rw [conversion.lookup_endNames_of_frontier x_reached frontier live bare]
    exact congrArg (List.lookup v) (conversion.walked.parent x p (.inl x_reached) link).2
  rw [along]
  exact congrArg (List.lookup v) (conversion.walked.parent c q (.inl c_reached) parent).2

/-- A phi of the converted graph: it defines a name of its own, and on the edge from each reached
block it reads the name in force at the end of that block. -/
theorem phi_spec {i : Nat} (member : i ∈ phis c) :
    ∃ v n os, base.origins.get? i = some v ∧ (base.graph.instr i).target? = some v ∧
      r.graph.instr i = .phi n os ∧
      os.map (·.1) = (g.block c).preds.filter ((g.view .all).dominators enter).isReached ∧
      ∀ b, b ∈ (g.block c).preds → (g.view .all).Reached enter b →
        (lookup? r (endNames base r start b) v).isSome = true ∧
          os.lookup b = some (nameOf r (endNames base r start b) v) := by
  obtain ⟨v, _, origin, shape⟩ := conversion.merged.origin c i member
  have i_inside := (conversion.merged.fresh c i member).2.1
  obtain ⟨n, os, shape', _, keys, _⟩ := conversion.walked.total.phi i i_inside _ _ shape
  have reached_keys : os.map (·.1) =
      (g.block c).preds.filter ((g.view .all).dominators enter).isReached := by
    rw [keys, List.map_map]
    exact List.map_id _
  refine ⟨v, n, os, origin, by rw [shape]; rfl, shape', reached_keys, fun b before reached => ?_⟩
  have edge : c ∈ base.graph.succIds b := by
    rw [succIds, conversion.merged.block]
    exact (conversion.wellFormed.symm b c).mpr before
  have leading : i ∈ leadingPhis base.graph c := by
    rw [leadingPhis, (conversion.merged.split conversion.wellFormed c).1]
    exact member
  obtain ⟨found, reads⟩ := (conversion.done reached).filled c edge i leading v n os origin shape'
  refine ⟨found, reads ?_⟩
  rw [reached_keys, List.mem_filter]
  exact ⟨before, (Digraph.isReached_iff conversion.inside).mpr reached⟩

end Conversion

end SingleAssignment

end ScriptFlow
