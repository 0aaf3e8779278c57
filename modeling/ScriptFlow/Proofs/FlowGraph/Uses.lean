import Mathlib.Data.List.Sort
import ScriptFlow.Proofs.FlowGraph.Tidy
import ScriptFlow.Proofs.Dict

/-! The records of definitions and uses: what a rebuild writes into them, and when it changes
nothing. -/

namespace ScriptFlow.FlowGraph

/-! Uses. -/

theorem mem_uses_recordUse (g : FlowGraph) (i v w j : Nat) :
    j ∈ ((g.recordUse i v).binding w).uses ↔
      j ∈ (g.binding w).uses ∨ j = i ∧ v = w ∧ v < g.bindings.size := by
  rw [recordUse, binding_modifyBinding]
  split
  · rename_i here
    rw [mem_insertNat, here.1]
    constructor
    · rintro (new | old)
      · exact .inr ⟨new, rfl, here.1 ▸ here.2⟩
      · exact .inl old
    · rintro (old | ⟨new, -, -⟩)
      · exact .inr old
      · exact .inl new
  · rename_i elsewhere
    constructor
    · exact .inl
    · rintro (old | ⟨-, here⟩)
      · exact old
      · exact absurd here elsewhere

theorem mem_uses_recordInstr (g : FlowGraph) (i w j : Nat) :
    j ∈ ((g.recordInstr i).binding w).uses ↔
      j ∈ (g.binding w).uses ∨ j = i ∧ w ∈ (g.instr i).operands ∧ w < g.bindings.size := by
  have folded : ∀ (vs : List Nat) (g : FlowGraph),
      j ∈ ((vs.foldl (fun g v => g.recordUse i v) g).binding w).uses ↔
        j ∈ (g.binding w).uses ∨ j = i ∧ w ∈ vs ∧ w < g.bindings.size := by
    intro vs
    induction vs with
    | nil => simp
    | cons v vs ih =>
      intro g
      have size : (g.recordUse i v).bindings.size = g.bindings.size := size_modifyBinding g v _
      rw [List.foldl_cons, ih, mem_uses_recordUse, size, List.mem_cons]
      grind
  unfold recordInstr
  dsimp only
  cases (g.instr i).target? with
  | none => exact folded _ g
  | some t =>
    rw [Option.map_some, Option.getD_some, recordDefinition]
    have same := binding_field_modifyBinding
      ((g.instr i).operands.foldl (fun g v => g.recordUse i v) g) (·.uses) t w
      (fun x => { x with definition := some i }) fun _ => rfl
    rw [same]
    exact folded _ g

/-- After a rebuild, the uses of a binding are the instructions that read it. -/
theorem mem_uses_rebuildUses (g : FlowGraph) (w j : Nat) :
    j ∈ (g.rebuildUses.binding w).uses ↔
      j ∈ g.allInstrs ∧ w ∈ (g.instr j).operands ∧ w < g.bindings.size := by
  have folded : ∀ (is : List Nat) (h : FlowGraph), h.instrs = g.instrs →
      h.bindings.size = g.bindings.size →
      (j ∈ ((is.foldl recordInstr h).binding w).uses ↔
        j ∈ (h.binding w).uses ∨ j ∈ is ∧ w ∈ (g.instr j).operands ∧ w < g.bindings.size) := by
    intro is
    induction is with
    | nil => simp
    | cons i is ih =>
      intro h instrs size
      have same := sameShape_recordInstr h i
      rw [List.foldl_cons, ih _ (same.instrs.trans instrs) (same.size.trans size),
        mem_uses_recordInstr, size, instr_congr instrs, List.mem_cons]
      grind
  unfold rebuildUses
  extract_lets clean
  have unused : (clean.binding w).uses = [] := by
    simp only [clean, binding, Array.getD_eq_getD_getElem?, Array.getElem?_map]
    cases g.bindings[w]? <;> rfl
  rw [folded _ clean rfl (by simp [clean]), unused]
  simp


/-- Ascending lists of uses throughout. -/
def UsesAscend (g : FlowGraph) : Prop := ∀ v : Nat, (g.binding v).uses.Pairwise (· < ·)

theorem UsesAscend.recordInstr {g : FlowGraph} (ascend : g.UsesAscend) (i : Nat) :
    (g.recordInstr i).UsesAscend := by
  have folded : ∀ (vs : List Nat) (h : FlowGraph), h.UsesAscend →
      (vs.foldl (fun g v => g.recordUse i v) h).UsesAscend := by
    intro vs
    induction vs with
    | nil => exact fun _ ascend => ascend
    | cons v vs ih =>
      refine fun h ascend => ih (h.recordUse i v) fun w => ?_
      rw [recordUse, binding_modifyBinding]
      split
      · exact insertNat_sorted (ascend v)
      · exact ascend w
  unfold FlowGraph.recordInstr
  dsimp only
  cases (g.instr i).target? with
  | none => exact folded _ g ascend
  | some t =>
    intro w
    rw [Option.map_some, Option.getD_some, recordDefinition, binding_field_modifyBinding _ (·.uses)]
    · exact folded _ g ascend w
    · exact fun _ => rfl

theorem usesAscend_rebuildUses (g : FlowGraph) : g.rebuildUses.UsesAscend := by
  have folded : ∀ (is : List Nat) (h : FlowGraph), h.UsesAscend →
      (is.foldl FlowGraph.recordInstr h).UsesAscend := by
    intro is
    induction is with
    | nil => exact fun _ ascend => ascend
    | cons i is ih => exact fun h ascend => ih _ (ascend.recordInstr i)
  unfold rebuildUses
  refine folded _ _ fun w => ?_
  simp only [binding, Array.getD_eq_getD_getElem?, Array.getElem?_map]
  cases g.bindings[w]? <;> exact List.Pairwise.nil

/-! Definitions. -/

theorem definition_recordInstr (g : FlowGraph) (i w : Nat) (inside : w < g.bindings.size) :
    ((g.recordInstr i).binding w).definition =
      if (g.instr i).target? = some w then some i else (g.binding w).definition := by
  have folded : ∀ (vs : List Nat) (h : FlowGraph),
      ((vs.foldl (fun g v => g.recordUse i v) h).binding w).definition =
        (h.binding w).definition := by
    intro vs
    induction vs with
    | nil => exact fun _ => rfl
    | cons v vs ih =>
      intro h
      rw [List.foldl_cons, ih, recordUse]
      exact h.binding_field_modifyBinding (·.definition) v w _ fun _ => rfl
  have size := (SameShape.foldl (fun g v => g.recordUse i v)
    (fun g v => .modifyBinding g v _ fun _ => rfl) (g.instr i).operands g).size
  unfold recordInstr
  dsimp only
  cases (g.instr i).target? with
  | none => simp [folded]
  | some t =>
    rw [Option.map_some, Option.getD_some, recordDefinition, binding_modifyBinding, size]
    by_cases here : t = w
    · rw [if_pos ⟨here, here ▸ inside⟩, if_pos (congrArg some here)]
    · rw [if_neg fun both => here both.1, if_neg fun same => here (Option.some.inj same), folded]

/-- After a rebuild, the definition of a binding is the last instruction that writes it. -/
theorem definition_rebuildUses (g : FlowGraph) {w : Nat} (inside : w < g.bindings.size) :
    (g.rebuildUses.binding w).definition =
      (g.allInstrs.filter fun i => (g.instr i).target? = some w).getLast? := by
  have folded : ∀ (is : List Nat) (h : FlowGraph), h.instrs = g.instrs →
      h.bindings.size = g.bindings.size →
      ((is.foldl recordInstr h).binding w).definition =
        (is.filter fun i => (g.instr i).target? = some w).getLast?.or (h.binding w).definition := by
    intro is
    induction is with
    | nil => exact fun _ _ _ => rfl
    | cons i is ih =>
      intro h instrs size
      have same := sameShape_recordInstr h i
      rw [List.foldl_cons, ih _ (same.instrs.trans instrs) (same.size.trans size),
        definition_recordInstr h i w (size ▸ inside), instr_congr instrs, List.filter_cons]
      by_cases here : (g.instr i).target? = some w
      · rw [if_pos here, if_pos (decide_eq_true here), List.getLast?_cons]
        cases (is.filter fun i => (g.instr i).target? = some w).getLast? <;> rfl
      · rw [if_neg here, if_neg (by simpa using here)]
  unfold rebuildUses
  extract_lets clean
  have undefined : (clean.binding w).definition = none := by
    simp only [clean, binding, Array.getD_eq_getD_getElem?, Array.getElem?_map]
    cases g.bindings[w]? <;> rfl
  rw [folded _ clean rfl (by simp [clean]), undefined, Option.or_none]

/-! Nothing else changes. -/

/-- Two graphs that differ in the records of definitions and uses only. -/
structure SameButRecords (g h : FlowGraph) : Prop where
  rest : h = { g with bindings := h.bindings }
  size : h.bindings.size = g.bindings.size
  binding : ∀ v, ∃ definition uses, h.binding v = { g.binding v with definition, uses }

namespace SameButRecords

theorem refl (g : FlowGraph) : SameButRecords g g := ⟨rfl, rfl, fun _ => ⟨_, _, rfl⟩⟩

theorem trans {g h k : FlowGraph} (gh : SameButRecords g h) (hk : SameButRecords h k) :
    SameButRecords g k where
  rest := by
    rw [hk.rest, gh.rest]
  size := hk.size.trans gh.size
  binding v := by
    obtain ⟨_, _, first⟩ := gh.binding v
    obtain ⟨d, u, second⟩ := hk.binding v
    exact ⟨d, u, by rw [second, first]⟩

theorem modifyBinding (g : FlowGraph) (b : Nat) (f : Binding → Binding)
    (only : ∀ x, ∃ definition uses, f x = { x with definition, uses }) :
    SameButRecords g (g.modifyBinding b f) where
  rest := rfl
  size := by simp
  binding v := by
    rw [binding_modifyBinding]
    split
    · rename_i here
      rw [here.1]
      exact only _
    · exact ⟨_, _, rfl⟩

theorem foldl {α : Type} (f : FlowGraph → α → FlowGraph) (step : ∀ g a, SameButRecords g (f g a))
    (as : List α) (g : FlowGraph) : SameButRecords g (as.foldl f g) := by
  induction as generalizing g with
  | nil => exact refl g
  | cons a as ih => exact (step g a).trans (ih (f g a))

theorem recordInstr (g : FlowGraph) (i : Nat) : SameButRecords g (g.recordInstr i) := by
  have uses := foldl (fun g v => g.recordUse i v)
    (fun g v => modifyBinding g v _ fun _ => ⟨_, _, rfl⟩) (g.instr i).operands g
  unfold FlowGraph.recordInstr
  dsimp only
  cases (g.instr i).target? with
  | none => exact uses
  | some t => exact uses.trans (modifyBinding _ t _ fun _ => ⟨_, _, rfl⟩)

theorem rebuildUses (g : FlowGraph) : SameButRecords g g.rebuildUses := by
  have cleaned : SameButRecords g { g with
      bindings := g.bindings.map fun x => { x with definition := none, uses := [] } } := by
    refine ⟨rfl, by simp, fun v => ?_⟩
    simp only [FlowGraph.binding, Array.getD_eq_getD_getElem?, Array.getElem?_map]
    cases g.bindings[v]? <;> exact ⟨_, _, rfl⟩
  exact cleaned.trans (foldl FlowGraph.recordInstr recordInstr g.allInstrs _)

end SameButRecords

/-- The records are up to date when each binding knows the last instruction that writes it and,
ascending, all that read it. -/
theorem rebuildUses_eq_self_iff {g : FlowGraph} :
    g.rebuildUses = g ↔ ∀ v : Nat, v < g.bindings.size →
      (g.binding v).definition =
          (g.allInstrs.filter fun i => (g.instr i).target? = some v).getLast? ∧
        (g.binding v).uses.Pairwise (· < ·) ∧
        ∀ i : Nat, i ∈ (g.binding v).uses ↔ i ∈ g.allInstrs ∧ v ∈ (g.instr i).operands := by
  constructor
  · intro same v inside
    refine ⟨?_, ?_, fun i => ?_⟩
    · rw [← definition_rebuildUses g inside, same]
    · rw [← same]
      exact g.usesAscend_rebuildUses v
    · have uses := g.mem_uses_rebuildUses v i
      rwa [same, and_iff_left inside] at uses
  · intro records
    have only := SameButRecords.rebuildUses g
    have bindings : g.rebuildUses.bindings = g.bindings := by
      refine Array.ext only.size fun v inside inside' => ?_
      obtain ⟨d, u, eq⟩ := only.binding v
      obtain ⟨definition, ascend, uses⟩ := records v inside'
      have same_definition : d = (g.binding v).definition := by
        rw [definition, ← definition_rebuildUses g inside', eq]
      have same_uses : u = (g.binding v).uses := by
        have sorted := g.usesAscend_rebuildUses v
        rw [eq] at sorted
        refine sorted.eq_of_mem_iff ascend fun i => ?_
        have members := g.mem_uses_rebuildUses v i
        rw [eq] at members
        rw [members, uses i, and_iff_left inside']
      have entry : g.rebuildUses.binding v = g.binding v := by rw [eq, same_definition, same_uses]
      simpa [binding, inside, inside'] using entry
    rw [only.rest, bindings]

end ScriptFlow.FlowGraph
