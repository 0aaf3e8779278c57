import Mathlib.Data.Finset.Card
import Mathlib.Logic.Relation
import ScriptFlow.Findings.UnusedVariable

/-! What is said of variables that are never used. The definitions found to be dead are the least set
of definitions without effect that only definitions of the set read, and a variable is reported, once,
as soon as some assignment to it is dead. -/

namespace ScriptFlow.FlowGraph

variable (c : ClassTable) (g : FlowGraph)

/-- A definition without effect that only dead definitions read. -/
inductive IsDead : InstrId → Prop where
  | unread {v : BindingId} {d : InstrId} : v < g.bindings.size → (g.binding v).definition = some d →
    hasNoEffect c (g.instr d) = true → (∀ i ∈ (g.binding v).uses, IsDead i) → IsDead d

/-- Definitions are instructions of the graph. -/
def DefinedInside : Prop :=
  ∀ v < g.bindings.size, ∀ d ∈ (g.binding v).definition, d < g.instrs.size

instance : Decidable g.DefinedInside := inferInstanceAs (Decidable (∀ v < g.bindings.size, _))

/-- The binding's definition need not be killed any more. -/
def Settled (dead : Dead) (v : BindingId) : Prop :=
  ∀ d, (g.binding v).definition = some d → hasNoEffect c (g.instr d) = true →
    (∀ i ∈ (g.binding v).uses, dead.holds i = true) → dead.holds d = true

/-- One definition more is found to be dead. -/
inductive Kills (dead : Dead) : Dead → Prop where
  | kill {v : BindingId} {d : InstrId} : v < g.bindings.size → (g.binding v).definition = some d →
    dead.holds d = false → hasNoEffect c (g.instr d) = true →
    (∀ i ∈ (g.binding v).uses, dead.holds i = true) → Kills dead (dead.setIfInBounds d true)

variable {c g} {dead after : Dead}

theorem Dead.holds_setIfInBounds (dead : Dead) (d i : InstrId) :
    Dead.holds (dead.setIfInBounds d true) i = (dead.holds i || (d == i && decide (d < dead.size))) := by
  simp only [Dead.holds, Array.getD_eq_getD_getElem?, Array.getElem?_setIfInBounds]
  grind

/-! One step, one round, and all rounds. -/

theorem killDefinition_spec {v : BindingId} (known : v < g.bindings.size) (changed : Bool) :
    (g.killDefinition c (dead, changed) v = (dead, changed) ∧ g.Settled c dead v) ∨
      ∃ after, g.killDefinition c (dead, changed) v = (after, true) ∧ g.Kills c dead after := by
  unfold killDefinition Settled
  cases definition : (g.binding v).definition with
  | none => exact .inl ⟨rfl, nofun⟩
  | some d =>
    dsimp only
    split
    · rename_i free
      simp only [Bool.and_eq_true, Bool.not_eq_true', List.all_eq_true] at free
      exact .inr ⟨_, rfl, .kill known definition free.1.1 free.1.2 free.2⟩
    · rename_i bound
      simp only [Bool.and_eq_true, Bool.not_eq_true', List.all_eq_true] at bound
      refine .inl ⟨rfl, fun e same plain unread => ?_⟩
      cases same
      by_contra alive
      exact bound ⟨⟨Bool.eq_false_iff.mpr alive, plain⟩, unread⟩

/-- A round that changes nothing leaves nothing to do; any other one kills. -/
theorem killRound_spec {vs : List BindingId} (known : ∀ v ∈ vs, v < g.bindings.size) (dead : Dead)
    (changed : Bool) :
    (vs.foldl (g.killDefinition c) (dead, changed) = (dead, changed) ∧
        ∀ v ∈ vs, g.Settled c dead v) ∨
      ∃ after, vs.foldl (g.killDefinition c) (dead, changed) = (after, true) ∧
        Relation.TransGen (g.Kills c) dead after := by
  induction vs generalizing dead changed with
  | nil => exact .inl ⟨rfl, nofun⟩
  | cons v vs ih =>
    have rest := fun w member => known w (List.mem_cons_of_mem v member)
    rw [List.foldl_cons]
    rcases killDefinition_spec (known v List.mem_cons_self) changed with
      ⟨same, settled⟩ | ⟨after, killed, step⟩
    · rw [same]
      refine (ih rest dead changed).imp_left fun ⟨round, others⟩ => ⟨round, ?_⟩
      exact List.forall_mem_cons.mpr ⟨settled, others⟩
    · rw [killed]
      rcases ih rest after true with ⟨round, -⟩ | ⟨last, round, steps⟩
      · exact .inr ⟨after, round, .single step⟩
      · exact .inr ⟨last, round, .head step steps⟩

/-- The bindings whose definitions are not dead. -/
def pending (g : FlowGraph) (dead : Dead) : Finset Nat :=
  (Finset.range g.bindings.size).filter fun v =>
    (g.binding v).definition.any (fun d => !dead.holds d) = true

theorem Kills.size_eq (step : g.Kills c dead after) : after.size = dead.size := by
  cases step
  exact Array.size_setIfInBounds

theorem Kills.pending_lt (defined : g.DefinedInside) (sized : dead.size = g.instrs.size)
    (step : g.Kills c dead after) : (g.pending after).card < (g.pending dead).card := by
  obtain ⟨known, definition, alive, -, -⟩ := step
  rename_i v d
  have inside : d < dead.size := sized ▸ defined v known d definition
  apply Finset.card_lt_card
  refine Finset.ssubset_iff_of_subset (fun w member => ?_) |>.mpr ⟨v, ?_, ?_⟩
  · simp only [pending, Finset.mem_filter, Option.any_eq_true, Bool.not_eq_true',
      Dead.holds_setIfInBounds, Bool.or_eq_false_iff] at member ⊢
    obtain ⟨inside, e, is_e, open_e, -⟩ := member
    exact ⟨inside, e, is_e, open_e⟩
  · simp [pending, known, definition, alive]
  · simp [pending, definition, Dead.holds_setIfInBounds, inside]

theorem pending_lt_of_kills (defined : g.DefinedInside) (sized : dead.size = g.instrs.size)
    (steps : Relation.TransGen (g.Kills c) dead after) :
    after.size = g.instrs.size ∧ (g.pending after).card < (g.pending dead).card := by
  induction steps with
  | single step => exact ⟨step.size_eq.trans sized, step.pending_lt defined sized⟩
  | tail _ step ih =>
    exact ⟨step.size_eq.trans ih.1, (step.pending_lt defined ih.1).trans ih.2⟩

theorem killRounds_spec (defined : g.DefinedInside) (fuel : Nat) (sized : dead.size = g.instrs.size)
    (enough : (g.pending dead).card < fuel) :
    Relation.ReflTransGen (g.Kills c) dead (g.killRounds c fuel dead) ∧
      ∀ v < g.bindings.size, g.Settled c (g.killRounds c fuel dead) v := by
  induction fuel generalizing dead with
  | zero => exact absurd enough (Nat.not_lt_zero _)
  | succ fuel ih =>
    have known : ∀ v ∈ g.bindingIds, v < g.bindings.size := fun v => List.mem_range.mp
    rcases killRound_spec (c := c) known dead false with ⟨round, settled⟩ | ⟨after, round, steps⟩
    · simp only [killRounds, round]
      exact ⟨.refl, fun v inside => settled v (List.mem_range.mpr inside)⟩
    · obtain ⟨sized, fewer⟩ := pending_lt_of_kills defined sized steps
      obtain ⟨rest, settled⟩ := ih sized (by omega)
      simp only [killRounds, round]
      exact ⟨steps.to_reflTransGen.trans rest, settled⟩

/-- The rounds find the least set. -/
theorem holds_deadDefinitions_iff (defined : g.DefinedInside) {d : InstrId} :
    (g.deadDefinitions c).holds d = true ↔ g.IsDead c d := by
  have few : (g.pending (Array.replicate g.instrs.size false)).card < g.bindings.size + 1 :=
    Nat.lt_succ_of_le ((Finset.card_filter_le _ _).trans_eq (Finset.card_range _))
  obtain ⟨steps, settled⟩ := killRounds_spec (c := c) defined _ Array.size_replicate few
  rw [← deadDefinitions] at steps settled
  constructor
  · intro killed
    generalize g.deadDefinitions c = dead at steps killed
    clear settled
    induction steps generalizing d with
    | refl =>
      rw [Dead.holds, Array.getD_eq_getD_getElem?, Array.getElem?_replicate] at killed
      split at killed <;> cases killed
    | tail _ step ih =>
      obtain ⟨known, definition, -, plain, unread⟩ := step
      rw [Dead.holds_setIfInBounds, Bool.or_eq_true, Bool.and_eq_true, beq_iff_eq] at killed
      rcases killed with old | ⟨rfl, -⟩
      · exact ih old
      · exact .unread known definition plain fun i use => ih (unread i use)
  · intro is_dead
    induction is_dead with
    | unread known definition plain _ ih => exact settled _ known _ definition plain ih

/-! The report. -/

/-- An assignment to a variable of the program that is dead, in a block that is executed. -/
structure DeadAssignment (c : ClassTable) (g : FlowGraph) (name : String) (v : BindingId)
    (d : InstrId) : Prop where
  known : v < g.bindings.size
  isVariable : (g.binding v).kind = .variable
  initialized : (g.binding v).uninitialized = false
  named : (g.binding v).baseName = name
  definition : (g.binding v).definition = some d
  dead : g.IsDead c d
  executed : g.isExecuted (g.blockOf d) = true
  assigns : isAssignment (g.instr d) = true

theorem mem_unusedVariables_iff (defined : g.DefinedInside) {v : BindingId} {d : InstrId} :
    (v, d) ∈ g.unusedVariables c ↔ (g.binding v).baseName.startsWith "_" = false ∧
      g.DeadAssignment c (g.binding v).baseName v d := by
  have reported : (v, d) ∈ g.unusedVariables c ↔
      v < g.bindings.size ∧ g.deadAssignment? (g.deadDefinitions c) v = some d := by
    simp [unusedVariables, bindingIds]
  rw [reported, deadAssignment?]
  simp only [Option.ite_none_left_eq_some, Option.filter_eq_some_iff, Bool.or_eq_true, not_or,
    Bool.not_eq_true, Bool.and_eq_true, holds_deadDefinitions_iff defined, Binding.isTemporary,
    bne_eq_false_iff_eq]
  constructor
  · rintro ⟨known, ⟨⟨is_local, initialized⟩, plain⟩, definition, ⟨dead, executed⟩, assigns⟩
    exact ⟨plain, known, is_local, initialized, rfl, definition, dead, executed, assigns⟩
  · rintro ⟨plain, known, is_local, initialized, -, definition, dead, executed, assigns⟩
    exact ⟨known, ⟨⟨is_local, initialized⟩, plain⟩, definition, ⟨dead, executed⟩, assigns⟩

def nameOf (g : FlowGraph) (e : BindingId × InstrId) : String := (g.binding e.1).baseName

/-- Of the entries with names that were not there before, one is kept for each name. -/
theorem firstPerName_spec (names : List String) (es : List (BindingId × InstrId)) :
    (g.firstPerName names es).Sublist es ∧ ((g.firstPerName names es).map g.nameOf).Nodup ∧
      ∀ name, name ∈ (g.firstPerName names es).map g.nameOf ↔
        name ∉ names ∧ name ∈ es.map g.nameOf := by
  induction es generalizing names with
  | nil => simp [firstPerName]
  | cons e es ih =>
    rw [firstPerName]
    split
    · rename_i seen
      obtain ⟨kept, distinct, named⟩ := ih names
      refine ⟨kept.cons e, distinct, fun name => ?_⟩
      rw [named, List.map_cons, List.mem_cons]
      have : g.nameOf e ∈ names := List.contains_iff_mem.mp seen
      grind
    · rename_i unseen
      obtain ⟨kept, distinct, named⟩ := ih (g.nameOf e :: names)
      have : g.nameOf e ∉ names := fun seen => unseen (List.contains_iff_mem.mpr seen)
      refine ⟨kept.cons_cons e, ?_, fun name => ?_⟩
      · rw [List.map_cons, List.nodup_cons]
        exact ⟨fun again => ((named _).mp again).1 List.mem_cons_self, distinct⟩
      · rw [List.map_cons, List.mem_cons]
        change _ ∨ name ∈ (g.firstPerName (g.nameOf e :: names) es).map g.nameOf ↔ _
        rw [named, List.map_cons, List.mem_cons, List.mem_cons]
        grind

/-- A variable is reported once, at one of its dead assignments, and it is reported exactly if it has
any: the others may be read. -/
theorem reportUnused_exact (defined : g.DefinedInside) :
    ∃ es : List (BindingId × InstrId),
      (g.reportUnused c).findings = g.findings ++ es.map g.unusedFinding ∧
      (es.map g.nameOf).Nodup ∧ (∀ e ∈ es, g.DeadAssignment c (g.nameOf e) e.1 e.2) ∧
      ∀ name, name ∈ es.map g.nameOf ↔
        name.startsWith "_" = false ∧ ∃ v d, g.DeadAssignment c name v d := by
  obtain ⟨kept, distinct, named⟩ := firstPerName_spec (g := g) [] (g.unusedVariables c)
  refine ⟨_, rfl, distinct, fun e member => ?_, fun name => ?_⟩
  · exact ((mem_unusedVariables_iff defined).mp (kept.subset member)).2
  · rw [named]
    constructor
    · rintro ⟨-, member⟩
      obtain ⟨e, listed, rfl⟩ := List.mem_map.mp member
      obtain ⟨plain, is_dead⟩ := (mem_unusedVariables_iff defined).mp listed
      exact ⟨plain, e.1, e.2, is_dead⟩
    · rintro ⟨plain, v, d, is_dead⟩
      obtain rfl := is_dead.named
      refine ⟨List.not_mem_nil, List.mem_map.mpr ⟨(v, d), ?_, rfl⟩⟩
      exact (mem_unusedVariables_iff defined).mpr ⟨plain, is_dead⟩

/-- The first of two assignments to `x` is never read, the second one is. -/
def reassigned : FlowGraph :=
  let g := ((ofScope .topLevel).pushBinding { Binding.ofName "x#1" .variable with generation := 1 }).2
  let g := (g.pushBinding { Binding.ofName "x#2" .variable with generation := 2 }).2
  let g := (g.pushInstr enter (.assign 0 .nil)).pushInstr enter (.assign 1 .nil)
  (g.pushInstr enter (.returnWith (.binding 1))).rebuildUses

/-- A variable is reported although it is used: what is dead is one of its assignments. -/
theorem reportUnused_reassigned :
    (reassigned.reportUnused .empty).findings.map (·.message) =
        ["variable `x` is assigned but never used"] ∧
      (reassigned.binding 1).baseName = "x" ∧ (reassigned.binding 1).definition = some 1 ∧
      reassigned.isExecuted (reassigned.blockOf 1) = true ∧
      isAssignment (reassigned.instr 1) = true ∧ ¬reassigned.IsDead .empty 1 := by
  have defined : reassigned.DefinedInside := by decide +kernel
  rw [← holds_deadDefinitions_iff defined]
  decide +kernel

end ScriptFlow.FlowGraph
