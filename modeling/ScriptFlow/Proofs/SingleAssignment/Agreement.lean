import ScriptFlow.Proofs.SingleAssignment.Conversion
import ScriptFlow.Proofs.SingleAssignment.Trace

/-! While a block is passed, every name in force holds what its binding would hold without renaming. -/

namespace ScriptFlow

/-- What a binding stands for when the given names are in force. -/
def Store.through (t : Store) (names : SingleAssignment.Names) (v : BindingId) : Origin :=
  (names.lookup v).elim .initial t

namespace SingleAssignment

open FlowGraph

/-- The bindings that are `live` hold in `s` what their names hold in `t`, and bindings that stand for
nil hold nil. -/
structure Agrees (r : Renaming) (names : Names) (live : Nat → Prop) (s t : Store) : Prop where
  values : ∀ v, live v → t.through names v = s v
  fallback : ∀ v n, r.uninitialized.getD v none = some n → t n = .initial

namespace Agrees

variable {base r : Renaming} {names : Names} {live : Nat → Prop} {s t : Store} {i : Nat}

theorem weaken {live' : Nat → Prop} (agrees : Agrees r names live s t)
    (less : ∀ v, live' v → live v) : Agrees r names live' s t :=
  ⟨fun v here => agrees.values v (less v here), agrees.fallback⟩

/-- A name that is found is read as the binding was. -/
theorem nameOf (agrees : Agrees r names live s t) {v : Nat} (here : live v)
    (found : (lookup? r names v).isSome = true) : t (SingleAssignment.nameOf r names v) = s v := by
  have value := agrees.values v here
  unfold Store.through at value
  unfold lookup? at found
  unfold SingleAssignment.nameOf lookup?
  dsimp only at found ⊢
  cases name : names.lookup v with
  | some n =>
    rw [name] at value
    exact value
  | none =>
    rw [name] at value found
    obtain ⟨n, stands⟩ := Option.isSome_iff_exists.mp found
    dsimp only at stands ⊢
    rw [stands, Option.getD_some, agrees.fallback v n stands]
    exact value

theorem reads (agrees : Agrees r names live s t) (renamed : Renamed base r names i)
    (plain : (base.graph.instr i).isPhi = false)
    (known : ∀ v ∈ (base.graph.instr i).operands, live v) :
    (r.graph.instr i).slots.map t.read = (base.graph.instr i).slots.map s.read := by
  obtain ⟨f, same⟩ := renamed.reads plain
  rw [same, Instr.slots_mapTarget, Instr.slots_mapSlots, List.map_map]
  refine List.map_congr_left fun o member => ?_
  cases o with
  | const c => rfl
  | binding v =>
    have used := (Instr.mem_operands_of_plain plain).mpr member
    have value := agrees.nameOf (known v used) (renamed.found plain v used)
    exact congrArg some value

/-- A name that neither stands for nil nor is in force may be given any value. -/
theorem put (agrees : Agrees r names live s t) {n : Nat} (o : Origin)
    (apart : ∀ v m, live v → names.lookup v = some m → m ≠ n)
    (real : ∀ v, r.uninitialized.getD v none ≠ some n) : Agrees r names live s (t.put n o) where
  values v here := by
    rw [← agrees.values v here]
    unfold Store.through
    cases name : names.lookup v with
    | none => rfl
    | some m => exact if_neg (apart v m here name)
  fallback v m stands := by
    have other : m ≠ n := fun same => real v (same ▸ stands)
    exact (if_neg other).trans (agrees.fallback v m stands)

end Agrees

section Passing

variable {base r : Renaming} (progress : Progress base r)
include progress

/-- A name made for a definition stands for nothing else. -/
theorem Progress.real {i n : Nat} (inside : i < base.graph.instrs.size)
    (target : (r.graph.instr i).target? = some n) (new : base.graph.bindings.size ≤ n) (v : Nat) :
    r.uninitialized.getD v none ≠ some n := by
  intro stands
  have marked := (progress.marked v n stands).2.2
  rw [progress.initialized i n inside target new] at marked
  cases marked

/-- Only one instruction defines a name in force, and it defines the binding that the name is for. -/
theorem Progress.source_eq {names : Names} (sourced : Sourced base r names) {i v m : Nat}
    (inside : i < base.graph.instrs.size) (name : names.lookup v = some m)
    (target : (r.graph.instr i).target? = some m) : (base.graph.instr i).target? = some v := by
  obtain ⟨new, j, j_inside, source, j_target⟩ := sourced v m (mem_of_lookup name)
  have grown := progress.grown
  have same := progress.unique i j m (by omega) (by omega) new target j_target
  rw [same, source]

theorem Progress.isFallback_eq {names : Names} {i : Nat} (inside : i < base.graph.instrs.size)
    (plain : (base.graph.instr i).isPhi = false) (renamed : Renamed base r names i) :
    r.graph.isFallback (r.graph.instr i) = false := by
  cases shape : r.graph.instr i with
  | assign n o =>
    have target : (r.graph.instr i).target? = some n := by rw [shape]; rfl
    obtain ⟨f, same⟩ := renamed.reads plain
    have source : (base.graph.instr i).target?.map f = some n := by
      rw [← target, same, Instr.target?_mapTarget, Instr.target?_mapSlots]
    obtain ⟨v, source, _⟩ := Option.map_eq_some_iff.mp source
    obtain ⟨m, target', new⟩ := renamed.defines v source
    rw [target] at target'
    cases Option.some.inj target'
    simp [isFallback, progress.initialized i n inside target new]
  | _ => rfl

/-- An instruction of the program reads the same before and after renaming, and the stores agree again
after it. -/
theorem Agrees.passInstr {names : Names} {live : Nat → Prop} {s t : Store} {i : Nat}
    (agrees : Agrees r names live s t) (sourced : Sourced base r names)
    (renamed : Renamed base r names i) (inside : i < base.graph.instrs.size)
    (plain : (base.graph.instr i).isPhi = false)
    (original : base.graph.isFallback (base.graph.instr i) = false)
    (known : ∀ v ∈ (base.graph.instr i).operands, live v) (visit : Nat) (log : Reads) :
    ∃ s' t' log', base.graph.passInstr visit (s, log) (base.graph.instr i) = (s', log') ∧
      r.graph.passInstr visit (t, log) (r.graph.instr i) = (t', log') ∧
      Agrees r (addName base r names i)
        (fun v => live v ∨ (base.graph.instr i).target? = some v) s' t' := by
  obtain ⟨f, same⟩ := renamed.reads plain
  have plain' : (r.graph.instr i).isPhi = false := by simp [same, plain]
  have original' := progress.isFallback_eq inside plain renamed
  refine ⟨s.define (base.graph.instr i) (.written visit log.length),
    t.define (r.graph.instr i) (.written visit log.length),
    log ++ [(base.graph.instr i).slots.map s.read], ?_, ?_, ?_⟩
  · simp [FlowGraph.passInstr, plain, original]
  · simp [FlowGraph.passInstr, plain', original', agrees.reads renamed plain known]
  · cases source : (base.graph.instr i).target? with
    | none =>
      have no_target : (r.graph.instr i).target? = none := by
        rw [same, Instr.target?_mapTarget, Instr.target?_mapSlots, source]
        rfl
      simp only [Store.define, source, no_target, Option.elim_none, addName]
      exact agrees.weaken fun v here => here.resolve_right (by simp)
    | some v =>
      obtain ⟨n, target, new⟩ := renamed.defines v source
      have lookup := lookup_addName renamed
      rw [source, target] at lookup
      simp only [Store.define, source, target, Option.elim_some]
      have others : Agrees r names (fun u => live u ∧ u ≠ v) s
          (t.put n (.written visit log.length)) := by
        refine (agrees.weaken fun u here => here.1).put _ (fun u m here name => ?_)
          (progress.real inside target new)
        rintro rfl
        have again := progress.source_eq sourced inside name target
        rw [source] at again
        exact here.2 (Option.some.inj again).symm
      refine ⟨fun u here => ?_, others.fallback⟩
      unfold Store.through
      rw [lookup]
      by_cases eq : u = v
      · subst eq
        rw [if_pos rfl]
        exact (if_pos rfl).trans (if_pos rfl).symm
      · rw [if_neg (by simpa using Ne.symm eq)]
        have live_u := here.resolve_right (by simpa using Ne.symm eq)
        exact (others.values u ⟨live_u, eq⟩).trans (if_neg eq).symm

end Passing

end SingleAssignment

end ScriptFlow
