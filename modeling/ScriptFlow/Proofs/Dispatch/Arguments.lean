import Mathlib.Data.List.Nodup
import Mathlib.Data.Option.Basic
import ScriptFlow.Dispatch.Aggregate
import ScriptFlow.Proofs.ClassTable.Values

/-! The combinations of argument alternatives are the product of the alternatives, and no list of
arguments falls outside all of them. -/

namespace ScriptFlow

/-- One alternative for each type; an empty type stands for itself. -/
def OneOfEach : List Ty → List Ty → Prop :=
  List.Forall₂ fun u t => t.members = [] ∧ u = .empty ∨ ∃ m ∈ t.members, u = .ofMember m

/-- How many combinations there are. -/
def combinations (ts : List Ty) : Nat := ts.foldr (fun t n => max t.size 1 * n) 1

theorem mem_argumentChoices {u t : Ty} : u ∈ argumentChoices t ↔
    t.members = [] ∧ u = .empty ∨ ∃ m ∈ t.members, u = .ofMember m := by
  unfold argumentChoices
  split
  · rename_i none
    have none : t.members = [] := by simpa [Ty.isEmpty] using none
    simp [none]
  · rename_i some_member
    have some_member : t.members ≠ [] := by simpa [Ty.isEmpty] using some_member
    simp [some_member, Ty.memberTypes, eq_comm]

theorem argumentChoices_ne_nil (t : Ty) : argumentChoices t ≠ [] := by
  unfold argumentChoices
  split
  · simp
  · rename_i full
    simpa [Ty.memberTypes, Ty.isEmpty] using full

/-! Choosing from left to right. -/

theorem choices_foldl (ts : List Ty) (tuples : List (List Ty)) :
    ts.foldl (fun tuples t => tuples.flatMap fun us => (argumentChoices t).map (us ++ [·])) tuples =
      tuples.flatMap fun us => (choices ts).map (us ++ ·) := by
  induction ts generalizing tuples with
  | nil => simp [choices]
  | cons t ts ih =>
    have first : choices (t :: ts) = _ := ih _
    rw [List.foldl_cons, ih, first]
    simp [List.flatMap_assoc, List.map_flatMap, List.flatMap_map, Function.comp_def]

theorem choices_cons (t : Ty) (ts : List Ty) :
    choices (t :: ts) = (argumentChoices t).flatMap fun u => (choices ts).map (u :: ·) := by
  rw [choices, List.foldl_cons, choices_foldl]
  simp [List.flatMap_map]

theorem choices_ne_nil (ts : List Ty) : choices ts ≠ [] := by
  induction ts with
  | nil => exact List.cons_ne_nil _ _
  | cons t ts ih =>
    obtain ⟨a, as, first⟩ := List.exists_cons_of_ne_nil (argumentChoices_ne_nil t)
    simp [choices_cons, first, ih]

theorem mem_choices {us ts : List Ty} : us ∈ choices ts ↔ OneOfEach us ts := by
  unfold OneOfEach
  induction ts generalizing us with
  | nil => simp [choices]
  | cons t ts ih =>
    simp only [choices_cons, List.mem_flatMap, List.mem_map, ih, mem_argumentChoices,
      List.forall₂_cons_right_iff]
    grind

theorem nodup_argumentChoices {t : Ty} (sorted : t.Sorted) : (argumentChoices t).Nodup := by
  unfold argumentChoices
  split
  · exact List.nodup_singleton _
  · refine sorted.nodup.map fun a b same => ?_
    simpa [Ty.ofMember] using same

theorem nodup_choices {ts : List Ty} (sorted : ∀ t ∈ ts, t.Sorted) : (choices ts).Nodup := by
  induction ts with
  | nil => exact List.nodup_singleton _
  | cons t ts ih =>
    rw [choices_cons, List.nodup_flatMap]
    constructor
    · intro u _
      exact (ih fun t member => sorted t (.tail _ member)).map fun a b same => (List.cons.inj same).2
    · refine (nodup_argumentChoices (sorted t (by simp))).imp fun {a b} other => ?_
      simp only [Function.onFun, List.disjoint_left, List.mem_map]
      rintro _ ⟨us, _, rfl⟩ ⟨vs, _, same⟩
      exact other (List.cons.inj same).1.symm

theorem combinations_pos (ts : List Ty) : 0 < combinations ts := by
  induction ts with
  | nil => exact Nat.one_pos
  | cons t ts ih => exact Nat.mul_pos (by omega) ih

/-- Once a product is too large, so are those after it. -/
theorem foldlM_count (ts : List Ty) {n : Nat} (few : n ≤ maxArgumentTuples) :
    ts.foldlM (fun n t => (some (n * Nat.max t.size 1)).filter (· ≤ maxArgumentTuples)) n =
      (some (n * combinations ts)).filter (· ≤ maxArgumentTuples) := by
  induction ts generalizing n with
  | nil => simp [combinations, few, Option.filter_some]
  | cons t ts ih =>
    have whole : n * combinations (t :: ts) = n * Nat.max t.size 1 * combinations ts :=
      (Nat.mul_assoc ..).symm
    rw [List.foldlM_cons, whole, Option.filter_some]
    by_cases more : n * Nat.max t.size 1 ≤ maxArgumentTuples
    · rw [if_pos (decide_eq_true more)]
      exact ih more
    · have grown := Nat.le_mul_of_pos_right (n * Nat.max t.size 1) (combinations_pos ts)
      have large : ¬n * Nat.max t.size 1 * combinations ts ≤ maxArgumentTuples := by omega
      rw [if_neg (by simpa using more), Option.filter_some, if_neg (by simpa using large)]
      rfl

theorem countChoices_isNone (ts : List Ty) :
    (countChoices ts).isNone = decide (maxArgumentTuples < combinations ts) := by
  rw [countChoices, foldlM_count ts (by decide), Nat.one_mul, Option.filter_some]
  split <;> simp_all

theorem argumentTuples_eq (ts : List Ty) : argumentTuples (some ts) =
    if (∀ t ∈ ts, t.isTop = false) ∧ combinations ts ≤ maxArgumentTuples then (choices ts).map some
    else [some ts] := by
  have whole : (decide (maxArgumentTuples < combinations ts) || ts.any (·.isTop)) = true ↔
      ¬((∀ t ∈ ts, t.isTop = false) ∧ combinations ts ≤ maxArgumentTuples) := by
    rw [Bool.or_eq_true, decide_eq_true_iff, List.any_eq_true]
    grind
  simp only [argumentTuples, countChoices_isNone, whole, ite_not]

/-- Arguments that have their types have an alternative of each of them. -/
theorem exists_choice_admits {c : ClassTable} {ts : List Ty} {vs : List Value}
    (admitted : c.admitsAll ts vs = true) : ∃ us ∈ choices ts, c.admitsAll us vs = true := by
  induction ts generalizing vs with
  | nil => exact ⟨[], by simp [choices], admitted⟩
  | cons t ts ih =>
    cases vs with
    | nil => cases admitted
    | cons v vs =>
      rw [ClassTable.admitsAll, Bool.and_eq_true, ClassTable.admits_iff] at admitted
      obtain ⟨⟨m, member, here⟩, others⟩ := admitted
      obtain ⟨us, chosen, rest⟩ := ih others
      refine ⟨.ofMember m :: us, ?_, ?_⟩
      · rw [choices_cons, List.mem_flatMap]
        exact ⟨_, mem_argumentChoices.mpr (.inr ⟨m, member, rfl⟩), List.mem_map_of_mem chosen⟩
      · rw [ClassTable.admitsAll, Bool.and_eq_true, ClassTable.admits_iff]
        exact ⟨⟨m, by simp [Ty.ofMember, Ty.members], here⟩, rest⟩

/-- Unless an argument may be anything or there are too many of them, the combinations are all choices
of one alternative for each argument, each once; else the types stand whole. Either way, all arguments
of the given types are covered. -/
theorem argumentTuples_exact (c : ClassTable) {ts : List Ty} (sorted : ∀ t ∈ ts, t.Sorted) :
    ((∀ t ∈ ts, t.isTop = false) ∧ combinations ts ≤ maxArgumentTuples →
      (argumentTuples (some ts)).Nodup ∧ ∀ tuple, tuple ∈ argumentTuples (some ts) ↔
        ∃ us, tuple = some us ∧ us.length = ts.length ∧ OneOfEach us ts) ∧
    (¬((∀ t ∈ ts, t.isTop = false) ∧ combinations ts ≤ maxArgumentTuples) →
      argumentTuples (some ts) = [some ts]) ∧
    ∀ vs, c.admitsAll ts vs = true →
      ∃ us, some us ∈ argumentTuples (some ts) ∧ c.admitsAll us vs = true := by
  rw [argumentTuples_eq]
  refine ⟨fun apart => ?_, fun whole => if_neg whole, fun vs admitted => ?_⟩
  · rw [if_pos apart]
    refine ⟨(nodup_choices sorted).map (Option.some_injective _), fun tuple => ?_⟩
    simp only [List.mem_map, mem_choices]
    constructor
    · rintro ⟨us, chosen, rfl⟩
      exact ⟨us, rfl, chosen.length_eq, chosen⟩
    · rintro ⟨us, rfl, -, chosen⟩
      exact ⟨us, chosen, rfl⟩
  · split
    · obtain ⟨us, chosen, fits⟩ := exists_choice_admits admitted
      exact ⟨us, List.mem_map_of_mem chosen, fits⟩
    · exact ⟨ts, by simp, admitted⟩

theorem argumentTuples_exact_boolean :
    (∀ t ∈ [Ty.boolean, .empty], t.Sorted) ∧
    (argumentTuples (some [Ty.boolean, .empty])).Nodup ∧
    some [Ty.exact CoreClass.falseClass, .empty] ∈ argumentTuples (some [Ty.boolean, .empty]) := by
  have sorted : ∀ t ∈ [Ty.boolean, .empty], t.Sorted := by
    simp [Ty.boolean, Ty.exact, (Ty.sorted_ofMember _).join, Ty.sorted_empty]
  obtain ⟨once, mem⟩ := (argumentTuples_exact .empty sorted).1 (by decide +kernel)
  refine ⟨sorted, once, (mem _).mpr ⟨_, rfl, rfl, .cons (.inr ⟨_, ?_, rfl⟩) (.cons (.inl ?_) .nil)⟩⟩
  · decide +kernel
  · exact ⟨rfl, rfl⟩

end ScriptFlow
