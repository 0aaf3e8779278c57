import Mathlib.Data.List.Chain
import Mathlib.Data.List.Nodup
import Mathlib.Logic.Relation
import ScriptFlow.Proofs.ClassTable.Lineage

/-! Ancestor lists as a whole. Where no chain of links is cut off, the ancestors of a module are what
its links lead to, each listed once, and those of the superclass close the list. -/

namespace ScriptFlow

namespace Hierarchy

variable {links : Array Links} {depth : Nat} {m s a b : ModuleId}

/-- A module leads to its superclass and to what it includes. -/
def LeadsTo (links : Array Links) (m a : ModuleId) : Prop :=
  (links.getD m default).superclass = some a ∨ a ∈ (links.getD m default).includes

/-- No more than 64 links follow one another. In particular there are no cycles, round which chains
have no end. -/
def Shallow (links : Array Links) : Prop :=
  ∀ chain : List ModuleId, chain.IsChain (LeadsTo links) → chain.length ≤ 64 + 1

/-- No chain of links from the module is longer than `depth`. -/
def Within (links : Array Links) (depth : Nat) (m : ModuleId) : Prop :=
  ∀ chain : List ModuleId, (m :: chain).IsChain (LeadsTo links) → chain.length ≤ depth

theorem Shallow.within (shallow : Shallow links) (m : ModuleId) : Within links 64 m :=
  fun chain is_chain => Nat.le_of_succ_le_succ (shallow (m :: chain) is_chain)

theorem Within.step (within : Within links (depth + 1) m) (link : LeadsTo links m a) :
    Within links depth a := by
  intro chain is_chain
  have longer := within (a :: chain) (List.isChain_cons_cons.mpr ⟨link, is_chain⟩)
  exact Nat.le_of_succ_le_succ longer

theorem Within.not_leadsTo (within : Within links 0 m) (a : ModuleId) : ¬LeadsTo links m a :=
  fun link => absurd (within [a] (List.isChain_pair.mpr link)) (Nat.not_succ_le_zero 0)

theorem Within.succ (within : Within links depth m) : Within links (depth + 1) m :=
  fun chain is_chain => Nat.le_succ_of_le (within chain is_chain)

/-- Links that can be counted down do not come back. -/
theorem Within.acyclic (within : Within links depth m) :
    ¬Relation.TransGen (LeadsTo links) m m := by
  intro round
  induction depth generalizing m with
  | zero =>
    obtain ⟨a, link, -⟩ := Relation.TransGen.head'_iff.mp round
    exact within.not_leadsTo a link
  | succ depth ih =>
    obtain ⟨a, link, back⟩ := Relation.TransGen.head'_iff.mp round
    exact ih (within.step link) (.tail' back link)

/-! What a list of ancestors holds. -/

/-- The module, and the ancestors of all that it leads to. What is left out among the includes comes
with the superclass. -/
theorem mem_linearize_succ :
    a ∈ linearize links (depth + 1) m ↔
      a = m ∨ ∃ b, LeadsTo links m b ∧ a ∈ linearize links depth b := by
  have inherits : a ∈ inherited links depth m ↔
      ∃ b, (links.getD m default).superclass = some b ∧ a ∈ linearize links depth b := by
    rw [inherited]
    cases (links.getD m default).superclass <;> simp
  rw [linearize_succ, mem_appendNew, mem_ownChain, inherits]
  simp only [LeadsTo, or_and_right, exists_or]
  grind

theorem Within.mem_linearize (within : Within links depth m) :
    a ∈ linearize links depth m ↔ Relation.ReflTransGen (LeadsTo links) m a := by
  induction depth generalizing m with
  | zero =>
    rw [linearize, List.mem_singleton, Relation.ReflTransGen.cases_head_iff, eq_comm, iff_self_or]
    rintro ⟨b, link, -⟩
    exact absurd link (within.not_leadsTo b)
  | succ depth ih =>
    rw [mem_linearize_succ, Relation.ReflTransGen.cases_head_iff, eq_comm]
    refine or_congr_right (exists_congr fun b => and_congr_right fun link => ?_)
    exact ih (within.step link)

/-- What no chain needs does not change the list. -/
theorem Within.linearize_succ_eq (within : Within links depth m) :
    linearize links (depth + 1) m = linearize links depth m := by
  induction depth generalizing m with
  | zero =>
    have no_superclass : (links.getD m default).superclass = none :=
      Option.eq_none_iff_forall_not_mem.mpr fun a above => within.not_leadsTo a (.inl above)
    have no_includes : (links.getD m default).includes = [] :=
      List.eq_nil_iff_forall_not_mem.mpr fun a included => within.not_leadsTo a (.inr included)
    rw [linearize_succ, ownChain, inherited, no_superclass, no_includes]
    rfl
  | succ depth ih =>
    have same_inherited : inherited links (depth + 1) m = inherited links depth m := by
      rw [inherited, inherited]
      cases above : (links.getD m default).superclass with
      | none => rfl
      | some s => exact ih (within.step (.inl above))
    have same_included : (links.getD m default).includes.reverse.flatMap (linearize links (depth + 1)) =
        (links.getD m default).includes.reverse.flatMap (linearize links depth) := by
      refine List.flatMap_congr fun i included => ?_
      exact ih (within.step (.inr (List.mem_reverse.mp included)))
    rw [linearize_succ, linearize_succ, ownChain, ownChain, same_inherited, same_included]

/-! How the list is put together. -/

theorem nodup_appendNew {chain : List ModuleId} (distinct : chain.Nodup) (more : List ModuleId) :
    (appendNew chain more).Nodup := by
  induction more generalizing chain with
  | nil => exact distinct
  | cons m more ih =>
    rw [appendNew, List.foldl_cons]
    refine ih ?_
    split
    · exact distinct
    · rename_i new
      rw [List.contains_iff_mem] at new
      exact List.nodup_append.mpr ⟨distinct, List.nodup_singleton m, by grind⟩

theorem appendNew_eq_append {chain more : List ModuleId} (distinct : more.Nodup)
    (new : ∀ a ∈ more, a ∉ chain) : appendNew chain more = chain ++ more := by
  induction more generalizing chain with
  | nil => exact (List.append_nil chain).symm
  | cons m more ih =>
    rw [List.nodup_cons] at distinct
    have unlisted : chain.contains m = false := by
      simpa using new m List.mem_cons_self
    rw [appendNew, List.foldl_cons, unlisted, if_neg Bool.false_ne_true]
    change appendNew (chain ++ [m]) more = _
    rw [ih distinct.2 (by grind), List.append_assoc]
    rfl

theorem nodup_linearize (links : Array Links) (depth : Nat) (m : ModuleId) :
    (linearize links depth m).Nodup := by
  cases depth with
  | zero => exact List.nodup_singleton m
  | succ depth =>
    rw [linearize_succ]
    exact nodup_appendNew (nodup_appendNew (List.nodup_singleton m) _) _

theorem Within.mem_inherited (within : Within links (depth + 1) m) :
    a ∈ inherited links depth m ↔
      ∃ s, (links.getD m default).superclass = some s ∧ Relation.ReflTransGen (LeadsTo links) s a := by
  rw [inherited]
  cases above : (links.getD m default).superclass with
  | none => simp
  | some s => simp [(within.step (.inl above)).mem_linearize]

/-- The includes leave room for all that the superclass brings, and the module is not below itself. -/
theorem Within.linearize_eq_append (within : Within links (depth + 1) m) :
    linearize links (depth + 1) m = ownChain links depth m ++ inherited links depth m := by
  have distinct : (inherited links depth m).Nodup := by
    rw [inherited]
    cases (links.getD m default).superclass with
    | none => exact List.nodup_nil
    | some s => exact nodup_linearize links depth s
  rw [linearize_succ, appendNew_eq_append distinct]
  intro a inherits own
  rcases mem_ownChain.mp own with rfl | ⟨-, new⟩
  · obtain ⟨s, above, back⟩ := within.mem_inherited.mp inherits
    exact within.acyclic (.head' (.inl above) back)
  · exact new inherits

theorem Within.linearize_suffix (within : Within links (depth + 1) m)
    (above : (links.getD m default).superclass = some s) :
    linearize links depth s <:+ linearize links (depth + 1) m := by
  rw [within.linearize_eq_append, inherited, above]
  exact List.suffix_append ..

theorem LeadsTo.lt_size (link : LeadsTo links m a) : m < links.size := by
  by_contra outside
  rw [LeadsTo, Array.getD_eq_getD_getElem?, Array.getElem?_eq_none (Nat.le_of_not_lt outside)] at link
  rcases link with above | included
  · cases above
  · cases included

/-! Links that descend in rank. -/

theorem shallow_of_rank (rank : ModuleId → Nat)
    (falls : ∀ m < links.size, rank m ≤ 64 ∧
      (∀ a ∈ (links.getD m default).superclass, rank a < rank m) ∧
      ∀ a ∈ (links.getD m default).includes, rank a < rank m) : Shallow links := by
  have counted : ∀ (chain : List ModuleId) (m : ModuleId), (m :: chain).IsChain (LeadsTo links) →
      chain.length ≤ rank m := by
    intro chain
    induction chain with
    | nil => exact fun m _ => Nat.zero_le _
    | cons a chain ih =>
      intro m is_chain
      obtain ⟨link, rest⟩ := List.isChain_cons_cons.mp is_chain
      obtain ⟨-, above, included⟩ := falls m link.lt_size
      exact (ih a rest).trans_lt (link.elim (above a) (included a))
  intro chain is_chain
  cases chain with
  | nil => exact Nat.zero_le _
  | cons m chain =>
    cases chain with
    | nil => exact Nat.le_add_left 1 64
    | cons a chain =>
      have start := (List.isChain_cons_cons.mp is_chain).1.lt_size
      exact Nat.succ_le_succ ((counted _ m is_chain).trans (falls m start).1)

end Hierarchy

namespace ClassTable

open Hierarchy

/-- The ancestors of a module are the module itself in front, then the others that its links lead
to, none of them twice, those of the superclass together and in their own order at the end. -/
theorem ancestors_complete {c : ClassTable} (shallow : Shallow c.hierarchy.links) {m : ModuleId}
    (inside : m < c.hierarchy.size) :
    (c.ancestors m).head? = some m ∧ (c.ancestors m).Nodup ∧
      (∀ a, a ∈ c.ancestors m ↔ Relation.ReflTransGen (LeadsTo c.hierarchy.links) m a) ∧
      ∀ s, c.hierarchy.superclass? m = some s → c.ancestors s <:+ c.ancestors m := by
  have within := (shallow.within m).succ
  have chain : c.ancestors m = linearize c.hierarchy.links maxLinks m := ancestors_eq inside
  refine ⟨?_, ?_, fun a => ?_, fun s above => ?_⟩
  · obtain ⟨rest, first⟩ := exists_linearize_eq c.hierarchy.links maxLinks m
    rw [chain, first]
    rfl
  · rw [chain]
    exact nodup_linearize ..
  · rw [chain]
    exact within.mem_linearize
  · by_cases known : s < c.hierarchy.size
    · have below : linearize c.hierarchy.links maxLinks s = linearize c.hierarchy.links 64 s :=
        (shallow.within s).linearize_succ_eq
      rw [chain, ancestors_eq known, below]
      exact within.linearize_suffix above
    · rw [ancestors_of_outside (Nat.le_of_not_lt known)]
      exact List.nil_suffix

/-- A class `Point` with a module `Shape`, and below it a class `Dot` with a module `Round` that
includes `Shape` as well. -/
def roundShapes : ClassTable :=
  let c := ((ClassTable.empty.defineModule "Shape").2.defineModule "Round").2
  let c := ((c.defineClass "Point" none).2.defineClass "Dot" (some 4)).2
  ((c.includeModule 4 0).includeModule 2 0).includeModule 6 2

/-- `Shape` comes with `Point`, not with `Round`. -/
theorem ancestors_complete_roundShapes :
    Shallow roundShapes.hierarchy.links ∧ roundShapes.ancestors 6 = [6, 2, 4, 0] ∧
      Relation.ReflTransGen (LeadsTo roundShapes.hierarchy.links) 6 0 ∧
      ¬Relation.ReflTransGen (LeadsTo roundShapes.hierarchy.links) 6 5 ∧
      roundShapes.ancestors 4 <:+ roundShapes.ancestors 6 := by
  have shallow : Shallow roundShapes.hierarchy.links :=
    shallow_of_rank (fun m => (roundShapes.ancestors m).length) (by decide +kernel)
  obtain ⟨-, -, reached, ends⟩ := ancestors_complete shallow (m := 6) (by decide +kernel)
  refine ⟨shallow, by decide +kernel, (reached 0).mp (by decide +kernel), fun reach => ?_,
    ends 4 (by decide +kernel)⟩
  exact absurd ((reached 5).mpr reach) (by decide +kernel)

end ClassTable

end ScriptFlow
