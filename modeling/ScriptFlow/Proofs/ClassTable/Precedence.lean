import ScriptFlow.Proofs.ClassTable.Ancestors

/-! Which of two ancestors is asked first. No module stands before one that descends from it unless,
at some module, newer includes bring an ancestor without a module below it that an older include
brings: what is there already keeps its place. The superclass never causes this. -/

namespace ScriptFlow

open Relation

namespace Hierarchy

variable {links : Array Links} {depth : Nat} {m x y : ModuleId} {newer older : List ModuleId}

/-- No module of the list stands before one that leads to it. -/
def Orderly (links : Array Links) (chain : List ModuleId) : Prop :=
  chain.Pairwise fun a b => ¬ReflTransGen (LeadsTo links) b a

/-- At `m`, newer includes bring `y` but not `x`, which leads to `y` and which an older one brings. -/
def Overtakes (links : Array Links) (m y x : ModuleId) : Prop :=
  ReflTransGen (LeadsTo links) x y ∧
    (∀ s, (links.getD m default).superclass = some s → ¬ReflTransGen (LeadsTo links) s y) ∧
    ∃ newer i older, (links.getD m default).includes.reverse = newer ++ i :: older ∧
      ReflTransGen (LeadsTo links) i x ∧ (∀ j ∈ newer, ¬ReflTransGen (LeadsTo links) j x) ∧
      ∃ j ∈ newer, ReflTransGen (LeadsTo links) j y

theorem leadsTo_of_split {i : ModuleId}
    (split : (links.getD m default).includes.reverse = newer ++ i :: older) : LeadsTo links m i := by
  right
  rw [← List.mem_reverse, split]
  exact List.mem_append_right newer List.mem_cons_self

theorem Orderly.appendNew {chain more : List ModuleId} (there : Orderly links chain)
    (added : Orderly links more)
    (apart : ∀ a ∈ more, a ∉ chain → ∀ b ∈ chain, ¬ReflTransGen (LeadsTo links) a b) :
    Orderly links (appendNew chain more) := by
  induction more generalizing chain with
  | nil => exact there
  | cons a more ih =>
    obtain ⟨first, rest⟩ := List.pairwise_cons.mp added
    rw [Hierarchy.appendNew, List.foldl_cons]
    split
    · exact ih there rest fun b more new => apart b (List.mem_cons_of_mem a more) new
    · rename_i new
      rw [List.contains_iff_mem] at new
      refine ih (List.pairwise_append.mpr ⟨there, List.pairwise_singleton .., ?_⟩) rest ?_
      · intro b listed other is
        rw [List.mem_singleton.mp is]
        exact apart a List.mem_cons_self new b listed
      · intro b more new other listed
        rw [List.mem_append, List.mem_singleton] at new listed
        rcases listed with listed | rfl
        · exact apart b (List.mem_cons_of_mem a more) (fun there => new (.inl there)) other listed
        · exact first b more

/-- What includes bring beyond what the superclass brings. -/
def brought (links : Array Links) (depth : Nat) (m : ModuleId) (includes : List ModuleId) :
    List ModuleId :=
  (includes.flatMap (linearize links depth)).filter fun a => !(inherited links depth m).contains a

theorem Within.mem_brought (within : Within links (depth + 1) m)
    (split : (links.getD m default).includes.reverse = newer ++ older) {a : ModuleId} :
    a ∈ brought links depth m newer ↔
      (∃ i ∈ newer, ReflTransGen (LeadsTo links) i a) ∧ a ∉ inherited links depth m := by
  have reached : ∀ i ∈ newer, a ∈ linearize links depth i ↔ ReflTransGen (LeadsTo links) i a := by
    intro i is_newer
    have included : i ∈ (links.getD m default).includes.reverse := by
      rw [split]
      exact List.mem_append_left older is_newer
    exact (within.step (.inr (List.mem_reverse.mp included))).mem_linearize
  simp only [brought, List.mem_filter, List.mem_flatMap]
  grind

theorem appendNew_brought (is js : List ModuleId) :
    appendNew [m] (brought links depth m (is ++ js)) =
      appendNew (appendNew [m] (brought links depth m is)) (brought links depth m js) := by
  rw [brought, List.flatMap_append, List.filter_append]
  exact List.foldl_append

/-- The own chain grows include by include, from the newest on. -/
theorem Within.orderly_newer (within : Within links (depth + 1) m)
    (above : ∀ i, LeadsTo links m i → Orderly links (linearize links depth i))
    (never : ∀ x y, ¬Overtakes links m y x)
    (split : (links.getD m default).includes.reverse = newer ++ older) :
    Orderly links (appendNew [m] (brought links depth m newer)) := by
  induction newer using List.reverseRecOn generalizing older with
  | nil => exact List.pairwise_singleton ..
  | append_singleton newer i ih =>
    rw [List.append_assoc] at split
    have included : LeadsTo links m i := leadsTo_of_split split
    rw [appendNew_brought]
    have single : brought links depth m [i] = (linearize links depth i).filter fun a =>
        !(inherited links depth m).contains a := by
      rw [brought, List.flatMap_singleton]
    refine (ih split).appendNew (single ▸ (above i included).filter _) fun x brings new y listed reach => ?_
    rw [single, List.mem_filter] at brings
    rw [mem_appendNew, List.mem_singleton] at new listed
    have brings_x := (within.step included).mem_linearize.mp brings.1
    rcases listed with rfl | listed
    · exact within.acyclic (.head' included (brings_x.trans reach))
    · obtain ⟨⟨j, is_newer, brings_y⟩, new_y⟩ := (within.mem_brought split).mp listed
      refine never x y ⟨reach, fun s above reach => ?_, newer, i, older, split, brings_x, ?_,
        j, is_newer, brings_y⟩
      · exact new_y (within.mem_inherited.mpr ⟨s, above, reach⟩)
      · intro j is_newer brings_x
        refine new (.inr ((within.mem_brought split).mpr ⟨⟨j, is_newer, brings_x⟩, ?_⟩))
        simpa using brings.2

theorem Within.orderly (within : Within links depth m) (never : ∀ m x y, ¬Overtakes links m y x) :
    Orderly links (linearize links depth m) := by
  induction depth generalizing m with
  | zero => exact List.pairwise_singleton ..
  | succ depth ih =>
    rw [within.linearize_eq_append]
    refine List.pairwise_append.mpr ⟨?_, ?_, fun a own b inherits reach => ?_⟩
    · exact within.orderly_newer (fun i included => ih (within.step included)) (never m)
        (List.append_nil _).symm
    · rw [inherited]
      cases above : (links.getD m default).superclass with
      | none => exact List.Pairwise.nil
      | some s => exact ih (within.step (.inl above))
    · -- the superclass would bring `a` as well
      obtain ⟨s, above, before⟩ := within.mem_inherited.mp inherits
      have apart := (List.nodup_append.mp (within.linearize_eq_append ▸ nodup_linearize links _ m)).2.2
      exact apart a own a (within.mem_inherited.mpr ⟨s, above, before.trans reach⟩) rfl

/-- What newer includes bring stays in front of what only an older one brings. -/
theorem Overtakes.exists_linearize_eq (overtakes : Overtakes links m y x)
    (within : Within links (depth + 1) m) :
    ∃ front back, linearize links (depth + 1) m = front ++ back ∧ y ∈ front ∧ x ∈ back := by
  obtain ⟨reach, above, newer, i, older, split, brings, without, newer_y⟩ := overtakes
  obtain ⟨rest, grown⟩ := exists_appendNew_eq (appendNew [m] (brought links depth m newer))
    (brought links depth m (i :: older))
  have chain : linearize links (depth + 1) m =
      appendNew [m] (brought links depth m newer) ++ (rest ++ inherited links depth m) := by
    rw [within.linearize_eq_append, ← List.append_assoc, ← grown, ← appendNew_brought, ← split]
    rfl
  have included := leadsTo_of_split split
  have listed : x ∈ linearize links (depth + 1) m :=
    within.mem_linearize.mpr (.head included brings)
  refine ⟨_, _, chain, ?_, ?_⟩
  · rw [mem_appendNew, within.mem_brought split, within.mem_inherited]
    refine .inr ⟨newer_y, ?_⟩
    rintro ⟨s, is_above, reach⟩
    exact above s is_above reach
  · rw [chain, List.mem_append, mem_appendNew, within.mem_brought split, List.mem_singleton] at listed
    rcases listed with (rfl | ⟨⟨j, is_newer, brings⟩, -⟩) | listed
    · exact absurd (TransGen.head' included brings) within.acyclic
    · exact absurd brings (without j is_newer)
    · exact listed

end Hierarchy

namespace ClassTable

open Hierarchy

variable {c : ClassTable} {m : ModuleId}

/-- No module stands before one that has it among its own ancestors, at any module, if and only if
nowhere newer includes overtake older ones. -/
theorem ancestors_pairwise_iff (shallow : Shallow c.hierarchy.links) :
    (∀ m, (c.ancestors m).Pairwise fun a b => a ∉ c.ancestors b) ↔
      ∀ m x y, ¬Overtakes c.hierarchy.links m y x := by
  have mem_ancestors {b a : ModuleId} (inside : b < c.hierarchy.size) :
      a ∈ c.ancestors b ↔ ReflTransGen (LeadsTo c.hierarchy.links) b a := by
    rw [ancestors_eq inside]
    exact (shallow.within b).succ.mem_linearize
  constructor
  · intro ordered m x y overtakes
    have within := (shallow.within m).succ
    obtain ⟨front, back, chain, in_front, in_back⟩ := overtakes.exists_linearize_eq within
    obtain ⟨reach, -, newer, i, older, split, -, without, j, is_newer, brings⟩ := overtakes
    have inside : x < c.hierarchy.size := by
      rcases reach.cases_head with rfl | ⟨a, link, -⟩
      · exact absurd brings (without j is_newer)
      · exact link.lt_size
    have apart := ordered m
    rw [ancestors_eq (leadsTo_of_split split).lt_size, maxLinks, chain] at apart
    exact (List.pairwise_append.mp apart).2.2 y in_front x in_back ((mem_ancestors inside).mpr reach)
  · intro never m
    by_cases inside : m < c.hierarchy.size
    · rw [ancestors_eq inside]
      refine ((shallow.within m).succ.orderly never).imp fun {a b} apart => ?_
      by_cases inside : b < c.hierarchy.size
      · exact mt (mem_ancestors inside).mp apart
      · rw [ancestors_of_outside (Nat.le_of_not_lt inside)]
        exact List.not_mem_nil
    · rw [ancestors_of_outside (Nat.le_of_not_lt inside)]
      exact List.Pairwise.nil

/-- The method that is found is not overridden by an ancestor that descends from its owner. -/
theorem instanceMethod?_not_overridden {name : String} {id : MethodId}
    (ordered : (c.ancestors m).Pairwise fun a b => a ∉ c.ancestors b)
    (found : c.instanceMethod? m name = some id) :
    ∃ owner ∈ c.ancestors m, (c.record owner).methods.get? name = some id ∧
      ∀ a ∈ c.ancestors m, owner ∈ c.ancestors a → a ≠ owner → (c.record a).methods.get? name = none := by
  obtain ⟨before, owner, after, split, has, none⟩ := List.findSome?_eq_some_iff.mp found
  rw [split] at ordered ⊢
  refine ⟨owner, by simp, has, fun a listed descends other => ?_⟩
  rcases List.mem_append.mp listed with ahead | behind
  · exact none a ahead
  · have later := (List.mem_cons.mp behind).resolve_left other
    have apart := (List.pairwise_cons.mp (List.pairwise_append.mp ordered).2.1).1 a later
    exact absurd descends apart

end ClassTable

end ScriptFlow
