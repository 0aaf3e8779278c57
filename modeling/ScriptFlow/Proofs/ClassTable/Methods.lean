import ScriptFlow.Proofs.ClassTable.Extension
import ScriptFlow.Proofs.Dict

/-! Where the methods of a class table come from: what a lookup finds was defined at an ancestor under
that name, and what was defined stays until it is defined again. -/

namespace ScriptFlow.ClassTable

variable {c d : ClassTable}

/-- Every method that a module holds is one of the listed ones. -/
def MethodsFrom (c : ClassTable) (ms : Core.MethodList) : Prop :=
  ∀ (a : ModuleId) (name : String) (id : MethodId),
    (c.record a).methods.get? name = some id →
      id < c.methods.size ∧ (a, (c.method id).toMethodSpec) ∈ ms ∧ (c.method id).name = name

/-- Whether a module itself has a method of the name. -/
def holds (c : ClassTable) (a : ModuleId) (name : String) : Bool :=
  ((c.record a).methods.get? name).isSome

/-- Two tables with the same methods at the modules of the first; new modules have none. -/
structure SameMethods (c d : ClassTable) : Prop where
  methods : d.methods = c.methods
  entries : ∀ a, (d.record a).methods = (c.record a).methods

namespace SameMethods

theorem refl (c : ClassTable) : SameMethods c c := ⟨rfl, fun _ => rfl⟩

theorem trans {e : ClassTable} (cd : SameMethods c d) (de : SameMethods d e) : SameMethods c e :=
  ⟨de.methods.trans cd.methods, fun a => (de.entries a).trans (cd.entries a)⟩

theorem modifyRecord (c : ClassTable) (m : ModuleId) {f : ModuleRecord → ModuleRecord}
    (same : ∀ r, (f r).methods = r.methods) : SameMethods c (c.modifyRecord m f) :=
  ⟨rfl, fun _ => field_modifyRecord (·.methods) same⟩

theorem pushModule (c : ClassTable) (path : String) (kind : ModuleKind)
    (superclass : Option ModuleId) : SameMethods c (c.pushModule path kind superclass).2 := by
  refine ⟨rfl, fun a => ?_⟩
  rw [record_pushModule]
  split
  · rename_i here
    rw [here, record, Array.getD_eq_getD_getElem?, size, Array.getElem?_eq_none (Nat.le_refl _)]
    rfl
  · rfl

theorem attachSingleton (c : ClassTable) (m : ModuleId) : SameMethods c (c.attachSingleton m) := by
  obtain ⟨path, parent, eq⟩ := attachSingleton_eq c m
  rw [eq]
  exact (pushModule c path _ parent).trans (modifyRecord _ m fun _ => rfl)

theorem bindPath (c : ClassTable) (path : String) (m : ModuleId) :
    SameMethods c (c.bindPath path m) := by
  unfold ClassTable.bindPath
  dsimp only
  split
  · exact modifyRecord c _ fun _ => rfl
  · exact refl c

theorem defineNamed (c : ClassTable) (path : String) (kind : ModuleKind)
    (superclass : Option ModuleId) : SameMethods c (c.defineNamed path kind superclass).2 :=
  ((pushModule c path kind superclass).trans (attachSingleton _ c.size)).trans (bindPath _ path c.size)

theorem methodsFrom (same : SameMethods c d) {ms : Core.MethodList} (listed : c.MethodsFrom ms) :
    d.MethodsFrom ms := by
  intro a name id found
  rw [same.entries] at found
  rw [method, same.methods]
  exact listed a name id found

theorem holds (same : SameMethods c d) (a : ModuleId) (name : String) :
    d.holds a name = c.holds a name := by
  rw [ClassTable.holds, same.entries, ClassTable.holds]

end SameMethods

/-! New methods. -/

theorem record_defineMethod (c : ClassTable) (owner a : ModuleId) (s : MethodSpec) :
    ((c.defineMethod owner s).2.record a).methods =
      if owner = a ∧ owner < c.size then (c.record a).methods.put s.name c.methods.size
      else (c.record a).methods := by
  change (((({ c with methods := _ } : ClassTable).modifyRecord owner _).record a).methods) = _
  rw [record_modifyRecord]
  exact apply_ite ModuleRecord.methods _ _ _

theorem method_defineMethod (c : ClassTable) (owner : ModuleId) (s : MethodSpec) (id : MethodId) :
    (c.defineMethod owner s).2.method id =
      if id = c.methods.size then { s with id := c.methods.size, owner := owner } else c.method id := by
  change (c.methods.push _).getD id default = _
  rw [Array.getD_eq_getD_getElem?, Array.getElem?_push]
  split
  · rfl
  · exact (Array.getD_eq_getD_getElem? ..).symm

theorem MethodsFrom.defineMethod {ms : Core.MethodList} (listed : c.MethodsFrom ms)
    (owner : ModuleId) (s : MethodSpec) :
    (c.defineMethod owner s).2.MethodsFrom (ms ++ [(owner, s)]) := by
  have size : (c.defineMethod owner s).2.methods.size = c.methods.size + 1 := Array.size_push _
  intro a name id found
  rw [record_defineMethod] at found
  by_cases new : (owner = a ∧ owner < c.size) ∧ name = s.name
  · rw [if_pos new.1, new.2, Dict.get?_put, if_pos rfl] at found
    cases Option.some.inj found
    rw [method_defineMethod, if_pos rfl, size]
    refine ⟨Nat.lt_succ_self _, List.mem_append_right _ ?_, new.2.symm⟩
    rw [new.1.1]
    exact List.mem_singleton_self _
  · have found : (c.record a).methods.get? name = some id := by
      split at found
      · rw [Dict.get?_put, if_neg fun same => new ⟨‹_›, same⟩] at found
        exact found
      · exact found
    obtain ⟨inside, member, named⟩ := listed a name id found
    rw [method_defineMethod, if_neg (Nat.ne_of_lt inside), size]
    exact ⟨Nat.lt_succ_of_lt inside, List.mem_append_left _ member, named⟩

theorem holds_defineMethod (owner : ModuleId) (s : MethodSpec) {a : ModuleId} {name : String}
    (there : c.holds a name = true ∨ (owner = a ∧ owner < c.size) ∧ name = s.name) :
    (c.defineMethod owner s).2.holds a name = true := by
  rw [holds, record_defineMethod]
  rw [holds] at there
  split
  · rw [Dict.get?_put]
    split
    · rfl
    · exact there.resolve_right fun new => absurd new.2 ‹_›
  · exact there.resolve_right fun new => absurd new.1 ‹_›

theorem defineAll_methods {ms : Core.MethodList} (more : Core.MethodList)
    (listed : c.MethodsFrom ms) :
    (Core.defineAll c more).MethodsFrom (ms ++ more) ∧ (Core.defineAll c more).size = c.size ∧
      (∀ a name, c.holds a name = true → (Core.defineAll c more).holds a name = true) ∧
      ∀ e ∈ more, e.1 < c.size → (Core.defineAll c more).holds e.1 e.2.name = true := by
  induction more generalizing c ms with
  | nil =>
    refine ⟨?_, rfl, fun _ _ there => there, fun e member => by cases member⟩
    rw [List.append_nil]
    exact listed
  | cons e more ih =>
    obtain ⟨from_all, size, keeps, has⟩ := ih (listed.defineMethod e.1 e.2)
    have same : (c.defineMethod e.1 e.2).2.size = c.size := size_modifyRecord _
    rw [List.append_assoc] at from_all
    refine ⟨from_all, size.trans same, fun a name there => ?_, fun x member inside => ?_⟩
    · exact keeps a name (holds_defineMethod e.1 e.2 (.inl there))
    · rcases List.mem_cons.mp member with rfl | later
      · exact keeps x.1 x.2.name (holds_defineMethod x.1 x.2 (.inr ⟨⟨rfl, inside⟩, rfl⟩))
      · exact has x later (by rw [same]; exact inside)

/-! The core methods. -/

def coreMethods : Core.MethodList :=
  Core.kernelMethods ++ Core.moduleMethods ++ Core.singletonMethods Core.skeleton ++
    Core.numericMethods ++ Core.textMethods ++ Core.collectionMethods ++
    Core.exceptionMethods Core.skeleton

theorem skeleton_methodsFrom : Core.skeleton.MethodsFrom [] := by
  have inside_bare : ∀ a < Core.skeleton.size, (Core.skeleton.record a).methods.entries = [] := by
    decide +kernel
  intro a name id found
  have bare : (Core.skeleton.record a).methods.entries = [] := by
    by_cases inside : a < Core.skeleton.size
    · exact inside_bare a inside
    · rw [record, Array.getD_eq_getD_getElem?, Array.getElem?_eq_none (Nat.le_of_not_lt inside)]
      rfl
  rw [Dict.get?, bare] at found
  cases found

theorem core_methods : ClassTable.core.MethodsFrom coreMethods ∧
    ∀ e ∈ coreMethods, ClassTable.core.holds e.1 e.2.name = true := by
  obtain ⟨listed, -, -, has⟩ := defineAll_methods coreMethods skeleton_methodsFrom
  have owners : ∀ e ∈ coreMethods, e.1 < Core.skeleton.size := by decide +kernel
  have same : SameMethods (Core.defineAll Core.skeleton coreMethods) ClassTable.core :=
    .modifyRecord _ _ fun _ => rfl
  refine ⟨same.methodsFrom listed, fun e member => ?_⟩
  rw [same.holds]
  exact has e member (owners e member)

/-! Lookup. -/

/-- A method that is found belongs to an ancestor, and none before it has one of the name. -/
theorem exists_of_instanceMethod {k : ModuleId} {name : String} {id : MethodId}
    (found : c.instanceMethod? k name = some id) :
    ∃ before a after, c.ancestors k = before ++ a :: after ∧
      (c.record a).methods.get? name = some id ∧ ∀ b ∈ before, c.holds b name = false := by
  obtain ⟨before, a, after, split, has, none⟩ := List.findSome?_eq_some_iff.mp found
  refine ⟨before, a, after, split, has, fun b member => ?_⟩
  exact congrArg Option.isSome (none b member)

theorem inside_of_ancestors {k : ModuleId} (some_ancestor : c.ancestors k ≠ []) :
    k < c.hierarchy.size := by
  by_contra outside
  refine some_ancestor ?_
  have size : c.hierarchy.lineages.get.size = c.hierarchy.size := by
    rw [c.hierarchy.lineages_eq]
    simp [Hierarchy.lineagesOf, Hierarchy.size]
  rw [ancestors, Hierarchy.ancestors, Array.getD_eq_getD_getElem?,
    Array.getElem?_eq_none (size ▸ Nat.le_of_not_lt outside), Option.getD_none]

end ScriptFlow.ClassTable
