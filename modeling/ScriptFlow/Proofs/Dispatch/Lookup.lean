import Mathlib.Logic.Relation
import ScriptFlow.Proofs.ClassTable.Lineage
import ScriptFlow.Proofs.Dispatch.Aggregate

/-! Looking a method up sorts the classes of the receiver: each of them is open, hidden or without the
method, and goes on with a receiver type that has room for all its values. -/

namespace ScriptFlow

namespace ClassTable

/-- The definitions that a class table is made by. -/
inductive Defines (c : ClassTable) : ClassTable → Prop where
  | defineClass (path : String) (superclass : Option ModuleId) :
    Defines c (c.defineClass path superclass).2
  | defineModule (path : String) : Defines c (c.defineModule path).2
  | includeModule (target m : ModuleId) : Defines c (c.includeModule target m)
  | defineMethod (owner : ModuleId) (s : MethodSpec) : Defines c (c.defineMethod owner s).2
  | setVisibility (m : ModuleId) (name : String) (v : Visibility) :
    Defines c (c.setVisibility m name v)
  | setConstant (m : ModuleId) (name : String) (v : Value) : Defines c (c.setConstant m name v)
  | declareVariable (m : ModuleId) (name : String) (t : Ty) : Defines c (c.declareVariable m name t)
  | newObject (m : ModuleId) : Defines c (c.newObject m).2

/-- Made by definitions, from the core table or from nothing. -/
def Made (c : ClassTable) : Prop :=
  Relation.ReflTransGen Defines .core c ∨ Relation.ReflTransGen Defines .empty c

/-- Modules come in pairs of which the second is not a mixin: it is the singleton of the first, or
one of the core classes in an odd place. -/
structure Paired (c : ClassTable) : Prop where
  linked : c.hierarchy.size = c.size
  even : c.size % 2 = 0
  odd : ∀ m : Nat, m % 2 = 1 → c.kind m ≠ .mixin

variable {c d : ClassTable}

theorem core_paired : ClassTable.core.Paired := by
  have facts : ClassTable.core.hierarchy.size = ClassTable.core.size ∧ ClassTable.core.size % 2 = 0 ∧
      ∀ m < ClassTable.core.size, m % 2 = 1 → ClassTable.core.kind m ≠ .mixin := by
    decide +kernel
  refine ⟨facts.1, facts.2.1, fun m odd mixin => ?_⟩
  exact facts.2.2 m (lt_size_of_kind (by simp [mixin])) odd mixin

theorem empty_paired : ClassTable.empty.Paired :=
  ⟨rfl, rfl, fun m _ mixin => by
    have inside : m < 0 := lt_size_of_kind (c := .empty) (by simp [mixin])
    exact absurd inside (Nat.not_lt_zero m)⟩

namespace Paired

theorem of_same (paired : c.Paired) (same : SameModules c d)
    (links : d.hierarchy.size = c.hierarchy.size) : d.Paired where
  linked := by rw [links, paired.linked, same.size]
  even := same.size ▸ paired.even
  odd m odd := by
    rw [same.kind]
    exact paired.odd m odd

theorem defineNamed (paired : c.Paired) (path : String) (kind : ModuleKind)
    (superclass : Option ModuleId) : (c.defineNamed path kind superclass).2.Paired := by
  obtain ⟨parent, hierarchy, -, -⟩ := hierarchy_defineNamed c path kind superclass paired.linked
  have adds := adds_defineNamed paired.linked hierarchy
  have even := paired.even
  refine ⟨adds.linked, by rw [adds.size]; omega, fun m odd => ?_⟩
  rw [adds.kinds, if_neg (by omega)]
  split
  · simp
  · exact paired.odd m odd

theorem defines (paired : c.Paired) (step : c.Defines d) : d.Paired := by
  cases step with
  | defineClass path superclass => exact paired.defineNamed ..
  | defineModule path => exact paired.defineNamed ..
  | includeModule target m =>
    exact paired.of_same (.of_modules rfl) (Hierarchy.addInclude_spec c.hierarchy target m).1
  | defineMethod owner s =>
    have pushed : SameModules c
        { c with methods := c.methods.push { s with id := c.methods.size, owner := owner } } :=
      .of_modules rfl
    exact (paired.of_same pushed rfl).of_same (.modifyRecord owner (fun _ => rfl) fun _ => rfl) rfl
  | setVisibility m name v => exact paired.of_same (.modifyRecord m (fun _ => rfl) fun _ => rfl) rfl
  | setConstant m name v => exact paired.of_same (.modifyRecord m (fun _ => rfl) fun _ => rfl) rfl
  | declareVariable m name t => exact paired.of_same (.modifyRecord m (fun _ => rfl) fun _ => rfl) rfl
  | newObject m => exact paired.of_same (.of_modules rfl) rfl

end Paired

theorem Made.paired (made : c.Made) : c.Paired := by
  have kept {base d : ClassTable} (start : base.Paired)
      (steps : Relation.ReflTransGen Defines base d) : d.Paired := by
    induction steps with
    | refl => exact start
    | tail _ step ih => exact ih.defines step
  exact made.elim (kept core_paired) (kept empty_paired)

theorem Paired.hasClass_array (paired : c.Paired) {m : ModuleId}
    (is : c.isA CoreClass.array m = true) : c.HasClass CoreClass.array := by
  refine ⟨?_, by simpa [isClass] using paired.odd CoreClass.array rfl⟩
  by_contra outside
  have none : c.ancestors CoreClass.array = [] :=
    ancestors_of_outside (paired.linked ▸ Nat.le_of_not_lt outside)
  change (c.ancestors CoreClass.array).contains m = true at is
  rw [none] at is
  cases is

/-- Whether a method may be called with a written receiver where `self` has the given type. -/
def VisibleTo (c : ClassTable) (self : Ty) (cls : ModuleId) (name : String) (method : MethodId) : Prop :=
  c.visibilityOf cls name = .anyone ∨
    c.visibilityOf cls name = .family ∧ self.isTop = false ∧
      ∃ k ∈ c.possibleClasses self, c.isA k (c.method method).owner = true

end ClassTable

namespace Resolution

def targets (res : Resolution) : List Target := res.accessible ++ res.concealed

/-- The classes that are spoken of, as often as they are. -/
def classes (res : Resolution) : List ModuleId := res.targets.map (·.cls) ++ res.missing

theorem count_classes (res : Resolution) (k : ModuleId) :
    res.classes.count k = (res.accessible.map (·.cls)).count k +
      (res.concealed.map (·.cls)).count k + res.missing.count k := by
  simp [classes, targets, List.count_append, Nat.add_assoc]

/-- The lookup of a method has sorted the classes of the receiver. -/
structure Sorts (c : ClassTable) (self receiver : Ty) (name : String) (ignoreVisibility : Bool)
    (res : Resolution) : Prop where
  known : res.unknown = false
  once : res.classes.Nodup
  all : ∀ k, k ∈ res.classes ↔ k ∈ c.possibleClasses receiver
  missing : ∀ k ∈ c.possibleClasses receiver, k ∈ res.missing ↔ c.instanceMethod? k name = none
  method : ∀ t ∈ res.targets, c.instanceMethod? t.cls name = some t.method
  hidden : ∀ t ∈ res.targets, t ∈ res.concealed ↔
    ignoreVisibility = false ∧ ¬c.VisibleTo self t.cls name t.method
  /-- No value of the receiver is lost on the way to the method of its class. -/
  covers : ∀ t ∈ res.targets, ∀ v, c.admits receiver v = true → c.classOf v = t.cls →
    c.admits t.receiver v = true

end Resolution

namespace Resolver

variable (r : Resolver) (name : String) (ignoreVisibility : Bool)

theorem isVisible_withCaller_iff (self : Ty) (cls : ModuleId) (method : MethodId) :
    (r.withCaller self).isVisible cls name method = true ↔
      r.table.VisibleTo self cls name method := by
  simp only [isVisible, withCaller, ClassTable.VisibleTo]
  cases r.table.visibilityOf cls name with
  | anyone => simp
  | implicitOnly => simp
  | family => cases self.isTop <;> simp

/-! Filing class by class. -/

/-- What is true of a resolution once some classes are filed. -/
structure Filed (res : Resolution) (ks : List (ModuleId × Ty)) : Prop where
  classes : res.classes.Perm (ks.map Prod.fst)
  missing : ∀ k ∈ res.missing, r.table.instanceMethod? k name = none
  accessible : ∀ t ∈ res.accessible, (t.cls, t.receiver) ∈ ks ∧
    r.table.instanceMethod? t.cls name = some t.method ∧
    (ignoreVisibility || r.isVisible t.cls name t.method) = true
  concealed : ∀ t ∈ res.concealed, (t.cls, t.receiver) ∈ ks ∧
    r.table.instanceMethod? t.cls name = some t.method ∧
    (ignoreVisibility || r.isVisible t.cls name t.method) = false

variable {r name ignoreVisibility}

theorem Filed.file {res : Resolution} {ks : List (ModuleId × Ty)}
    (filed : r.Filed name ignoreVisibility res ks) (k : ModuleId × Ty) :
    r.Filed name ignoreVisibility (r.fileAll name ignoreVisibility res [k]) (ks ++ [k]) := by
  obtain ⟨classes, missing, accessible, concealed⟩ := filed
  simp only [List.perm_iff_count, Resolution.count_classes] at classes
  -- wherever the class is put, it is counted once more than before
  simp only [fileAll, List.foldl_cons, List.foldl_nil, Resolver.place]
  cases lookup : r.table.instanceMethod? k.1 name with
  | none =>
    refine ⟨List.perm_iff_count.mpr fun j => ?_, by grind, by grind, by grind⟩
    grind [Resolution.count_classes]
  | some m =>
    dsimp only
    split
    · refine ⟨List.perm_iff_count.mpr fun j => ?_, missing, by grind, by grind⟩
      grind [Resolution.count_classes]
    · refine ⟨List.perm_iff_count.mpr fun j => ?_, missing, by grind, by grind⟩
      grind [Resolution.count_classes]

theorem Filed.fileAll {res : Resolution} {done : List (ModuleId × Ty)}
    (filed : r.Filed name ignoreVisibility res done) (ks : List (ModuleId × Ty)) :
    r.Filed name ignoreVisibility (r.fileAll name ignoreVisibility res ks) (done ++ ks) := by
  induction ks generalizing res done with
  | nil => simpa [Resolver.fileAll] using filed
  | cons k ks ih =>
    rw [List.append_cons]
    exact ih (filed.file k)

/-! What a class goes on with. -/

/-- An alternative brings to its classes itself or the class alone. Either has room for a value of
the class that the alternative admits. -/
theorem exists_brought {c : ClassTable} {m : Member} {v : Value}
    (possible : c.classOf v ∈ c.memberClasses m) (admitted : c.admitsMember m v = true) :
    ∃ a, (∃ u, (c.classOf v, u) ∈ receiversOf c m ∧ a ∈ u.members) ∧ c.admitsMember a v = true := by
  have listed : c.classOf v ∈ c.possibleClasses (.ofMember m) :=
    ClassTable.mem_possibleClasses.mpr ⟨m, List.mem_singleton_self m, possible⟩
  have brought : (c.classOf v, if (c.possibleClasses (.ofMember m)).length = 1 then Ty.ofMember m
      else .exact (c.classOf v)) ∈ receiversOf c m :=
    List.mem_map.mpr ⟨_, listed, rfl⟩
  split at brought
  · exact ⟨m, ⟨_, brought, List.mem_singleton_self m⟩, admitted⟩
  · refine ⟨.cls (c.classOf v) .exact, ⟨_, brought, List.mem_singleton_self _⟩, ?_⟩
    exact beq_self_eq_true (c.classOf v)

/-- A value has the receiver type that is recorded for its class. -/
theorem admits_of_recorded {c : ClassTable} (paired : c.Paired) {receiver t : Ty} {v : Value}
    (recorded : (c.classOf v, t) ∈ receiverClasses c receiver)
    (admitted : c.admits receiver v = true) : c.admits t v = true := by
  suffices alternative : ∃ m ∈ receiver.members, c.classOf v ∈ c.memberClasses m ∧
      c.admitsMember m v = true by
    obtain ⟨m, m_in, possible, admitted⟩ := alternative
    obtain ⟨a, brought, admitted⟩ := exists_brought possible admitted
    exact ClassTable.admits_iff.mpr ⟨a, mem_members_of_recorded recorded m_in brought, admitted⟩
  obtain ⟨m, m_in, m_admits⟩ := ClassTable.admits_iff.mp admitted
  by_cases has : c.HasClass (c.classOf v)
  · exact ⟨m, m_in, ClassTable.mem_memberClasses has m_admits, m_admits⟩
  -- no class of the table: the alternative that names it does so exactly, or `v` is an array
  obtain ⟨n, n_in, possible⟩ := ClassTable.mem_possibleClasses.mp
    (mem_keys_receiverClasses.mp (List.mem_map_of_mem recorded))
  cases n with
  | cls k variance =>
    cases variance with
    | exact =>
      refine ⟨_, n_in, possible, ?_⟩
      simpa [ClassTable.memberClasses, ClassTable.admitsMember] using possible
    | orBelow => exact absurd (ClassTable.mem_descendants.mp possible).1 has
  | tuple slots =>
    have is_array : c.classOf v = CoreClass.array := List.mem_singleton.mp possible
    cases m with
    | cls k variance =>
      cases variance with
      | exact =>
        refine ⟨_, m_in, ?_, m_admits⟩
        simpa [ClassTable.memberClasses, ClassTable.admitsMember] using m_admits
      | orBelow =>
        rw [ClassTable.admitsMember, is_array] at m_admits
        exact absurd (is_array ▸ paired.hasClass_array m_admits) has
    | tuple slots => exact ⟨_, m_in, List.mem_singleton.mpr is_array, m_admits⟩

theorem Filed.sorts {self receiver : Ty} {res : Resolution} (paired : r.table.Paired)
    (known : res.unknown = false)
    (filed : (r.withCaller self).Filed name ignoreVisibility res (receiverClasses r.table receiver)) :
    res.Sorts r.table self receiver name ignoreVisibility := by
  have found : ∀ t ∈ res.targets, (t.cls, t.receiver) ∈ receiverClasses r.table receiver ∧
      r.table.instanceMethod? t.cls name = some t.method := by
    intro t member
    rcases List.mem_append.mp member with shown | hidden
    · exact ⟨(filed.accessible t shown).1, (filed.accessible t shown).2.1⟩
    · exact ⟨(filed.concealed t hidden).1, (filed.concealed t hidden).2.1⟩
  have all (k : ModuleId) : k ∈ res.classes ↔ k ∈ r.table.possibleClasses receiver := by
    rw [filed.classes.mem_iff, mem_keys_receiverClasses]
  refine ⟨known, filed.classes.nodup_iff.mpr (nodup_receiverClasses ..), all, fun k possible => ?_,
    fun t member => (found t member).2, fun t member => ?_, fun t member v admitted is_class => ?_⟩
  · refine ⟨filed.missing k, fun none => ?_⟩
    refine (List.mem_append.mp ((all k).mpr possible)).resolve_left fun listed => ?_
    obtain ⟨t, member, rfl⟩ := List.mem_map.mp listed
    rw [(found t member).2] at none
    cases none
  · have hides : (ignoreVisibility || (r.withCaller self).isVisible t.cls name t.method) = false ↔
        ignoreVisibility = false ∧ ¬r.table.VisibleTo self t.cls name t.method := by
      rw [Bool.or_eq_false_iff, Bool.eq_false_iff (b := isVisible ..), Ne, isVisible_withCaller_iff]
    rw [← hides]
    refine ⟨fun hidden => (filed.concealed t hidden).2.2, fun closed => ?_⟩
    refine (List.mem_append.mp member).resolve_left fun shown => ?_
    rw [(filed.accessible t shown).2.2] at closed
    cases closed
  · exact admits_of_recorded paired (is_class ▸ (found t member).1) admitted

/-- Looking a method up sorts the classes of a receiver of which something is known. -/
theorem resolve_sorts (r : Resolver) (made : r.table.Made) (self : Ty) {receiver : Ty}
    (known : receiver.isTop = false) (name : String) (ignoreVisibility : Bool) :
    ((r.withCaller self).resolve receiver name ignoreVisibility).Sorts r.table self receiver name
      ignoreVisibility := by
  have start : (r.withCaller self).Filed name ignoreVisibility default [] :=
    ⟨.nil, nofun, nofun, nofun⟩
  rw [resolve_eq (r.withCaller self) name ignoreVisibility known]
  exact (start.fileAll _).sorts made.paired (unknown_fileAll ..)

/-- A class `Point`, with a method for its family, and a class `Dot` below it. -/
def dots : ClassTable :=
  let c := ((ClassTable.empty.defineModule "Shape").2.defineClass "Point" none).2
  (ClassTable.defineMethod (c.defineClass "Dot" (some 2)).2 2
    { MethodSpec.builtinMethod "area" [] with visibility := .family }).2

/-- A point, a dot or a pair. -/
def pointOrPair : Ty := ((Ty.orBelow 2).join (.exact 4)).join (.tuple [.orBelow 2, .exact 4])

/-- Points and dots have a method that is hidden from others, and pairs do not have it. -/
theorem resolve_sorts_dots :
    dots.Made ∧ pointOrPair.isTop = false ∧
      (((ofTable dots).withCaller .nil).resolve pointOrPair "area" false).Sorts dots .nil
        pointOrPair "area" false ∧
      ((ofTable dots).withCaller .nil).resolve pointOrPair "area" false =
        ⟨[], [⟨2, .exact 2, 0⟩, ⟨4, .exact 4, 0⟩], [CoreClass.array], false⟩ := by
  have made : dots.Made :=
    .inr (.tail (.tail (.tail (.single (.defineModule _)) (.defineClass _ _)) (.defineClass _ _))
      (.defineMethod _ _))
  have known : pointOrPair.isTop = false := by decide
  refine ⟨made, known, ?_, by decide +kernel⟩
  exact resolve_sorts (ofTable dots) made .nil known "area" false

end Resolver

end ScriptFlow
