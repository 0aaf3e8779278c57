import ScriptFlow.Core.Table

/-! Class tables that a program sets up by adding to the core classes. Whatever is added, the core
classes stay where they are, and every module has a class. -/

namespace ScriptFlow.ClassTable

/-- Made from the core table by definitions. -/
inductive ExtendsCore : ClassTable → Prop where
  | core : ExtendsCore .core
  | defineClass {c : ClassTable} (path : String) (superclass : Option ModuleId) :
    ExtendsCore c → ExtendsCore (c.defineClass path superclass).2
  | defineModule {c : ClassTable} (path : String) :
    ExtendsCore c → ExtendsCore (c.defineModule path).2
  | includeModule {c : ClassTable} (target m : ModuleId) :
    ExtendsCore c → ExtendsCore (c.includeModule target m)
  | defineMethod {c : ClassTable} (owner : ModuleId) (s : MethodSpec) :
    ExtendsCore c → ExtendsCore (c.defineMethod owner s).2
  | setVisibility {c : ClassTable} (m : ModuleId) (name : String) (v : Visibility) :
    ExtendsCore c → ExtendsCore (c.setVisibility m name v)
  | setConstant {c : ClassTable} (m : ModuleId) (name : String) (v : Value) :
    ExtendsCore c → ExtendsCore (c.setConstant m name v)
  | declareVariable {c : ClassTable} (m : ModuleId) (name : String) (t : Ty) :
    ExtendsCore c → ExtendsCore (c.declareVariable m name t)
  | newObject {c : ClassTable} (m : ModuleId) : ExtendsCore c → ExtendsCore (c.newObject m).2

/-- A class that objects can have. -/
def HasClass (c : ClassTable) (m : Nat) : Prop := m < c.size ∧ c.isClass m = true

instance (c : ClassTable) (m : Nat) : Decidable (c.HasClass m) :=
  inferInstanceAs (Decidable (_ ∧ _))

/-- The classes of core values are there, and every module is an object of some class. -/
structure Grounded (c : ClassTable) : Prop where
  core : ∀ m < (30 : Nat), m ≠ CoreClass.kernel → c.HasClass m
  singletonOf : ∀ m < c.size, c.HasClass (c.singletonOf m)

/-! Changes of one record. -/

section

variable {c : ClassTable} {m k : ModuleId}

theorem size_modifyRecord (f : ModuleRecord → ModuleRecord) : (c.modifyRecord m f).size = c.size := by
  simp [modifyRecord, size]

theorem record_modifyRecord (f : ModuleRecord → ModuleRecord) :
    (c.modifyRecord m f).record k = if m = k ∧ m < c.size then f (c.record k) else c.record k := by
  simp only [record, modifyRecord, size, Array.getD_eq_getD_getElem?, Array.getElem?_modify]
  grind

theorem field_modifyRecord {α : Type} (field : ModuleRecord → α) {f : ModuleRecord → ModuleRecord}
    (same : ∀ r, field (f r) = field r) :
    field ((c.modifyRecord m f).record k) = field (c.record k) := by
  rw [record_modifyRecord]
  split
  · exact same _
  · rfl

theorem record_pushModule (path : String) (kind : ModuleKind) (superclass : Option ModuleId) :
    (c.pushModule path kind superclass).2.record k =
      if k = c.size then { (default : ModuleRecord) with path := path, kind := kind }
      else c.record k := by
  simp only [record, pushModule, size, Array.getD_eq_getD_getElem?, Array.getElem?_push]
  split <;> simp

theorem size_pushModule (path : String) (kind : ModuleKind) (superclass : Option ModuleId) :
    (c.pushModule path kind superclass).2.size = c.size + 1 := by
  simp [pushModule, size]

end

/-- Two tables with the same modules, as far as their kinds and classes go. -/
structure SameModules (c d : ClassTable) : Prop where
  size : d.size = c.size
  kind : ∀ m, d.kind m = c.kind m
  singleton : ∀ m, (d.record m).singleton = (c.record m).singleton

namespace SameModules

variable {c d : ClassTable}

theorem refl (c : ClassTable) : SameModules c c := ⟨rfl, fun _ => rfl, fun _ => rfl⟩

theorem of_modules (same : d.modules = c.modules) : SameModules c d := by
  refine ⟨?_, fun m => ?_, fun m => ?_⟩
  · rw [ClassTable.size, same, ClassTable.size]
  · rw [ClassTable.kind, record, same, ClassTable.kind, record]
  · rw [record, same, record]

theorem modifyRecord (m : ModuleId) {f : ModuleRecord → ModuleRecord}
    (kind : ∀ r, (f r).kind = r.kind) (singleton : ∀ r, (f r).singleton = r.singleton) :
    SameModules c (c.modifyRecord m f) :=
  ⟨size_modifyRecord f, fun _ => field_modifyRecord (·.kind) kind,
    fun _ => field_modifyRecord (·.singleton) singleton⟩

theorem hasClass (same : SameModules c d) {m : ModuleId} : d.HasClass m ↔ c.HasClass m := by
  rw [HasClass, HasClass, isClass, isClass, same.size, same.kind]

theorem singletonOf (same : SameModules c d) (m : ModuleId) : d.singletonOf m = c.singletonOf m := by
  rw [ClassTable.singletonOf, ClassTable.singletonOf, same.singleton]

theorem grounded (same : SameModules c d) (grounded : c.Grounded) : d.Grounded where
  core m low other := same.hasClass.mpr (grounded.core m low other)
  singletonOf m inside := by
    rw [same.singletonOf, same.hasClass]
    exact grounded.singletonOf m (same.size ▸ inside)

theorem bindPath (c : ClassTable) (path : String) (m : ModuleId) :
    SameModules c (c.bindPath path m) := by
  unfold ClassTable.bindPath
  dsimp only
  split
  · exact modifyRecord _ (fun _ => rfl) fun _ => rfl
  · exact refl c

end SameModules

/-! New modules. -/

theorem attachSingleton_eq (c : ClassTable) (m : ModuleId) :
    ∃ path parent, c.attachSingleton m =
      (c.pushModule path (.singleton m) parent).2.modifyRecord m fun r =>
        { r with singleton := some c.size } :=
  ⟨_, _, rfl⟩

/-- A definition adds two records: the module and, right after it, its singleton. -/
theorem defineNamed_records (c : ClassTable) (path : String) (kind : ModuleKind)
    (superclass : Option ModuleId) :
    (c.defineNamed path kind superclass).2.size = c.size + 2 ∧
      ∀ m : Nat,
        ((c.defineNamed path kind superclass).2.kind m =
          if m = c.size then kind else if m = c.size + 1 then .singleton c.size else c.kind m) ∧
        (((c.defineNamed path kind superclass).2.record m).singleton =
          if m = c.size then some (c.size + 1) else if m = c.size + 1 then none
          else (c.record m).singleton) := by
  have named : (c.defineNamed path kind superclass).2 =
      ((c.pushModule path kind superclass).2.attachSingleton c.size).bindPath path c.size := rfl
  have same := SameModules.bindPath ((c.pushModule path kind superclass).2.attachSingleton c.size)
    path c.size
  obtain ⟨path', parent, attached⟩ :=
    attachSingleton_eq (c.pushModule path kind superclass).2 c.size
  rw [named]
  refine ⟨?_, fun m => ?_⟩
  · rw [same.size, attached, size_modifyRecord, size_pushModule, size_pushModule]
  rw [same.kind, same.singleton, attached, ClassTable.kind, record_modifyRecord, record_pushModule,
    record_pushModule, size_pushModule, size_pushModule, ClassTable.kind]
  by_cases new : m = c.size
  · subst new
    have inside : c.size < c.size + 1 + 1 := by omega
    simp [inside]
  · by_cases last : m = c.size + 1
    · subst last
      exact ⟨by simp, by simp; rfl⟩
    · simp [new, last, Ne.symm new]

theorem Grounded.defineNamed {c : ClassTable} (grounded : c.Grounded) (path : String)
    (kind : ModuleKind) (superclass : Option ModuleId) :
    (c.defineNamed path kind superclass).2.Grounded := by
  obtain ⟨size, records⟩ := defineNamed_records c path kind superclass
  have keeps {m : Nat} (has : c.HasClass m) : (c.defineNamed path kind superclass).2.HasClass m := by
    have inside := has.1
    refine ⟨by omega, ?_⟩
    rw [isClass, (records m).1, if_neg (by omega), if_neg (by omega)]
    exact has.2
  have fresh : (c.defineNamed path kind superclass).2.HasClass (c.size + 1) := by
    refine ⟨by omega, ?_⟩
    rw [isClass, (records _).1, if_neg (by omega), if_pos rfl]
    rfl
  refine ⟨fun m low other => keeps (grounded.core m low other), fun m inside => ?_⟩
  rw [ClassTable.singletonOf, (records m).2]
  by_cases new : m = c.size
  · rw [if_pos new]
    exact fresh
  · by_cases last : m = c.size + 1
    · rw [if_neg new, if_pos last, last]
      exact fresh
    · rw [if_neg new, if_neg last]
      exact keeps (grounded.singletonOf m (by omega))

theorem core_grounded : ClassTable.core.Grounded where
  core := by decide +kernel
  singletonOf := by decide +kernel

theorem ExtendsCore.grounded {c : ClassTable} (extends_core : c.ExtendsCore) : c.Grounded := by
  induction extends_core with
  | core => exact core_grounded
  | defineClass path superclass _ ih => exact ih.defineNamed path .cls _
  | defineModule path _ ih => exact ih.defineNamed path .mixin none
  | @includeModule c target m _ ih => exact SameModules.grounded (c := c) (.of_modules rfl) ih
  | @defineMethod c owner s _ ih =>
    have pushed : SameModules c
        { c with methods := c.methods.push { s with id := c.methods.size, owner := owner } } :=
      .of_modules rfl
    exact SameModules.grounded (.modifyRecord owner (fun _ => rfl) fun _ => rfl) (pushed.grounded ih)
  | setVisibility m name v _ ih =>
    exact SameModules.grounded (.modifyRecord m (fun _ => rfl) fun _ => rfl) ih
  | setConstant m name v _ ih =>
    exact SameModules.grounded (.modifyRecord m (fun _ => rfl) fun _ => rfl) ih
  | declareVariable m name t _ ih =>
    exact SameModules.grounded (.modifyRecord m (fun _ => rfl) fun _ => rfl) ih
  | @newObject c m _ ih => exact SameModules.grounded (c := c) (.of_modules rfl) ih

end ScriptFlow.ClassTable
