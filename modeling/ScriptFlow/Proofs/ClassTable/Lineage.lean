import ScriptFlow.Proofs.ClassTable.Methods

/-! The order in which ancestors are asked. A module comes before what it descends from, mixins have
mixins only for ancestors, and a class object is asked as a module before it is asked as an object
like any other. -/

namespace ScriptFlow

open CoreClass

namespace Hierarchy

variable {a p : ModuleId}
variable {links : Array Links}

@[simp] theorem mem_appendNew {chain more : List ModuleId} :
    a ∈ appendNew chain more ↔ a ∈ chain ∨ a ∈ more := by
  induction more generalizing chain with
  | nil => simp [appendNew]
  | cons m more ih =>
    rw [appendNew, List.foldl_cons]
    change a ∈ appendNew _ more ↔ _
    rw [ih]
    split
    · rename_i there
      simp only [List.contains_iff_mem] at there
      grind
    · grind

theorem exists_appendNew_eq (chain more : List ModuleId) :
    ∃ rest, appendNew chain more = chain ++ rest := by
  induction more generalizing chain with
  | nil => exact ⟨[], (List.append_nil _).symm⟩
  | cons m more ih =>
    obtain ⟨rest, eq⟩ := ih (if chain.contains m then chain else chain ++ [m])
    rw [appendNew, List.foldl_cons]
    change ∃ rest, appendNew _ more = _
    rw [eq]
    split
    · exact ⟨rest, rfl⟩
    · exact ⟨m :: rest, by simp⟩

/-- Where something new is added, all that came before stays before it. -/
theorem exists_appendNew_split {chain before : List ModuleId} (after : List ModuleId)
    (new : a ∉ chain) (first : a ∉ before) :
    ∃ rest, appendNew chain (before ++ a :: after) = appendNew chain before ++ a :: rest := by
  have added : appendNew chain (before ++ a :: after) =
      appendNew (appendNew chain before ++ [a]) after := by
    have fresh : (appendNew chain before).contains a = false := by
      simp [new, first]
    rw [appendNew, List.foldl_append, List.foldl_cons]
    change appendNew (if (appendNew chain before).contains a then _ else _) after = _
    rw [fresh]
    rfl
  obtain ⟨rest, eq⟩ := exists_appendNew_eq (appendNew chain before ++ [a]) after
  exact ⟨rest, by rw [added, eq, List.append_assoc]; rfl⟩

/-- What a module has from its superclass. -/
def inherited (links : Array Links) (depth : Nat) (m : ModuleId) : List ModuleId :=
  ((links.getD m default).superclass.map (linearize links depth)).getD []

/-- The module itself and what it includes, as far as the superclass does not bring it. -/
def ownChain (links : Array Links) (depth : Nat) (m : ModuleId) : List ModuleId :=
  appendNew [m] (((links.getD m default).includes.reverse.flatMap (linearize links depth)).filter
    fun a => !(inherited links depth m).contains a)

theorem linearize_succ (depth : Nat) (m : ModuleId) :
    linearize links (depth + 1) m = appendNew (ownChain links depth m) (inherited links depth m) := by
  rw [linearize, ownChain, inherited]
  cases (links.getD m default).superclass <;> rfl

theorem mem_ownChain {depth : Nat} {m : ModuleId} :
    a ∈ ownChain links depth m ↔
      a = m ∨ (∃ i ∈ (links.getD m default).includes, a ∈ linearize links depth i) ∧
        a ∉ inherited links depth m := by
  simp [ownChain]

theorem exists_linearize_eq (links : Array Links) (depth : Nat) (m : ModuleId) :
    ∃ rest, linearize links depth m = m :: rest := by
  cases depth with
  | zero => exact ⟨[], rfl⟩
  | succ depth =>
    obtain ⟨own, own_eq⟩ := exists_appendNew_eq [m] _
    obtain ⟨rest, eq⟩ := exists_appendNew_eq (ownChain links depth m) (inherited links depth m)
    rw [linearize_succ, eq, ownChain, own_eq]
    exact ⟨own ++ rest, rfl⟩

theorem mem_linearize_self (depth : Nat) (m : ModuleId) : m ∈ linearize links depth m := by
  obtain ⟨rest, eq⟩ := exists_linearize_eq links depth m
  rw [eq]
  exact List.mem_cons_self

/-! New links. -/

theorem superclass?_push (h : Hierarchy) (superclass : Option ModuleId) (m : ModuleId) :
    (h.push superclass).superclass? m = if m = h.size then superclass else h.superclass? m := by
  simp only [superclass?, push, ofLinks, size, Array.getD_eq_getD_getElem?, Array.getElem?_push]
  split <;> rfl

theorem includes_push (h : Hierarchy) (superclass : Option ModuleId) (m : ModuleId) :
    (h.push superclass).includes m = h.includes m := by
  simp only [includes, push, ofLinks, Array.getD_eq_getD_getElem?, Array.getElem?_push]
  split
  · rename_i last
    rw [last, Array.getElem?_eq_none (Nat.le_refl _)]
    rfl
  · rfl

theorem size_push (h : Hierarchy) (superclass : Option ModuleId) :
    (h.push superclass).size = h.size + 1 := by
  simp [size, push, ofLinks]

theorem addInclude_spec (h : Hierarchy) (target m : ModuleId) :
    (h.addInclude target m).size = h.size ∧
      ∀ k, (h.addInclude target m).superclass? k = h.superclass? k ∧
        h.includes k ⊆ (h.addInclude target m).includes k ∧
        (h.addInclude target m).includes k ⊆ m :: h.includes k := by
  rw [addInclude]
  split
  · exact ⟨rfl, fun k => ⟨rfl, fun _ => id, fun _ => List.mem_cons_of_mem m⟩⟩
  · refine ⟨Array.size_modify .., fun k => ?_⟩
    simp only [superclass?, includes, ofLinks, Array.getD_eq_getD_getElem?, Array.getElem?_modify]
    by_cases here : target = k
    · subst here
      cases h.links[target]? <;> simp
    · simp [here]

end Hierarchy

namespace ClassTable

variable {c d : ClassTable}

theorem ancestors_eq {m : ModuleId} (inside : m < c.hierarchy.size) :
    c.ancestors m = Hierarchy.linearize c.hierarchy.links Hierarchy.maxLinks m := by
  rw [ancestors, Hierarchy.ancestors, c.hierarchy.lineages_eq, Hierarchy.lineagesOf,
    Array.getD_eq_getD_getElem?]
  have inside : m < c.hierarchy.links.size := inside
  simp [inside]

theorem ancestors_of_outside {m : ModuleId} (outside : c.hierarchy.size ≤ m) :
    c.ancestors m = [] := by
  rw [ancestors, Hierarchy.ancestors, c.hierarchy.lineages_eq, Hierarchy.lineagesOf,
    Array.getD_eq_getD_getElem?]
  have outside : c.hierarchy.links.size ≤ m := outside
  simp [outside]

def isSingleton (c : ClassTable) (m : ModuleId) : Bool :=
  match c.kind m with
  | .singleton _ => true
  | _ => false

/-- Classes of class objects: singletons, and those that singletons descend from. -/
def isMeta (c : ClassTable) (m : ModuleId) : Bool :=
  m == moduleClass || m == classClass || c.isSingleton m

/-- Only classes have superclasses, only mixins are included, and singletons descend from singletons
or from the core classes for class objects. -/
structure Lineal (c : ClassTable) : Prop where
  sized : 30 ≤ c.size
  linked : c.hierarchy.size = c.size
  objectPath : (c.paths.get? "Object").isSome = true
  modulePath : c.paths.get? "Module" = some moduleClass
  coreKind : ∀ m < (30 : Nat), c.kind m = if m = kernel then .mixin else .cls
  coreSingleton : ∀ m < (30 : Nat), c.singletonOf m = m + 30
  moduleAbove : c.hierarchy.superclass? moduleClass = some object
  classAbove : c.hierarchy.superclass? classClass = some moduleClass
  kernelIncluded : kernel ∈ c.hierarchy.includes object
  mixinAbove : ∀ m < c.size, c.kind m = .mixin → c.hierarchy.superclass? m = none
  singletonAbove : ∀ m < c.size, c.isSingleton m = true →
    ∀ p ∈ c.hierarchy.superclass? m, c.isMeta p = true
  singleton : ∀ m < c.size, c.isSingleton (c.singletonOf m) = true
  included : ∀ m < c.size, ∀ a ∈ c.hierarchy.includes m, c.kind a = .mixin

theorem core_lineal : ClassTable.core.Lineal := by
  have facts : 30 ≤ ClassTable.core.size ∧ ClassTable.core.hierarchy.size = ClassTable.core.size ∧
      ((ClassTable.core.paths.get? "Object").isSome = true ∧
        ClassTable.core.paths.get? "Module" = some moduleClass) ∧
      (∀ m < (30 : Nat), ClassTable.core.kind m = (if m = kernel then .mixin else .cls) ∧
        ClassTable.core.singletonOf m = m + 30) ∧
      (ClassTable.core.hierarchy.superclass? moduleClass = some object ∧
        ClassTable.core.hierarchy.superclass? classClass = some moduleClass ∧
        kernel ∈ ClassTable.core.hierarchy.includes object) ∧
      ∀ m < ClassTable.core.size,
        (ClassTable.core.kind m = .mixin → ClassTable.core.hierarchy.superclass? m = none) ∧
        (ClassTable.core.isSingleton m = true →
          ∀ p ∈ ClassTable.core.hierarchy.superclass? m, ClassTable.core.isMeta p = true) ∧
        ClassTable.core.isSingleton (ClassTable.core.singletonOf m) = true ∧
        ∀ a ∈ ClassTable.core.hierarchy.includes m, ClassTable.core.kind a = .mixin := by
    decide +kernel
  obtain ⟨sized, linked, ⟨objectPath, modulePath⟩, coreKind, ⟨moduleAbove, classAbove, kernelIncluded⟩,
    each⟩ := facts
  exact ⟨sized, linked, objectPath, modulePath, fun m low => (coreKind m low).1,
    fun m low => (coreKind m low).2, moduleAbove, classAbove, kernelIncluded,
    fun m inside => (each m inside).1, fun m inside => (each m inside).2.1,
    fun m inside => (each m inside).2.2.1, fun m inside => (each m inside).2.2.2⟩

theorem lt_size_of_kind {m : ModuleId} (other : c.kind m ≠ .cls) : m < c.size := by
  by_contra outside
  refine other ?_
  rw [kind, record, Array.getD_eq_getD_getElem?, Array.getElem?_eq_none (Nat.le_of_not_lt outside)]
  rfl

theorem singleton_of_outside {m : ModuleId} (outside : c.size ≤ m) : (c.record m).singleton = none := by
  rw [record, Array.getD_eq_getD_getElem?, Array.getElem?_eq_none outside]
  rfl

theorem kind_of_isSingleton {m : ModuleId} (is : c.isSingleton m = true) :
    c.kind m ≠ .cls ∧ c.kind m ≠ .mixin := by
  rw [isSingleton] at is
  split at is
  · rename_i kind
    simp [kind]
  · cases is

theorem SameModules.isSingleton (same : SameModules c d) (m : ModuleId) :
    d.isSingleton m = c.isSingleton m := by
  rw [ClassTable.isSingleton, same.kind, ClassTable.isSingleton]

theorem SameModules.isMeta (same : SameModules c d) (m : ModuleId) : d.isMeta m = c.isMeta m := by
  rw [ClassTable.isMeta, same.isSingleton, ClassTable.isMeta]

namespace Lineal

/-- What becomes of methods, constants and variables does not matter. -/
theorem of_same (lineal : c.Lineal) (same : SameModules c d) (hierarchy : d.hierarchy = c.hierarchy)
    (paths : d.paths = c.paths) : d.Lineal where
  sized := same.size ▸ lineal.sized
  linked := by rw [hierarchy, same.size, lineal.linked]
  objectPath := paths ▸ lineal.objectPath
  modulePath := paths ▸ lineal.modulePath
  coreKind m core := (same.kind m).trans (lineal.coreKind m core)
  coreSingleton m core := (same.singletonOf m).trans (lineal.coreSingleton m core)
  moduleAbove := hierarchy ▸ lineal.moduleAbove
  classAbove := hierarchy ▸ lineal.classAbove
  kernelIncluded := hierarchy ▸ lineal.kernelIncluded
  mixinAbove m inside mixin := by
    rw [hierarchy]
    exact lineal.mixinAbove m (same.size ▸ inside) (same.kind m ▸ mixin)
  singletonAbove m inside is p above := by
    rw [hierarchy] at above
    rw [same.isSingleton] at is
    rw [same.isMeta]
    exact lineal.singletonAbove m (same.size ▸ inside) is p above
  singleton m inside := by
    rw [same.singletonOf, same.isSingleton]
    exact lineal.singleton m (same.size ▸ inside)
  included m inside a member := by
    rw [hierarchy] at member
    rw [same.kind]
    exact lineal.included m (same.size ▸ inside) a member

theorem includeModule (lineal : c.Lineal) (target : ModuleId) {m : ModuleId}
    (mixin : c.kind m = .mixin) : (c.includeModule target m).Lineal := by
  obtain ⟨size, links⟩ := Hierarchy.addInclude_spec c.hierarchy target m
  refine ⟨lineal.sized, size.trans lineal.linked, lineal.objectPath, lineal.modulePath, lineal.coreKind,
    lineal.coreSingleton, (links _).1.trans lineal.moduleAbove, (links _).1.trans lineal.classAbove,
    (links _).2.1 lineal.kernelIncluded, ?_, ?_, lineal.singleton, ?_⟩
  · exact fun k inside is => (links k).1.trans (lineal.mixinAbove k inside is)
  · exact fun k inside is p above => lineal.singletonAbove k inside is p ((links k).1 ▸ above)
  · intro k inside a member
    rcases List.mem_cons.mp ((links k).2.2 member) with rfl | old
    · exact mixin
    · exact lineal.included k inside a old

end Lineal

/-! New modules. -/

/-- The singleton of a class descends from that of the superclass, the singleton of a mixin from
`Module`. -/
theorem hierarchy_attachSingleton (c : ClassTable) (m : ModuleId) :
    ∃ parent, (c.attachSingleton m).hierarchy = c.hierarchy.push parent ∧
      (c.kind m = .mixin → parent = c.paths.get? "Module") ∧
      (c.kind m = .cls → ∀ s, c.hierarchy.superclass? m = some s →
        parent = (c.record s).singleton) := by
  refine ⟨_, rfl, fun mixin => ?_, fun cls s above => ?_⟩
  · simp only [mixin]
  · simp only [cls, above]

theorem bindPath_eq (c : ClassTable) (path : String) (m : ModuleId) :
    (c.bindPath path m).hierarchy = c.hierarchy ∧ (c.bindPath path m).paths = c.paths := by
  unfold bindPath
  dsimp only
  split
  · exact ⟨rfl, rfl⟩
  · exact ⟨rfl, rfl⟩

theorem hierarchy_defineNamed (c : ClassTable) (path : String) (kind : ModuleKind)
    (superclass : Option ModuleId) (linked : c.hierarchy.size = c.size) :
    ∃ parent, (c.defineNamed path kind superclass).2.hierarchy =
        (c.hierarchy.push superclass).push parent ∧
      (kind = .mixin → path ≠ "Module" → parent = c.paths.get? "Module") ∧
      (kind = .cls → ∀ s, superclass = some s → parent = (c.record s).singleton) := by
  obtain ⟨parent, attached, ofMixin, ofClass⟩ :=
    hierarchy_attachSingleton (c.pushModule path kind superclass).2 c.size
  have own : (c.pushModule path kind superclass).2.kind c.size = kind := by
    rw [ClassTable.kind, record_pushModule, if_pos rfl]
  refine ⟨parent, (bindPath_eq _ path c.size).1.trans attached, fun mixin other => ?_,
    fun cls s above => ?_⟩
  · rw [ofMixin (own.trans mixin)]
    subst mixin
    exact (Dict.get?_put ..).trans (if_neg (Ne.symm other))
  · have link : (c.pushModule path kind superclass).2.hierarchy.superclass? c.size = some s := by
      change (c.hierarchy.push superclass).superclass? c.size = some s
      rw [Hierarchy.superclass?_push, if_pos linked.symm, above]
    rw [ofClass (own.trans cls) s link, record_pushModule]
    split
    · rename_i here
      rw [singleton_of_outside (Nat.le_of_eq here.symm)]
      rfl
    · rfl

theorem paths_defineNamed (c : ClassTable) (path : String) {kind : ModuleKind}
    (named : kind = .cls ∨ kind = .mixin) (superclass : Option ModuleId) (p : String) :
    (c.defineNamed path kind superclass).2.paths.get? p =
      if p = path then some c.size else c.paths.get? p := by
  have bound : (c.defineNamed path kind superclass).2.paths =
      ((c.pushModule path kind superclass).2.attachSingleton c.size).paths :=
    (bindPath_eq _ path c.size).2
  rw [bound]
  rcases named with rfl | rfl
  · exact Dict.get?_put ..
  · exact Dict.get?_put ..

/-- `d` is `c` with two modules more, the second the singleton of the first. -/
structure Adds (kind : ModuleKind) (superclass parent : Option ModuleId) (c d : ClassTable) : Prop where
  size : d.size = c.size + 2
  linked : d.hierarchy.size = d.size
  above : ∀ m : Nat, d.hierarchy.superclass? m =
    if m = c.size + 1 then parent else if m = c.size then superclass else c.hierarchy.superclass? m
  includes : ∀ m, d.hierarchy.includes m = c.hierarchy.includes m
  kinds : ∀ m : Nat, d.kind m =
    if m = c.size then kind else if m = c.size + 1 then .singleton c.size else c.kind m
  singletons : ∀ m : Nat, (d.record m).singleton =
    if m = c.size then some (c.size + 1) else if m = c.size + 1 then none else (c.record m).singleton

theorem adds_defineNamed (linked : c.hierarchy.size = c.size) {path : String} {kind : ModuleKind}
    {superclass parent : Option ModuleId}
    (hierarchy : (c.defineNamed path kind superclass).2.hierarchy =
      (c.hierarchy.push superclass).push parent) :
    Adds kind superclass parent c (c.defineNamed path kind superclass).2 := by
  obtain ⟨size, records⟩ := defineNamed_records c path kind superclass
  refine ⟨size, ?_, fun m => ?_, fun m => ?_, fun m => (records m).1, fun m => (records m).2⟩
  · rw [hierarchy, Hierarchy.size_push, Hierarchy.size_push, linked, size]
  · rw [hierarchy, Hierarchy.superclass?_push, Hierarchy.superclass?_push, Hierarchy.size_push, linked]
  · rw [hierarchy, Hierarchy.includes_push, Hierarchy.includes_push]

namespace Adds

variable {kind : ModuleKind} {superclass parent : Option ModuleId} {m : ModuleId} (adds : Adds kind superclass parent c d)
include adds

theorem kind_of_lt (old : m < c.size) : d.kind m = c.kind m := by
  rw [adds.kinds, if_neg (Nat.ne_of_lt old), if_neg (Nat.ne_of_lt (Nat.lt_succ_of_lt old))]

theorem superclass?_of_lt (old : m < c.size) :
    d.hierarchy.superclass? m = c.hierarchy.superclass? m := by
  rw [adds.above, if_neg (Nat.ne_of_lt (Nat.lt_succ_of_lt old)), if_neg (Nat.ne_of_lt old)]

theorem isSingleton (is : c.isSingleton m = true) : d.isSingleton m = true := by
  rw [ClassTable.isSingleton, adds.kind_of_lt (lt_size_of_kind (kind_of_isSingleton is).1)]
  exact is

theorem isMeta (is : c.isMeta m = true) : d.isMeta m = true := by
  rw [ClassTable.isMeta, Bool.or_eq_true] at is ⊢
  exact is.imp_right adds.isSingleton

theorem isSingleton_last : d.isSingleton (c.size + 1) = true := by
  rw [ClassTable.isSingleton, adds.kinds, if_neg (by omega), if_pos rfl]

end Adds

namespace Lineal

variable {kind : ModuleKind} {superclass parent : Option ModuleId}

theorem isMeta_of_singleton (lineal : c.Lineal) {s : ModuleId}
    (own : (c.record s).singleton = some p) : c.isMeta p = true := by
  have inside : s < c.size := by
    by_contra outside
    rw [singleton_of_outside (Nat.le_of_not_lt outside)] at own
    cases own
  have is := lineal.singleton s inside
  rw [singletonOf, own] at is
  rw [isMeta, Bool.or_eq_true]
  exact .inr is

theorem of_adds (lineal : c.Lineal) (adds : Adds kind superclass parent c d)
    (named : kind = .cls ∨ kind = .mixin ∧ superclass = none)
    (parentMeta : ∀ p ∈ parent, c.isMeta p = true)
    (objectPath : (d.paths.get? "Object").isSome = true)
    (modulePath : d.paths.get? "Module" = some moduleClass) : d.Lineal where
  sized := by
    rw [adds.size]
    exact Nat.le_add_right_of_le lineal.sized
  linked := adds.linked
  objectPath := objectPath
  modulePath := modulePath
  coreKind m low := (adds.kind_of_lt (Nat.lt_of_lt_of_le low lineal.sized)).trans (lineal.coreKind m low)
  coreSingleton m low := by
    have sized := lineal.sized
    rw [singletonOf, adds.singletons, if_neg (by omega), if_neg (by omega)]
    exact lineal.coreSingleton m low
  moduleAbove := (adds.superclass?_of_lt (Nat.lt_of_lt_of_le (by decide) lineal.sized)).trans
    lineal.moduleAbove
  classAbove := (adds.superclass?_of_lt (Nat.lt_of_lt_of_le (by decide) lineal.sized)).trans
    lineal.classAbove
  kernelIncluded := adds.includes object ▸ lineal.kernelIncluded
  mixinAbove m inside mixin := by
    rw [adds.size] at inside
    rw [adds.kinds] at mixin
    rw [adds.above]
    split_ifs at mixin ⊢ with new last
    · omega
    · rcases named with rfl | ⟨-, none⟩
      · cases mixin
      · exact none
    · exact lineal.mixinAbove m (by omega) mixin
  singletonAbove m inside is p isAbove := by
    rw [adds.size] at inside
    rw [adds.above] at isAbove
    refine adds.isMeta ?_
    split_ifs at isAbove with last new
    · exact parentMeta p isAbove
    · rw [isSingleton, adds.kinds, if_pos new] at is
      rcases named with rfl | ⟨rfl, -⟩ <;> cases is
    · have old : m < c.size := by omega
      rw [isSingleton, adds.kind_of_lt old] at is
      exact lineal.singletonAbove m old is p isAbove
  singleton m inside := by
    rw [adds.size] at inside
    rw [singletonOf, adds.singletons]
    split_ifs with new last
    · exact adds.isSingleton_last
    · rw [last]
      exact adds.isSingleton_last
    · exact adds.isSingleton (lineal.singleton m (by omega))
  included m inside a member := by
    rw [adds.includes] at member
    by_cases old : m < c.size
    · have mixin := lineal.included m old a member
      rw [adds.kind_of_lt (lt_size_of_kind (by simp [mixin])), mixin]
    · have outside : c.hierarchy.links.size ≤ m :=
        Nat.le_trans (Nat.le_of_eq lineal.linked) (Nat.le_of_not_lt old)
      rw [Hierarchy.includes, Array.getD_eq_getD_getElem?, Array.getElem?_eq_none outside] at member
      cases member

theorem defineNamed (lineal : c.Lineal) {path : String} (other : path ≠ "Module")
    (named : kind = .cls ∧ superclass ≠ none ∨ kind = .mixin ∧ superclass = none) :
    (c.defineNamed path kind superclass).2.Lineal := by
  obtain ⟨parent, hierarchy, ofMixin, ofClass⟩ :=
    hierarchy_defineNamed c path kind superclass lineal.linked
  have paths := paths_defineNamed c path (named.imp And.left And.left) superclass
  refine lineal.of_adds (adds_defineNamed lineal.linked hierarchy) (named.imp_left And.left) ?_ ?_ ?_
  · intro p isParent
    rcases named with ⟨cls, some_super⟩ | ⟨mixin, -⟩
    · obtain ⟨s, super⟩ := Option.ne_none_iff_exists'.mp some_super
      exact lineal.isMeta_of_singleton ((ofClass cls s super).symm.trans isParent)
    · rw [ofMixin mixin other, lineal.modulePath] at isParent
      cases isParent
      rfl
  · rw [paths]
    split
    · rfl
    · exact lineal.objectPath
  · rw [paths, if_neg (Ne.symm other)]
    exact lineal.modulePath

end Lineal

/-- Made from the core table by a program: what is included is a mixin, nothing takes the place of
`Module`, and only core methods can be worked out. -/
inductive ByProgram : ClassTable → Prop where
  | core : ByProgram .core
  | defineClass {c : ClassTable} {path : String} (superclass : Option ModuleId) :
    ByProgram c → path ≠ "Module" → ByProgram (c.defineClass path superclass).2
  | defineModule {c : ClassTable} {path : String} :
    ByProgram c → path ≠ "Module" → ByProgram (c.defineModule path).2
  | includeModule {c : ClassTable} (target : ModuleId) {m : ModuleId} :
    ByProgram c → c.kind m = .mixin → ByProgram (c.includeModule target m)
  | defineMethod {c : ClassTable} (owner : ModuleId) {s : MethodSpec} :
    ByProgram c → s.primitive = none → ByProgram (c.defineMethod owner s).2
  | setVisibility {c : ClassTable} (m : ModuleId) (name : String) (v : Visibility) :
    ByProgram c → ByProgram (c.setVisibility m name v)
  | setConstant {c : ClassTable} (m : ModuleId) (name : String) (v : Value) :
    ByProgram c → ByProgram (c.setConstant m name v)
  | declareVariable {c : ClassTable} (m : ModuleId) (name : String) (t : Ty) :
    ByProgram c → ByProgram (c.declareVariable m name t)
  | newObject {c : ClassTable} (m : ModuleId) : ByProgram c → ByProgram (c.newObject m).2

/-- The core methods are where they were, or what the program put in their place, which cannot be
worked out. -/
structure CoreFolds (c : ClassTable) : Prop where
  primitive : ∀ (a : ModuleId) (name : String) (id : MethodId) (p : Primitive),
    (c.record a).methods.get? name = some id → (c.method id).primitive = some p →
      ∃ s, (a, s) ∈ coreMethods ∧ s.name = name ∧ s.primitive = some p
  holds : ∀ e ∈ coreMethods, c.holds e.1 e.2.name = true

theorem CoreFolds.of_same (folds : c.CoreFolds) (same : SameMethods c d) : d.CoreFolds where
  primitive a name id p found primitive := by
    rw [same.entries] at found
    rw [method, same.methods] at primitive
    exact folds.primitive a name id p found primitive
  holds e member := (same.holds ..).trans (folds.holds e member)

theorem core_coreFolds : ClassTable.core.CoreFolds := by
  refine ⟨fun a name id p found primitive => ?_, core_methods.2⟩
  obtain ⟨-, member, named⟩ := core_methods.1 a name id found
  exact ⟨_, member, named, primitive⟩

theorem CoreFolds.defineMethod (folds : c.CoreFolds) (owner : ModuleId) {s : MethodSpec}
    (plain : s.primitive = none) : (c.defineMethod owner s).2.CoreFolds := by
  refine ⟨fun a name id p found primitive => ?_, fun e member => ?_⟩
  · have old : id ≠ c.methods.size := by
      intro new
      rw [method_defineMethod, if_pos new] at primitive
      exact absurd (plain.symm.trans primitive) (by simp)
    rw [method_defineMethod, if_neg old] at primitive
    refine folds.primitive a name id p ?_ primitive
    rw [record_defineMethod] at found
    split at found
    · rw [Dict.get?_put] at found
      split at found
      · exact absurd (Option.some.inj found).symm old
      · exact found
    · exact found
  · exact holds_defineMethod owner s (.inl (folds.holds e member))

namespace ByProgram

theorem extendsCore (program : c.ByProgram) : c.ExtendsCore := by
  induction program with
  | core => exact .core
  | defineClass superclass _ _ ih => exact .defineClass _ superclass ih
  | defineModule _ _ ih => exact .defineModule _ ih
  | includeModule target _ _ ih => exact .includeModule target _ ih
  | defineMethod owner _ _ ih => exact .defineMethod owner _ ih
  | setVisibility m name v _ ih => exact .setVisibility m name v ih
  | setConstant m name v _ ih => exact .setConstant m name v ih
  | declareVariable m name t _ ih => exact .declareVariable m name t ih
  | newObject m _ ih => exact .newObject m ih

theorem lineal (program : c.ByProgram) : c.Lineal := by
  induction program with
  | core => exact core_lineal
  | @defineClass c path superclass _ other ih =>
    refine ih.defineNamed other (.inl ⟨rfl, ?_⟩)
    obtain ⟨object, eq⟩ := Option.isSome_iff_exists.mp ih.objectPath
    cases superclass <;> simp [eq]
  | defineModule _ other ih => exact ih.defineNamed other (.inr ⟨rfl, rfl⟩)
  | includeModule target _ mixin ih => exact ih.includeModule target mixin
  | @defineMethod c owner s _ _ ih =>
    have pushed : SameModules c
        { c with methods := c.methods.push { s with id := c.methods.size, owner := owner } } :=
      .of_modules rfl
    exact (ih.of_same pushed rfl rfl).of_same (.modifyRecord owner (fun _ => rfl) fun _ => rfl) rfl rfl
  | setVisibility m name v _ ih =>
    exact ih.of_same (.modifyRecord m (fun _ => rfl) fun _ => rfl) rfl rfl
  | setConstant m name v _ ih =>
    exact ih.of_same (.modifyRecord m (fun _ => rfl) fun _ => rfl) rfl rfl
  | declareVariable m name t _ ih =>
    exact ih.of_same (.modifyRecord m (fun _ => rfl) fun _ => rfl) rfl rfl
  | newObject m _ ih => exact ih.of_same (.of_modules rfl) rfl rfl

theorem coreFolds (program : c.ByProgram) : c.CoreFolds := by
  induction program with
  | core => exact core_coreFolds
  | defineClass superclass _ _ ih => exact ih.of_same (.defineNamed ..)
  | defineModule _ _ ih => exact ih.of_same (.defineNamed ..)
  | includeModule target _ _ ih => exact ih.of_same ⟨rfl, fun _ => rfl⟩
  | defineMethod owner _ plain ih => exact ih.defineMethod owner plain
  | setVisibility m name v _ ih => exact ih.of_same (.modifyRecord _ m fun _ => rfl)
  | setConstant m name v _ ih => exact ih.of_same (.modifyRecord _ m fun _ => rfl)
  | declareVariable m name t _ ih => exact ih.of_same (.modifyRecord _ m fun _ => rfl)
  | newObject m _ ih => exact ih.of_same ⟨rfl, fun _ => rfl⟩

end ByProgram

/-! Ancestors of class objects. -/

namespace Lineal

open Hierarchy

theorem kind_of_linearize (lineal : c.Lineal) (depth : Nat) {m : ModuleId}
    (mixin : c.kind m = .mixin) (member : a ∈ linearize c.hierarchy.links depth m) :
    c.kind a = .mixin := by
  induction depth generalizing m with
  | zero => exact List.mem_singleton.mp member ▸ mixin
  | succ depth ih =>
    have inside := lt_size_of_kind (c := c) (m := m) (by simp [mixin])
    have none_above : inherited c.hierarchy.links depth m = [] := by
      have above : (c.hierarchy.links.getD m default).superclass = none :=
        lineal.mixinAbove m inside mixin
      rw [inherited, above]
      rfl
    rw [linearize_succ, mem_appendNew, mem_ownChain, none_above] at member
    rcases member with (rfl | ⟨⟨i, included, member⟩, -⟩) | none
    · exact mixin
    · exact ih (lineal.included m inside i included) member
    · cases none

theorem kind_of_ownChain (lineal : c.Lineal) {depth : Nat} {m : ModuleId} (inside : m < c.size)
    (member : a ∈ ownChain c.hierarchy.links depth m) :
    a = m ∨ c.kind a = .mixin ∧ a ∉ inherited c.hierarchy.links depth m := by
  refine (mem_ownChain.mp member).imp_right fun ⟨⟨i, included, below⟩, new⟩ => ⟨?_, new⟩
  exact lineal.kind_of_linearize depth (lineal.included m inside i included) below

/-- What can come before `Module` among the ancestors of a class object. -/
def Precedes (c : ClassTable) (a : ModuleId) : Prop :=
  a ≠ kernel ∧ (c.kind a = .cls → a = classClass)

theorem precedes_of_isMeta (lineal : c.Lineal) (is : c.isMeta p = true)
    (other : p ≠ moduleClass) : Precedes c p := by
  simp only [isMeta, Bool.or_eq_true, beq_iff_eq] at is
  rcases is with (isModule | rfl) | is
  · exact absurd isModule other
  · exact ⟨by decide, fun _ => rfl⟩
  · have kinds := kind_of_isSingleton is
    refine ⟨?_, fun cls => absurd cls kinds.1⟩
    rintro rfl
    exact kinds.2 (lineal.coreKind kernel (by decide))

theorem lt_size_of_isMeta (lineal : c.Lineal) (is : c.isMeta p = true) : p < c.size := by
  have sized := lineal.sized
  simp only [isMeta, Bool.or_eq_true, beq_iff_eq] at is
  rcases is with (rfl | rfl) | is
  · exact Nat.lt_of_lt_of_le (by decide) sized
  · exact Nat.lt_of_lt_of_le (by decide) sized
  · exact lt_size_of_kind (kind_of_isSingleton is).1

theorem isMeta_above (lineal : c.Lineal) {q : ModuleId} (is : c.isMeta p = true)
    (other : p ≠ moduleClass) (above : c.hierarchy.superclass? p = some q) : c.isMeta q = true := by
  have inside := lineal.lt_size_of_isMeta is
  simp only [isMeta, Bool.or_eq_true, beq_iff_eq] at is
  rcases is with (isModule | rfl) | is
  · exact absurd isModule other
  · rw [lineal.classAbove] at above
    cases above
    rfl
  · exact lineal.singletonAbove p inside is q above

theorem kernel_mem_linearize_object (lineal : c.Lineal) (depth : Nat) :
    kernel ∈ linearize c.hierarchy.links (depth + 1) object := by
  rw [linearize_succ, mem_appendNew, mem_ownChain]
  by_cases there : kernel ∈ inherited c.hierarchy.links depth object
  · exact .inr there
  · exact .inl (.inr ⟨⟨kernel, lineal.kernelIncluded, mem_linearize_self depth kernel⟩, there⟩)

/-- Neither mixins nor class objects' own classes are the root: it comes from the superclass. -/
theorem exists_above_of_rooted (lineal : c.Lineal) {depth : Nat}
    (is : c.isMeta p = true) (rooted : basicObject ∈ linearize c.hierarchy.links (depth + 1) p) :
    ∃ q, c.hierarchy.superclass? p = some q ∧
      inherited c.hierarchy.links depth p = linearize c.hierarchy.links depth q ∧
      basicObject ∈ linearize c.hierarchy.links depth q := by
  have rootKind : c.kind basicObject = .cls := lineal.coreKind basicObject (by decide)
  rw [linearize_succ, mem_appendNew] at rooted
  rcases rooted with own | rooted
  · rcases lineal.kind_of_ownChain (lineal.lt_size_of_isMeta is) own with rfl | ⟨mixin, -⟩
    · rw [isMeta, isSingleton, rootKind] at is
      cases is
    · rw [rootKind] at mixin
      cases mixin
  · rw [inherited] at rooted ⊢
    cases link : (c.hierarchy.links.getD p default).superclass with
    | none =>
      rw [link] at rooted
      cases rooted
    | some q =>
      rw [link] at rooted
      exact ⟨q, link, rfl, rooted⟩

/-- A chain of class objects' classes that gets to `BasicObject` passes `Kernel`, and passes `Module`
before. -/
theorem exists_linearize_split (lineal : c.Lineal) (depth : Nat)
    (is : c.isMeta p = true) (rooted : basicObject ∈ linearize c.hierarchy.links depth p) :
    kernel ∈ linearize c.hierarchy.links depth p ∧ ∃ before after,
      linearize c.hierarchy.links depth p = before ++ moduleClass :: after ∧
        ∀ a ∈ before, Precedes c a := by
  have moduleKind : c.kind moduleClass = .cls := lineal.coreKind moduleClass (by decide)
  induction depth generalizing p with
  | zero =>
    cases List.mem_singleton.mp rooted
    rw [isMeta, isSingleton, lineal.coreKind basicObject (by decide)] at is
    cases is
  | succ depth ih =>
    obtain ⟨q, above, eq, rooted⟩ := lineal.exists_above_of_rooted is rooted
    by_cases isModule : p = moduleClass
    · subst isModule
      obtain ⟨rest, first⟩ := exists_linearize_eq c.hierarchy.links (depth + 1) moduleClass
      refine ⟨?_, [], rest, first, fun a none => by cases none⟩
      -- a chain of one link would not get from `Object` to its superclass
      rw [lineal.moduleAbove] at above
      cases above
      rw [linearize_succ, mem_appendNew, eq]
      cases depth with
      | zero => cases List.mem_singleton.mp rooted
      | succ depth => exact .inr (lineal.kernel_mem_linearize_object depth)
    · have inside := lineal.lt_size_of_isMeta is
      obtain ⟨hasKernel, before, after, split, early⟩ := ih (lineal.isMeta_above is isModule above) rooted
      have precedes_own : ∀ a ∈ ownChain c.hierarchy.links depth p, Precedes c a := by
        intro a member
        rcases lineal.kind_of_ownChain inside member with rfl | ⟨mixin, new⟩
        · exact lineal.precedes_of_isMeta is isModule
        · refine ⟨?_, fun cls => absurd (mixin.symm.trans cls) (by decide)⟩
          rintro rfl
          exact new (eq ▸ hasKernel)
      have notModule {a : ModuleId} (precedes : Precedes c a) : a ≠ moduleClass := by
        rintro rfl
        exact absurd (precedes.2 moduleKind) (by decide)
      obtain ⟨rest, chain⟩ := exists_appendNew_split after
        (fun member => notModule (precedes_own _ member) rfl)
        (fun member => notModule (early _ member) rfl)
      rw [linearize_succ, eq, split, chain]
      refine ⟨?_, _, rest, rfl, fun a member => ?_⟩
      · rw [← chain, ← split, mem_appendNew]
        exact .inr hasKernel
      · exact (mem_appendNew.mp member).elim (precedes_own a) (early a)

theorem exists_ancestors_split (lineal : c.Lineal) {s : ModuleId} (is : c.isSingleton s = true)
    (rooted : c.isA s basicObject = true) :
    ∃ before after, c.ancestors s = before ++ moduleClass :: after ∧ ∀ a ∈ before, Precedes c a := by
  have isMeta : c.isMeta s = true := by
    rw [ClassTable.isMeta, is, Bool.or_true]
  have chain : c.ancestors s = linearize c.hierarchy.links maxLinks s :=
    ancestors_eq (lineal.linked.symm ▸ lineal.lt_size_of_isMeta isMeta)
  have rooted : basicObject ∈ c.ancestors s := List.contains_iff_mem.mp rooted
  rw [chain] at rooted ⊢
  exact (lineal.exists_linearize_split maxLinks isMeta rooted).2

end Lineal

end ClassTable

end ScriptFlow
