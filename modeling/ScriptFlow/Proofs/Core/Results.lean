import ScriptFlow.Core.Evaluate
import ScriptFlow.Dispatch.Summary
import ScriptFlow.Proofs.ClassTable.Methods
import ScriptFlow.Proofs.ClassTable.Values

/-! What the core methods return on known operands, and that it is what they declare. -/

namespace ScriptFlow

/-! What a computation that succeeds gives. -/

namespace Folded

variable {α β : Type} {P : α → Prop}

/-- If there is a value, it has the property. -/
def Gives (P : α → Prop) (x : Folded α) : Prop := ∀ a, x = .ok a → P a

theorem Gives.ok {a : α} (holds : P a) : Gives P (.ok a) := by
  rintro _ ⟨⟩
  exact holds

theorem Gives.pure {a : α} (holds : P a) : Gives P (Pure.pure a) := .ok holds

theorem Gives.imp {Q : α → Prop} {x : Folded α} (gives : Gives P x) (weaker : ∀ a, P a → Q a) :
    Gives Q x :=
  fun a ok => weaker a (gives a ok)

theorem Gives.error {fault : FoldFault} : Gives P (.error fault) := by
  rintro _ ⟨⟩

theorem Gives.raise {cls message : String} : Gives P (Folded.raise cls message) := .error

theorem Gives.refuse {reason : String} : Gives P (Folded.refuse reason) := .error

theorem Gives.bind {x : Folded β} {f : β → Folded α} (rest : ∀ b, x = .ok b → Gives P (f b)) :
    Gives P (x >>= f) := by
  cases x with
  | ok b => exact rest b rfl
  | error fault => exact .error

end Folded

open CoreClass

/-! Forms of results. -/

/-- How a result can be described by the class of the receiver. -/
inductive ResultForm where
  | receiver
  | emptyArray
  /-- A value of one of the classes. -/
  | oneOf (classes : List ModuleId)
  | anything

def ResultForm.Holds (c : ClassTable) (receiver result : Value) : ResultForm → Prop
  | .receiver => result = receiver
  | .emptyArray => result = .array []
  | .oneOf classes => c.classOf result ∈ classes
  | .anything => True

def ResultForm.truth : ResultForm := .oneOf [trueClass, falseClass]

/-- What a primitive returns on receivers of the class. -/
def Primitive.resultForm (c : ClassTable) (k : ModuleId) : Primitive → ResultForm
  | .itself => .receiver
  | .emptyArray => .emptyArray
  | .constGet | .first | .last | .lookup | .rangeFirst | .rangeLast => .anything
  | .classOf =>
    match c.kind k with
    | .singleton _ => .oneOf [c.singletonOf classClass, c.singletonOf moduleClass]
    | _ => .oneOf [c.singletonOf k]
  | .superclass =>
    .oneOf (nilClass :: ((List.range c.hierarchy.size).filterMap c.hierarchy.superclass?).map c.singletonOf)
  | .moduleLess => .oneOf [trueClass, falseClass, nilClass]
  | .order => .oneOf [integer, nilClass]
  | .index => if k = array then .anything else .oneOf [string, nilClass]
  | .minus | .abs | .reverse => .oneOf [k]
  | .add | .sub | .mul | .div | .mod | .pow => .oneOf [integer, float]
  | .succ | .toInt | .size => .oneOf [integer]
  | .toFloat => .oneOf [float]
  | .toText | .inspect | .moduleName | .concat | .repeatText | .upcase | .downcase | .joinText =>
    .oneOf [string]
  | .toSym => .oneOf [symbol]
  | .ancestors | .concatArray | .repeatArray | .keys | .values | .rangeItems => .oneOf [array]
  | .equal | .notEqual | .negation | .isNil | .isA | .instanceOf | .caseEqual | .respondTo
  | .constDefined | .less | .lessEq | .greater | .greaterEq | .numEqual | .isZero | .isEmpty | .both
  | .either | .includesItem | .hasKey | .inRange | .isLambda => .truth

/-! Each primitive returns what its form says. -/

namespace Core

open Folded

variable {c : ClassTable} {receiver : Value} {args : List Value}

theorem classOf_bool (c : ClassTable) (b : Bool) : c.classOf (.bool b) ∈ [trueClass, falseClass] := by
  cases b <;> simp [ClassTable.classOf]

theorem fitted_gives (n : Int) : Gives (fun w => c.classOf w ∈ [integer]) (fitted n) := by
  unfold fitted
  split
  · exact .ok (List.mem_singleton_self _)
  · exact .refuse

theorem integer_number (w : Value) (is : c.classOf w ∈ [integer]) : c.classOf w ∈ [integer, float] :=
  List.mem_cons.mpr (.inl (List.mem_singleton.mp is))

theorem float_number (x : Double) : c.classOf (.float x) ∈ [integer, float] := by
  simp [ClassTable.classOf]

theorem arith_gives (exact : Int → Int → Int) (inexact : Double → Double → Double) :
    Gives (fun w => c.classOf w ∈ [integer, float]) (arith exact inexact receiver args) := by
  refine .bind fun operands _ => ?_
  split
  · exact (fitted_gives _).imp integer_number
  · exact .pure (float_number _)

theorem divided_gives (part : Int64 → Int64 → Int64) (a b : Int64) :
    Gives (fun w => c.classOf w ∈ [integer, float]) (divided part a b) := by
  unfold divided
  split
  · exact .raise
  · split
    · exact .refuse
    · exact .ok (integer_number _ (List.mem_singleton_self _))

theorem divide_gives : Gives (fun w => c.classOf w ∈ [integer, float]) (divide receiver args) := by
  refine .bind fun operands _ => ?_
  split
  · exact divided_gives _ _ _
  · exact .pure (float_number _)

theorem modulo_gives : Gives (fun w => c.classOf w ∈ [integer, float]) (modulo receiver args) := by
  refine .bind fun operands _ => ?_
  split
  · exact divided_gives _ _ _
  · exact .pure (float_number _)

theorem powered_gives (a : Int) (n : Nat) :
    Gives (fun w => c.classOf w ∈ [integer]) (powered a n) := by
  unfold powered
  repeat' split
  all_goals first | exact fitted_gives _ | exact .refuse

theorem power_gives : Gives (fun w => c.classOf w ∈ [integer, float]) (power receiver args) := by
  refine .bind fun operands _ => ?_
  split
  · split
    · exact .refuse
    · split
      · exact .refuse
      · exact (powered_gives _ _).imp integer_number
  · exact .pure (float_number _)

theorem classOf_ordering (order : Option Ordering) :
    c.classOf ((order.map orderingValue).getD .nil) ∈ [integer, nilClass] := by
  cases order with
  | none => simp [ClassTable.classOf]
  | some o => cases o <;> simp [ClassTable.classOf, orderingValue]

theorem compareValues_gives :
    Gives (fun w => c.classOf w ∈ [integer, nilClass]) (compareValues receiver args) :=
  .bind fun _ _ => .pure (classOf_ordering _)

theorem negated_gives : Gives (fun w => c.classOf w ∈ [c.classOf receiver]) (negated receiver) := by
  cases receiver with
  | int n => exact fitted_gives _
  | float x => exact .ok (List.mem_singleton_self _)
  | _ => exact .refuse

theorem absolute_gives :
    Gives (fun w => c.classOf w ∈ [c.classOf receiver]) (absolute receiver) := by
  cases receiver with
  | int n => exact fitted_gives _
  | float x => exact .ok (List.mem_singleton_self _)
  | _ => exact .refuse

theorem toInteger_gives : Gives (fun w => c.classOf w ∈ [integer]) (toInteger receiver) := by
  unfold toInteger
  split
  · exact .ok (List.mem_singleton_self _)
  · exact .ok (List.mem_singleton_self _)
  · split
    · exact .ok (List.mem_singleton_self _)
    · exact .raise
  · exact .refuse

theorem size_gives : Gives (fun w => c.classOf w ∈ [integer]) (size receiver) := by
  unfold size
  split
  all_goals first | exact fitted_gives _ | exact .refuse

theorem textOf_gives (display : Value → String) :
    Gives (fun w => c.classOf w ∈ [string]) (textOf display receiver) := by
  unfold textOf
  split
  · exact .refuse
  · exact .ok (List.mem_singleton_self _)

theorem reversed_gives :
    Gives (fun w => c.classOf w ∈ [c.classOf receiver]) (reversed receiver) := by
  unfold reversed
  split
  · exact .ok (List.mem_singleton_self _)
  · exact .ok (List.mem_singleton_self _)
  · exact .refuse

/-- A character of a string, or `nil` where there is none. -/
theorem index_gives (other : c.classOf receiver ≠ array) :
    Gives (fun w => c.classOf w ∈ [string, nilClass]) (index receiver args) := by
  refine .bind fun first _ => .bind fun place _ => ?_
  split
  · exact .refuse
  · split
    · exact absurd rfl other
    · refine .pure ?_
      rename_i s
      cases itemAt? s.toList place.toInt <;> simp [ClassTable.classOf]
    · exact .refuse

theorem moduleLess_gives :
    Gives (fun w => c.classOf w ∈ [trueClass, falseClass, nilClass]) (moduleLess c receiver args) := by
  refine .bind fun m _ => .bind fun first _ => .bind fun other _ => .pure ?_
  repeat' split
  all_goals simp [ClassTable.classOf]

theorem superclass_gives :
    Gives (fun w => c.classOf w ∈
      nilClass :: ((List.range c.hierarchy.size).filterMap c.hierarchy.superclass?).map c.singletonOf)
      (superclass c receiver) := by
  refine .bind fun m _ => .pure ?_
  cases parent : c.hierarchy.superclass? m with
  | none => exact List.mem_cons_self
  | some s =>
    refine List.mem_cons_of_mem _ (List.mem_map_of_mem (List.mem_filterMap.mpr ⟨m, ?_, parent⟩))
    refine List.mem_range.mpr (Nat.lt_of_not_le fun outside => ?_)
    rw [Hierarchy.superclass?, Array.getD_eq_getD_getElem?, Array.getElem?_eq_none outside] at parent
    cases parent

theorem constDefined_gives :
    Gives (fun w => c.classOf w ∈ [trueClass, falseClass]) (constDefined c receiver args) := by
  unfold constDefined
  split
  · exact .ok (classOf_bool c true)
  · split
    · exact .ok (classOf_bool c false)
    · exact .error
  · exact .error

theorem inRange_gives :
    Gives (fun w => c.classOf w ∈ [trueClass, falseClass]) (inRange receiver args) := by
  refine .bind fun range _ => .bind fun v _ => ?_
  split
  · exact .pure (classOf_bool c _)
  · exact .refuse

theorem concatText_gives : Gives (fun w => c.classOf w ∈ [string]) (concatText receiver args) := by
  refine .bind fun a _ => .bind fun b _ => ?_
  split
  · exact .pure (List.mem_singleton_self _)
  · exact .raise

theorem repeatText_gives : Gives (fun w => c.classOf w ∈ [string]) (repeatText receiver args) := by
  refine .bind fun s _ => .bind fun count _ => ?_
  split
  · exact .refuse
  · exact .pure (List.mem_singleton_self _)

theorem concatArray_gives : Gives (fun w => c.classOf w ∈ [array]) (concatArray receiver args) := by
  refine .bind fun a _ => .bind fun b _ => ?_
  split
  · exact .pure (List.mem_singleton_self _)
  · exact .raise

theorem repeatArray_gives : Gives (fun w => c.classOf w ∈ [array]) (repeatArray receiver args) := by
  refine .bind fun items _ => .bind fun count _ => ?_
  split
  · exact .refuse
  · exact .pure (List.mem_singleton_self _)

theorem joinText_gives : Gives (fun w => c.classOf w ∈ [string]) (joinText c receiver args) := by
  refine .bind fun items _ => ?_
  extract_lets joined
  have joined_gives (separator : String) :
      Gives (fun w => c.classOf w ∈ [string]) (joined separator) := by
    simp only [joined]
    split
    · exact .refuse
    · exact .pure (List.mem_singleton_self _)
  split
  all_goals exact .bind fun separator _ => joined_gives separator

theorem rangeItems_gives : Gives (fun w => c.classOf w ∈ [array]) (rangeItems receiver) := by
  refine .bind fun range _ => ?_
  split
  split
  · refine .bind fun final _ => ?_
    dsimp only
    split
    · exact .refuse
    · exact .pure (List.mem_singleton_self _)
  · exact .raise

theorem successor_gives : Gives (fun w => c.classOf w ∈ [integer]) (successor receiver) := by
  unfold successor
  split
  · exact fitted_gives _
  · exact .refuse

theorem isEmpty_gives :
    Gives (fun w => c.classOf w ∈ [trueClass, falseClass]) (isEmpty receiver) := by
  unfold isEmpty
  split
  all_goals first | exact .ok (classOf_bool c _) | exact .refuse

theorem classValue_holds
    (told : (∃ m, receiver = .moduleRef m) ↔ ∃ a, c.kind (c.classOf receiver) = .singleton a) :
    (Primitive.classOf.resultForm c (c.classOf receiver)).Holds c receiver (classValue c receiver) := by
  by_cases isModule : ∃ m, receiver = .moduleRef m
  · obtain ⟨a, kind⟩ := told.mp isModule
    obtain ⟨m, rfl⟩ := isModule
    rw [Primitive.resultForm, kind]
    simp only [ResultForm.Holds, classValue, ClassTable.classOf]
    split <;> simp
  · have plain : (Primitive.classOf.resultForm c (c.classOf receiver)) =
        .oneOf [c.singletonOf (c.classOf receiver)] := by
      rw [Primitive.resultForm]
      split
      · rename_i a kind
        exact absurd (told.mpr ⟨a, kind⟩) isModule
      · rfl
    rw [plain]
    cases receiver with
    | moduleRef m => exact absurd ⟨m, rfl⟩ isModule
    | _ => exact List.mem_singleton_self _

end Core

open Folded ScriptFlow.Core in
/-- Class objects, and only they, are told apart by having a singleton for their class. -/
theorem Primitive.eval_gives {c : ClassTable} {receiver : Value} {args : List Value}
    (told : (∃ m, receiver = .moduleRef m) ↔ ∃ a, c.kind (c.classOf receiver) = .singleton a)
    (p : Primitive) :
    Gives ((p.resultForm c (c.classOf receiver)).Holds c receiver) (p.eval c receiver args) := by
  cases p with
  | itself | emptyArray => exact .ok rfl
  | constGet | first | last | lookup | rangeFirst | rangeLast => exact fun _ _ => trivial
  | classOf => exact .ok (classValue_holds told)
  | superclass => exact superclass_gives
  | moduleLess => exact moduleLess_gives
  | order => exact compareValues_gives
  | index =>
    rw [resultForm]
    split
    · exact fun _ _ => trivial
    · exact index_gives ‹_›
  | minus => exact negated_gives
  | abs => exact absolute_gives
  | reverse => exact reversed_gives
  | add | sub | mul => exact arith_gives _ _
  | div => exact divide_gives
  | mod => exact modulo_gives
  | pow => exact power_gives
  | succ => exact successor_gives
  | toInt => exact toInteger_gives
  | size => exact size_gives
  | toFloat => exact .bind fun _ _ => .pure (List.mem_singleton_self _)
  | toText | inspect => exact textOf_gives _
  | moduleName | upcase | downcase | toSym =>
    exact .bind fun _ _ => .pure (List.mem_singleton_self _)
  | concat => exact concatText_gives
  | repeatText => exact repeatText_gives
  | joinText => exact joinText_gives
  | ancestors | keys | values => exact .bind fun _ _ => .pure (List.mem_singleton_self _)
  | concatArray => exact concatArray_gives
  | repeatArray => exact repeatArray_gives
  | rangeItems => exact rangeItems_gives
  | negation | isNil | isZero => exact .ok (classOf_bool c _)
  | equal | notEqual | isA | instanceOf | respondTo | numEqual =>
    exact .bind fun _ _ => .pure (classOf_bool c _)
  | caseEqual | includesItem | hasKey =>
    exact .bind fun _ _ => .bind fun _ _ => .pure (classOf_bool c _)
  | less | lessEq | greater | greaterEq => exact .bind fun _ _ => .pure (classOf_bool c _)
  | constDefined => exact constDefined_gives
  | inRange => exact inRange_gives
  | isEmpty => exact isEmpty_gives
  | both | either =>
    rw [eval]
    split
    all_goals first
      | exact .ok (classOf_bool c _)
      | exact .bind fun _ _ => .pure (classOf_bool c _)
  | isLambda =>
    cases receiver with
    | proc q => exact .ok (classOf_bool c _)
    | _ => exact .refuse

/-- Whether what is declared of a result covers every value of the form. -/
def ResultForm.covered (c : ClassTable) (k : ModuleId) (rule : ReturnRule) (form : ResultForm) : Bool :=
  match rule, form with
  | .unknown, _ | .receiver, .receiver => true
  | .fixed t, .receiver => c.isSubtype (.exact k) t
  | .fixed t, .emptyArray => c.isSubtype (.tuple []) t
  | .fixed t, .oneOf classes => classes.all fun j => c.isSubtype (.exact j) t
  | .fixed t, .anything => t.isTop
  | _, _ => false

/-! Subtypes of what is declared. -/

namespace ClassTable

variable {c : ClassTable}

/-- Where a class falls under a type, so do all its instances. -/
theorem isSubtype_typeOf {w : Value} {t : Ty} (within : c.isSubtype (.exact (c.classOf w)) t = true) :
    c.isSubtype (c.typeOf w) t = true := by
  cases w with
  | array items =>
    simp only [typeOf, Ty.exact, Ty.tuple, Ty.ofMember, isSubtype, allWithin, Bool.or_eq_true,
      Bool.and_true, List.any_eq_true] at within ⊢
    refine within.imp_right ?_
    rintro ⟨m, member, fits⟩
    refine ⟨m, member, ?_⟩
    cases m with
    | cls k variance => exact fits
    | tuple slots => cases fits
  | _ => exact within

theorem isSubtype_declared {id : MethodId} {receiver result : Value} {form : ResultForm}
    (holds : form.Holds c receiver result)
    (covered : form.covered c (c.classOf receiver) (c.method id).returns = true) :
    c.isSubtype (c.typeOf result) (c.declaredSummary id (c.typeOf receiver)).returns = true := by
  rw [declaredSummary]
  dsimp only
  cases rule : (c.method id).returns with
  | unknown => exact isSubtype_of_isTop rfl _
  | newInstance => rw [rule] at covered; cases form <;> cases covered
  | receiver =>
    rw [rule] at covered
    cases form with
    | receiver =>
      cases holds
      exact isSubtype_refl _
    | _ => cases covered
  | fixed t =>
    rw [rule] at covered
    cases form with
    | receiver =>
      cases holds
      exact isSubtype_typeOf covered
    | emptyArray =>
      cases holds
      exact covered
    | oneOf classes => exact isSubtype_typeOf (List.all_eq_true.mp covered _ holds)
    | anything => exact isSubtype_of_isTop covered _

/-- A call that can be worked out has a primitive. -/
theorem exists_of_simulate {id : MethodId} {receiver result : Value} {args : List Value}
    (simulated : c.simulate id receiver args = .value result) :
    ∃ p, (c.method id).primitive = some p ∧ p.eval c receiver args = .ok result := by
  rw [simulate] at simulated
  cases primitive : (c.method id).primitive with
  | none => rw [primitive] at simulated; cases simulated
  | some p =>
    rw [primitive] at simulated
    refine ⟨p, rfl, ?_⟩
    dsimp only at simulated
    split at simulated
    · rename_i returned
      rw [returned, Simulation.value.inj simulated]
    · cases simulated
    · cases simulated

/-- In a table whose methods all declare their results rightly, results have the declared types. -/
theorem simulate_typed {ms : Core.MethodList} (listed : c.MethodsFrom ms)
    (covered : ∀ e ∈ ms, ∀ k ∈ c.descendants e.1,
      (e.2.primitive.all fun p => (p.resultForm c k).covered c k e.2.returns) = true)
    {name : String} {id : MethodId} {receiver result : Value} {args : List Value}
    (told : (∃ m, receiver = .moduleRef m) ↔ ∃ a, c.kind (c.classOf receiver) = .singleton a)
    (has : c.HasClass (c.classOf receiver))
    (dispatched : c.instanceMethod? (c.classOf receiver) name = some id)
    (simulated : c.simulate id receiver args = .value result) :
    c.isSubtype (c.typeOf result) (c.declaredSummary id (c.typeOf receiver)).returns = true := by
  obtain ⟨before, owner, after, split, found, -⟩ := exists_of_instanceMethod dispatched
  obtain ⟨-, member, -⟩ := listed owner name id found
  have descends : c.classOf receiver ∈ c.descendants owner := by
    refine mem_descendants.mpr ⟨has, List.contains_iff_mem.mpr ?_⟩
    change owner ∈ c.ancestors _
    rw [split]
    exact List.mem_append_right _ List.mem_cons_self
  obtain ⟨p, primitive, returned⟩ := exists_of_simulate simulated
  exact isSubtype_declared (p.eval_gives told result returned)
    ((Option.all_eq_true _ _).mp (covered _ member _ descends) p primitive)

/-! The core table. -/

/-- Every core method that can be worked out declares its result rightly, whatever the class of the
receiver. -/
theorem coreMethods_covered : ∀ e ∈ coreMethods, ∀ k ∈ ClassTable.core.descendants e.1,
    (e.2.primitive.all fun p => (p.resultForm .core k).covered .core k e.2.returns) = true := by
  decide +kernel

theorem core_kinds :
    (∀ m < (30 : Nat), m ≠ kernel → ClassTable.core.kind m = .cls) ∧
      (∀ m < ClassTable.core.size,
        ClassTable.core.kind (ClassTable.core.singletonOf m) = .singleton (m % 30)) ∧
      ClassTable.core.hierarchy.size = ClassTable.core.size := by
  decide +kernel

/-- The class of a class object is a singleton, that of any other value is not. -/
theorem core_kind_classOf {receiver : Value}
    (plain : ∀ m serial, receiver = .object m serial → ClassTable.core.kind m = .cls)
    (inside : ClassTable.core.classOf receiver < ClassTable.core.size) :
    (∃ m, receiver = .moduleRef m) ∧
        (∃ a, ClassTable.core.kind (ClassTable.core.classOf receiver) = .singleton a) ∨
      (¬ ∃ m, receiver = .moduleRef m) ∧
        ClassTable.core.kind (ClassTable.core.classOf receiver) = .cls := by
  obtain ⟨classes, singletons, -⟩ := core_kinds
  cases receiver with
  | moduleRef m =>
    refine .inl ⟨⟨m, rfl⟩, m % 30, singletons m ?_⟩
    -- a number without a record would stand for itself
    by_contra outside
    have self : ClassTable.core.singletonOf m = m := by
      rw [singletonOf, record, Array.getD_eq_getD_getElem?,
        Array.getElem?_eq_none (Nat.le_of_not_lt outside)]
      rfl
    rw [classOf, self] at inside
    exact outside inside
  | object m serial => exact .inr ⟨by simp, plain m serial rfl⟩
  | bool b =>
    cases b with
    | false => exact .inr ⟨by simp, classes falseClass (by decide) (by decide)⟩
    | true => exact .inr ⟨by simp, classes trueClass (by decide) (by decide)⟩
  | _ =>
    exact .inr ⟨by simp, classes _ (by simp only [classOf]; decide) (by simp only [classOf]; decide)⟩

/-- A value that a core method returns on known operands has the type that the method declares for
the receiver's. -/
theorem simulate_declared {name : String} {id : MethodId} {receiver result : Value}
    {args : List Value}
    (plain : ∀ m serial, receiver = .object m serial → ClassTable.core.kind m = .cls)
    (dispatched : ClassTable.core.instanceMethod? (ClassTable.core.classOf receiver) name = some id)
    (simulated : ClassTable.core.simulate id receiver args = .value result) :
    ClassTable.core.isSubtype (ClassTable.core.typeOf result)
      (ClassTable.core.declaredSummary id (ClassTable.core.typeOf receiver)).returns = true := by
  have inside : ClassTable.core.classOf receiver < ClassTable.core.size := by
    obtain ⟨before, owner, after, split, -⟩ := exists_of_instanceMethod dispatched
    exact core_kinds.2.2 ▸ inside_of_ancestors (by simp [split])
  have kinds := core_kind_classOf plain inside
  refine simulate_typed core_methods.1 coreMethods_covered ?_ ⟨inside, ?_⟩ dispatched simulated
  · rcases kinds with ⟨isModule, isSingleton⟩ | ⟨other, kind⟩
    · exact ⟨fun _ => isSingleton, fun _ => isModule⟩
    · refine ⟨fun isModule => absurd isModule other, fun ⟨a, isSingleton⟩ => ?_⟩
      rw [kind] at isSingleton
      cases isSingleton
  · rw [isClass]
    rcases kinds with ⟨-, a, kind⟩ | ⟨-, kind⟩ <;> rw [kind] <;> rfl

/-- The superclass of `Integer` is a class object, as `superclass` declares. -/
theorem simulate_declared_superclass :
    ClassTable.core.instanceMethod? (ClassTable.core.classOf (.moduleRef integer)) "superclass" =
        some 54 ∧
      ClassTable.core.simulate 54 (.moduleRef integer) [] = .value (.moduleRef CoreClass.numeric) ∧
      ClassTable.core.isSubtype (ClassTable.core.typeOf (.moduleRef CoreClass.numeric))
        (ClassTable.core.declaredSummary 54 (ClassTable.core.typeOf (.moduleRef integer))).returns =
          true := by
  have run : ClassTable.core.instanceMethod? (ClassTable.core.classOf (.moduleRef integer))
        "superclass" = some 54 ∧
      ClassTable.core.simulate 54 (.moduleRef integer) [] =
        .value (.moduleRef CoreClass.numeric) := by
    decide +kernel
  exact ⟨run.1, run.2, simulate_declared (fun _ _ other => by cases other) run.1 run.2⟩

end ClassTable

end ScriptFlow
