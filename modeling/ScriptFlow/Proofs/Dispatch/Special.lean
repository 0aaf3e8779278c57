import ScriptFlow.Core.Evaluate
import ScriptFlow.Dispatch.Special
import ScriptFlow.Proofs.ClassTable.Lineage
import ScriptFlow.Proofs.ClassTable.Values

/-! Calls that are decided by the types of their operands come out as they would on the values. -/

namespace ScriptFlow

open CoreClass

namespace ClassTable

variable {k : ModuleId} {name : String} {p : Primitive}
variable {c : ClassTable}

/-- A value as programs have it: no object passes for a number, a text or an array. -/
structure Genuine (c : ClassTable) (v : Value) : Prop where
  known : c.Knows v
  plain : ∀ m serial, v = .object m serial → m ∉ [integer, string, array]

theorem classOf_moduleRef_ne (lineal : c.Lineal) {m : ModuleId} (inside : m < c.size)
    (core : k < 30) : c.classOf (.moduleRef m) ≠ k := by
  intro same
  have kinds := kind_of_isSingleton (lineal.singleton m inside)
  rw [show c.singletonOf m = k from same, lineal.coreKind k core] at kinds
  split at kinds
  · exact kinds.2 rfl
  · exact kinds.1 rfl

theorem length_of_admitsAll {slots : List Ty} {items : List Value}
    (fit : c.admitsAll slots items = true) : items.length = slots.length := by
  induction slots generalizing items with
  | nil =>
    cases items with
    | nil => rfl
    | cons => cases fit
  | cons t slots ih =>
    cases items with
    | nil => cases fit
    | cons v items =>
      rw [admitsAll, Bool.and_eq_true] at fit
      exact congrArg (· + 1) (ih fit.2)

/-- The class tells what a number, a text or an array is. -/
theorem Genuine.literal (lineal : c.Lineal) {v : Value} (genuine : c.Genuine v)
    (cls : c.classOf v ∈ [integer, string, array]) :
    (∃ n, v = .int n) ∨ (∃ s, v = .str s) ∨ ∃ items, v = .array items := by
  cases v with
  | int n => exact .inl ⟨n, rfl⟩
  | str s => exact .inr (.inl ⟨s, rfl⟩)
  | array items => exact .inr (.inr ⟨items, rfl⟩)
  | object m serial => exact absurd cls (genuine.plain m serial rfl)
  | moduleRef m =>
    have other {k : ModuleId} (core : k < 30) := classOf_moduleRef_ne lineal genuine.known core
    simp only [List.mem_cons, List.not_mem_nil, or_false] at cls
    rcases cls with cls | cls | cls <;> exact absurd cls (other (by decide))
  | bool b => cases b <;> exact absurd cls (by simp only [classOf]; decide)
  | _ => exact absurd cls (by simp only [classOf]; decide)

end ClassTable

/-! Operands and their values. -/

namespace Component

variable {c : ClassTable} {x : Component} {v : Value}

/-- A value that the operand may have. -/
structure Fits (c : ClassTable) (x : Component) (v : Value) : Prop where
  genuine : c.Genuine v
  admitted : c.admits x.ty v = true
  known : ∀ w, x.cell = .known w → v = w

namespace Fits

theorem eq_of_value? (fits : x.Fits c v) {w : Value} (value : x.cell.value? = some w) : v = w := by
  refine fits.known w ?_
  cases cell : x.cell with
  | known u =>
    rw [cell] at value
    cases value
    rfl
  | _ =>
    rw [cell] at value
    cases value

theorem eq_of_int? (fits : x.Fits c v) {n : Int64} (int : x.int? = some n) : v = .int n := by
  obtain ⟨w, value, isInt⟩ := Option.bind_eq_some_iff.mp int
  rw [fits.eq_of_value? value]
  cases w <;> cases isInt
  rfl

theorem eq_of_module? (fits : x.Fits c v) {m : ModuleId} (isModule : x.module? = some m) :
    v = .moduleRef m := by
  obtain ⟨w, value, isModule⟩ := Option.bind_eq_some_iff.mp isModule
  rw [fits.eq_of_value? value]
  cases w <;> cases isModule
  rfl

theorem classOf_eq (rooted : c.Rooted) (grounded : c.Grounded) (fits : x.Fits c v)
    (exactly : x.isExactly c k = true) : c.classOf v = k := by
  rw [isExactly, Bool.and_eq_true] at exactly
  obtain ⟨m, member, is⟩ := ClassTable.admits_iff.mp
    (rooted.admits_of_isSubtype grounded _ _ v fits.genuine.known exactly.2 fits.admitted)
  cases List.mem_singleton.mp member
  exact beq_iff_eq.mp is

theorem exists_of_asTuple (fits : x.Fits c v) {slots : List Ty} (tuple : x.ty.asTuple? = some slots) :
    ∃ items, v = .array items ∧ items.length = slots.length := by
  have members : x.ty.members = [.tuple slots] := by
    rw [Ty.asTuple?] at tuple
    split at tuple
    · rename_i members
      rw [members, Option.some.inj tuple]
    · cases tuple
  obtain ⟨m, member, is⟩ := ClassTable.admits_iff.mp fits.admitted
  rw [members] at member
  cases List.mem_singleton.mp member
  cases v with
  | array items => exact ⟨items, rfl, ClassTable.length_of_admitsAll is⟩
  | _ => cases is

end Fits

end Component

/-! Core methods at zero and one. -/

namespace Core

theorem int64?_toInt (n : Int64) : int64? n.toInt = some n := by
  have within : Int64.minValue.toInt ≤ n.toInt ∧ n.toInt ≤ Int64.maxValue.toInt :=
    ⟨Int64.minValue_le_toInt n, Int64.toInt_le n⟩
  rw [int64?, if_pos within, Int64.ofInt_toInt]

theorem fitted_toInt (n : Int64) : fitted n.toInt = .ok (.int n) := by
  rw [fitted, int64?_toInt]

theorem arith_int (exact : Int → Int → Int) (inexact : Double → Double → Double) (a b : Int64) :
    arith exact inexact (.int a) [.int b] = fitted (exact a.toInt b.toInt) := rfl

theorem power_int (a : Int64) {b : Int64} (n : Nat) (small : n < 64) (is : b.toInt = n) :
    power (.int a) [.int b] = fitted (Int.pow a.toInt n) := by
  change (if b.toInt < 0 then _ else if (UInt32.size : Int) ≤ b.toInt then _
    else powered a.toInt b.toInt.toNat) = _
  have bound : ¬(UInt32.size : Int) ≤ n := by
    rw [show (UInt32.size : Int) = 4294967296 from rfl]
    omega
  rw [is, if_neg (by omega), if_neg bound, Int.toNat_natCast, powered, if_pos small]

@[simp] theorem copies_zero {α : Type} (items : List α) : copies items 0 = [] := by
  simp [copies]

theorem repeatText_zero (s : String) : repeatText (.str s) [.int 0] = .ok (.str "") := by
  change (if maxBytes < s.utf8ByteSize * 0 then Folded.refuse "string too large"
    else (.ok (.str (String.ofList (copies s.toList 0))) : Folded Value)) = _
  rw [Nat.mul_zero, if_neg (by decide), copies_zero]

theorem repeatArray_zero (items : List Value) :
    repeatArray (.array items) [.int 0] = .ok (.array []) := by
  change (if maxItems < items.length * 0 then Folded.refuse "array too large"
    else (.ok (.array (copies items 0)) : Folded Value)) = _
  rw [Nat.mul_zero, if_neg (by decide), copies_zero]

end Core

/-! What a call works out to. -/

namespace Special

variable {c : ClassTable}

def names : List String := ["*", "**", "===", "[]", "new", "size", "length", "+", "respond_to?"]

/-- The core methods with the names of special calls that can be worked out. -/
def workable : List (ModuleId × String × Primitive) :=
  [(kernel, "===", .equal), (kernel, "respond_to?", .respondTo), (moduleClass, "===", .caseEqual),
    (integer, "+", .add), (integer, "*", .mul), (integer, "**", .pow),
    (float, "+", .add), (float, "*", .mul), (float, "**", .pow),
    (string, "+", .concat), (string, "*", .repeatText), (string, "size", .size),
    (string, "length", .size), (string, "[]", .index),
    (symbol, "size", .size), (symbol, "length", .size),
    (array, "size", .size), (hash, "size", .size), (array, "length", .size), (hash, "length", .size),
    (array, "[]", .index), (array, "+", .concatArray), (array, "*", .repeatArray),
    (hash, "[]", .lookup), (range, "===", .inRange)]

theorem mem_workable : ∀ e ∈ ClassTable.coreMethods, ∀ p ∈ e.2.primitive,
    e.2.name ∈ names →
      (e.1, e.2.name, p) ∈ workable := by
  decide +kernel

/-- Whatever method of the name the receiver has, if it can be worked out it gives the value. -/
def WorksOut (c : ClassTable) (name : String) (receiver : Value) (args : List Value) (w : Value) :
    Prop :=
  ∀ id p, c.instanceMethod? (c.classOf receiver) name = some id →
    (c.method id).primitive = some p → p.eval c receiver args = .ok w

/-- A method that can be worked out is one of the core methods, at an ancestor of the class. -/
theorem exists_workable (folds : c.CoreFolds) {id : MethodId} (special : name ∈ names)
    (dispatched : c.instanceMethod? k name = some id)
    (primitive : (c.method id).primitive = some p) :
    ∃ before a after, c.ancestors k = before ++ a :: after ∧ (a, name, p) ∈ workable ∧
      ∀ b ∈ before, c.holds b name = false := by
  obtain ⟨before, a, after, split, found, early⟩ := ClassTable.exists_of_instanceMethod dispatched
  obtain ⟨s, member, named, isPrimitive⟩ := folds.primitive a name id p found primitive
  subst named
  exact ⟨before, a, after, split, mem_workable _ member p isPrimitive special, early⟩

/-- A core class has a method of the name. -/
def IsCore (k : ModuleId) (name : String) : Prop :=
  ∃ e ∈ ClassTable.coreMethods, e.1 = k ∧ e.2.name = name

instance (k : ModuleId) (name : String) : Decidable (IsCore k name) :=
  inferInstanceAs (Decidable (∃ e ∈ ClassTable.coreMethods, _))

theorem IsCore.holds (folds : c.CoreFolds) (core : IsCore k name) : c.holds k name = true := by
  obtain ⟨e, member, rfl, rfl⟩ := core
  exact folds.holds e member

/-- A method of the class itself comes first. -/
theorem mem_workable_own (folds : c.CoreFolds) {id : MethodId} (special : name ∈ names)
    (own : IsCore k name) (dispatched : c.instanceMethod? k name = some id)
    (primitive : (c.method id).primitive = some p) : (k, name, p) ∈ workable := by
  obtain ⟨before, a, after, split, member, early⟩ :=
    exists_workable folds special dispatched primitive
  obtain ⟨rest, first⟩ := Hierarchy.exists_linearize_eq c.hierarchy.links
    Hierarchy.maxLinks k
  have inside := ClassTable.inside_of_ancestors (c := c) (k := k) (by simp [split])
  rw [ClassTable.ancestors_eq inside, first] at split
  cases before with
  | nil =>
    cases (List.cons.inj split).1
    exact member
  | cons b before =>
    cases (List.cons.inj split).1
    exact absurd (own.holds folds) (by simp [early k List.mem_cons_self])

/-- Special calls on core classes that the class itself answers. -/
def ownFolds : List (ModuleId × String × Primitive) :=
  [(moduleClass, "===", .caseEqual), (integer, "*", .mul), (integer, "**", .pow),
    (string, "*", .repeatText), (array, "*", .repeatArray),
    (array, "size", .size), (array, "length", .size), (array, "+", .concatArray)]

theorem ownFolds_sole : ∀ e ∈ ownFolds, e.2.1 ∈ names ∧
    IsCore e.1 e.2.1 ∧
    ∀ f ∈ workable, f.1 = e.1 → f.2.1 = e.2.1 → f.2.2 = e.2.2 := by
  decide +kernel

theorem worksOut_own (folds : c.CoreFolds)
    {r w : Value} {args : List Value} (own : (k, name, p) ∈ ownFolds) (cls : c.classOf r = k)
    (works : p.eval c r args = .ok w) : WorksOut c name r args w := by
  intro id q dispatched primitive
  obtain ⟨special, isCore, sole⟩ := ownFolds_sole _ own
  have member := mem_workable_own folds special isCore (cls ▸ dispatched) primitive
  cases sole _ member rfl rfl
  exact works

theorem arrayClass_isCore : IsCore (array + 30) "[]" := by decide +kernel

section Folds

variable (program : c.ByProgram) (rooted : c.Rooted) {x y result : Component} {r v w : Value}

include program

theorem exists_int (rooted : c.Rooted) (fits : x.Fits c v) (exactly : x.isExactly c integer = true) :
    ∃ n, v = .int n := by
  have cls := fits.classOf_eq rooted program.extendsCore.grounded exactly
  rcases fits.genuine.literal program.lineal (by simp [cls]) with int | ⟨s, rfl⟩ | ⟨items, rfl⟩
  · exact int
  · cases cls
  · cases cls

theorem exists_str (rooted : c.Rooted) (fits : x.Fits c v) (exactly : x.isExactly c string = true) :
    ∃ s, v = .str s := by
  have cls := fits.classOf_eq rooted program.extendsCore.grounded exactly
  rcases fits.genuine.literal program.lineal (by simp [cls]) with ⟨n, rfl⟩ | str | ⟨items, rfl⟩
  · cases cls
  · exact str
  · cases cls

theorem exists_array (rooted : c.Rooted) (fits : x.Fits c v)
    (exactly : (x.ty.asTuple?.isSome || x.isExactly c array) = true) : ∃ items, v = .array items := by
  rcases Bool.or_eq_true_iff.mp exactly with tuple | exactly
  · obtain ⟨slots, tuple⟩ := Option.isSome_iff_exists.mp tuple
    obtain ⟨items, eq, -⟩ := fits.exists_of_asTuple tuple
    exact ⟨items, eq⟩
  · have cls := fits.classOf_eq rooted program.extendsCore.grounded exactly
    rcases fits.genuine.literal program.lineal (by simp [cls]) with ⟨n, rfl⟩ | ⟨s, rfl⟩ | array
    · cases cls
    · cases cls
    · exact array

theorem timesZero_worksOut (rooted : c.Rooted) (receives : x.Fits c r) (passes : y.Fits c v)
    (mixed : x.isExactly c float = false) (folded : timesZero c x y = some result)
    (concrete : result.cell = .known w) : WorksOut c "*" r [v] w := by
  have folds := program.coreFolds
  rw [timesZero] at folded
  split at folded
  · rename_i zero
    cases passes.eq_of_int? zero
    obtain ⟨z, isZero, rfl⟩ := Option.map_eq_some_iff.mp folded
    cases concrete
    rw [zeroOf] at isZero
    split_ifs at isZero with isInt isFloat isText isArray
    · obtain ⟨n, rfl⟩ := exists_int program rooted receives isInt
      cases isZero
      refine worksOut_own folds (k := integer) (p := .mul) (by decide) rfl ?_
      rw [Primitive.eval, Core.arith_int, Int64.toInt_zero, Int.mul_zero]
      exact Core.fitted_toInt 0
    · exact absurd isFloat (by simp [mixed])
    · obtain ⟨s, rfl⟩ := exists_str program rooted receives isText
      cases isZero
      exact worksOut_own folds (k := string) (p := .repeatText) (by decide) rfl (Core.repeatText_zero s)
    · obtain ⟨items, rfl⟩ := exists_array program rooted receives isArray
      cases isZero
      exact worksOut_own folds (k := array) (p := .repeatArray) (by decide) rfl
        (Core.repeatArray_zero items)
  · split at folded
    · rename_i both
      rw [Bool.and_eq_true, decide_eq_true_eq] at both
      cases receives.eq_of_int? both.1
      obtain ⟨n, rfl⟩ := exists_int program rooted passes both.2
      cases folded
      cases concrete
      refine worksOut_own folds (k := integer) (p := .mul) (by decide) rfl ?_
      rw [Primitive.eval, Core.arith_int, Int64.toInt_zero, Int.zero_mul]
      exact Core.fitted_toInt 0
    · cases folded

theorem power_worksOut (rooted : c.Rooted) (receives : x.Fits c r) (passes : y.Fits c v)
    (folded : power c x y = some result) (concrete : result.cell = .known w) :
    WorksOut c "**" r [v] w := by
  rw [power] at folded
  split_ifs at folded with isInt zero one
  · obtain ⟨n, rfl⟩ := exists_int program rooted receives isInt
    cases passes.eq_of_int? zero
    cases folded
    cases concrete
    refine worksOut_own program.coreFolds (k := integer) (p := .pow) (by decide) rfl ?_
    have unit : Int.pow n.toInt 0 = 1 := Int.pow_zero _
    rw [Primitive.eval, Core.power_int n 0 (by decide) rfl, unit]
    exact Core.fitted_toInt 1
  · obtain ⟨n, rfl⟩ := exists_int program rooted receives isInt
    cases passes.eq_of_int? one
    cases folded
    cases receives.known w concrete
    refine worksOut_own program.coreFolds (k := integer) (p := .pow) (by decide) rfl ?_
    have itself : Int.pow n.toInt 1 = n.toInt := Int.pow_one _
    rw [Primitive.eval, Core.power_int n 1 (by decide) rfl, itself]
    exact Core.fitted_toInt n

theorem tupleSize_worksOut (named : (array, name, .size) ∈ ownFolds)
    (receives : x.Fits c r) (folded : tupleSize x = some result) (concrete : result.cell = .known w) :
    WorksOut c name r [] w := by
  obtain ⟨slots, tuple, counted⟩ := Option.bind_eq_some_iff.mp folded
  obtain ⟨n, count, eq⟩ := Option.bind_eq_some_iff.mp counted
  cases eq
  cases concrete
  obtain ⟨items, rfl, length⟩ := receives.exists_of_asTuple tuple
  refine worksOut_own program.coreFolds named rfl ?_
  change Core.fitted items.length = _
  rw [length, Core.fitted, count]

theorem concat_worksOut (receives : x.Fits c r) (passes : y.Fits c v)
    (folded : concat x y = some result) (concrete : result.cell = .known w) :
    WorksOut c "+" r [v] w := by
  rw [concat] at folded
  split at folded
  · split at folded
    · cases folded
    · split at folded
      · rename_i as bs left right
        cases folded
        cases concrete
        cases receives.known _ left
        cases passes.known _ right
        exact worksOut_own program.coreFolds (k := array) (p := .concatArray) (by decide) rfl rfl
      · cases folded
        cases concrete
  · cases folded

/-- On a class object `===` is that of `Module`, unless the program says otherwise. -/
theorem caseEqual_of_moduleRef (rooted : c.Rooted) {m : ModuleId} (known : c.Knows (.moduleRef m))
    {id : MethodId} (dispatched : c.instanceMethod? (c.classOf (.moduleRef m)) "===" = some id)
    (primitive : (c.method id).primitive = some p) : p = .caseEqual := by
  have lineal := program.lineal
  have folds := program.coreFolds
  have is := lineal.singleton m known
  have has := program.extendsCore.grounded.hasClass_classOf known
  obtain ⟨special, isCore, sole⟩ := ownFolds_sole (moduleClass, "===", .caseEqual) (by decide)
  obtain ⟨before, a, after, split, member, early⟩ := exists_workable folds special dispatched primitive
  have candidates : a = kernel ∧ p = .equal ∨ a = moduleClass ∧ p = .caseEqual ∨
      a = range ∧ p = .inRange := by
    simpa [workable] using member
  obtain ⟨ahead, rest, chain, precedes⟩ := lineal.exists_ancestors_split is (rooted _ has.1 has.2)
  have notAhead : a ∉ ahead := by
    intro isAhead
    obtain ⟨notKernel, ofClass⟩ := precedes a isAhead
    rcases candidates with ⟨rfl, -⟩ | ⟨rfl, -⟩ | ⟨rfl, -⟩
    · exact notKernel rfl
    · exact absurd (ofClass (lineal.coreKind _ (by decide))) (by decide)
    · exact absurd (ofClass (lineal.coreKind _ (by decide))) (by decide)
  have isModule : a = moduleClass := by
    rcases List.append_eq_append_iff.mp (split.symm.trans chain) with ⟨gap, eq, tail⟩ | ⟨gap, eq, tail⟩
    · cases gap with
      | nil => exact (List.cons.inj tail).1
      | cons b gap =>
        cases (List.cons.inj tail).1
        exact absurd (by simp [eq]) notAhead
    · cases gap with
      | nil => exact (List.cons.inj tail).1.symm
      | cons b gap =>
        cases (List.cons.inj tail).1
        exact absurd (isCore.holds folds) (by simp [early moduleClass (by simp [eq])])
  subst isModule
  exact sole _ member rfl rfl

theorem caseEqual_worksOut (rooted : c.Rooted) (receives : x.Fits c r) (passes : y.Fits c v)
    (folded : caseEqual c x y = some result) (concrete : result.cell = .known w) :
    WorksOut c "===" r [v] w := by
  have grounded := program.extendsCore.grounded
  rw [caseEqual] at folded
  split at folded
  · cases folded
  rename_i m isModule
  cases receives.eq_of_module? isModule
  have answer : w = .bool (c.isA (c.classOf v) m) := by
    have below : c.admits (.orBelow m) v = c.isA (c.classOf v) m := by
      simp [Ty.orBelow, Ty.ofMember, ClassTable.admits, ClassTable.admitsAny, ClassTable.admitsMember]
    split_ifs at folded with open_ within apart
    · cases folded
      cases concrete
      rw [← below, rooted.admits_of_isSubtype grounded _ _ v passes.genuine.known within passes.admitted]
    · cases folded
      cases concrete
      have excluded : ¬ c.admits (.orBelow m) v = true := fun is => by
        have overlap := ClassTable.overlaps_of_admits (grounded.hasClass_classOf passes.genuine.known)
          passes.admitted is
        rw [overlap] at apart
        cases apart
      rw [← below, (Bool.not_eq_true _).mp excluded]
  intro id p dispatched primitive
  rw [answer, caseEqual_of_moduleRef program rooted receives.genuine.known dispatched primitive]
  rfl

theorem respondsTo_worksOut (receives : x.Fits c r) (passes : y.Fits c v)
    (folded : respondsTo c x y = some result) (concrete : result.cell = .known w) :
    WorksOut c "respond_to?" r [v] w := by
  intro id p dispatched primitive
  obtain ⟨-, a, -, -, member, -⟩ := exists_workable program.coreFolds (by decide) dispatched primitive
  have isRespondTo : p = .respondTo := by
    have candidate : a = kernel ∧ p = .respondTo := by simpa [workable] using member
    exact candidate.2
  rw [respondsTo] at folded
  split at folded
  · cases folded
  rename_i name named
  obtain ⟨u, value, isName⟩ := Option.bind_eq_some_iff.mp named
  cases passes.eq_of_value? value
  have possible : c.classOf r ∈ c.possibleClasses x.ty := by
    obtain ⟨m, m_in, admitted⟩ := ClassTable.admits_iff.mp receives.admitted
    have has := program.extendsCore.grounded.hasClass_classOf receives.genuine.known
    exact ClassTable.mem_possibleClasses.mpr ⟨m, m_in, ClassTable.mem_memberClasses has admitted⟩
  have evaluated : p.eval c r [v] = .ok (.bool ((c.instanceMethod? (c.classOf r) name).isSome &&
      c.visibilityOf (c.classOf r) name == .anyone)) := by
    rw [isRespondTo, Primitive.eval, Core.respondTo, Core.nameArg, Core.firstArg]
    change (Folded.orRaise v.asName? "TypeError" _ >>= _) = _
    rw [isName]
    rfl
  rw [evaluated]
  split at folded
  · cases folded
  dsimp only at folded
  split at folded
  · rename_i all
    cases folded
    cases concrete
    have answer := List.all_eq_true.mp all _ (List.mem_map_of_mem possible)
    exact congrArg (Except.ok ∘ Value.bool) answer
  split at folded
  · rename_i none
    cases folded
    cases concrete
    have answer := List.all_eq_true.mp none _ (List.mem_map_of_mem possible)
    exact congrArg (Except.ok ∘ Value.bool) ((Bool.not_eq_true' _).mp answer)
  · cases folded

/-- No `new` is worked out, -/
theorem new_worksOut {args : List Value} : WorksOut c "new" r args w := by
  intro id p dispatched primitive
  obtain ⟨-, a, -, -, member, -⟩ := exists_workable program.coreFolds (by decide) dispatched primitive
  have other : ∀ e ∈ workable, e.2.1 ≠ "new" := by decide
  exact absurd rfl (other _ member)

/-- nor is the `[]` of the class `Array`. -/
theorem arrayClass_worksOut {args : List Value} (receives : x.Fits c r)
    (isArray : x.module? = some array) : WorksOut c "[]" r args w := by
  intro id p dispatched primitive
  cases receives.eq_of_module? isArray
  have own : c.classOf (.moduleRef array) = array + 30 := program.lineal.coreSingleton array (by decide)
  rw [own] at dispatched
  have member := mem_workable_own program.coreFolds (by decide) arrayClass_isCore dispatched primitive
  have other : ∀ e ∈ workable, e.1 ≠ array + 30 := by decide
  exact absurd rfl (other _ member)

end Folds

end Special

theorem Component.exists_of_one {c : ClassTable} {arg : Component} {vs : List Value}
    (passes : List.Forall₂ (Component.Fits c) [arg] vs) : ∃ v, vs = [v] ∧ arg.Fits c v := by
  cases passes with
  | cons first none =>
    cases none
    exact ⟨_, rfl, first⟩

open Special Component in
/-- A call that is decided by what is known of its operands comes out the same on every receiver and
arguments that they may have, where these can be worked out at all. -/
theorem foldSpecial_worksOut {c : ClassTable} (program : c.ByProgram) (rooted : c.Rooted)
    {res : Resolution} {name : String} {receiver result : Component} {args : List Component}
    {w r : Value} {vs : List Value} {id : MethodId}
    (folded : foldSpecial c res name receiver args = some result) (concrete : result.cell = .known w)
    (mixed : receiver.isExactly c float = false)
    (receives : receiver.Fits c r) (passes : List.Forall₂ (Component.Fits c) args vs)
    (dispatched : c.instanceMethod? (c.classOf r) name = some id)
    (workable : (c.method id).primitive ≠ none) : c.simulate id r vs = .value w := by
  suffices works : WorksOut c name r vs w by
    obtain ⟨p, primitive⟩ := Option.ne_none_iff_exists'.mp workable
    rw [ClassTable.simulate, primitive]
    dsimp only
    rw [works id p dispatched primitive]
  unfold foldSpecial at folded
  split at folded
  · cases folded
  split at folded
  · obtain ⟨v, rfl, passed⟩ := exists_of_one passes
    exact timesZero_worksOut program rooted receives passed mixed folded concrete
  · obtain ⟨v, rfl, passed⟩ := exists_of_one passes
    exact power_worksOut program rooted receives passed folded concrete
  · obtain ⟨v, rfl, passed⟩ := exists_of_one passes
    exact caseEqual_worksOut program rooted receives passed folded concrete
  · split at folded
    · exact arrayClass_worksOut program receives ‹_›
    · cases folded
  · exact new_worksOut program
  · cases passes
    exact tupleSize_worksOut program (by decide) receives folded concrete
  · cases passes
    exact tupleSize_worksOut program (by decide) receives folded concrete
  · obtain ⟨v, rfl, passed⟩ := exists_of_one passes
    exact concat_worksOut program receives passed folded concrete
  · obtain ⟨v, rfl, passed⟩ := exists_of_one passes
    exact respondsTo_worksOut program receives passed folded concrete
  · cases folded

/-- A point is a shape: the types say so before any point is known, and so does `===` on each. -/
theorem foldSpecial_worksOut_shape :
    foldSpecial .shapes
        ((Resolver.ofTable .shapes).resolve (ClassTable.shapes.typeOf (.moduleRef 60)) "===" false)
        "===" (.known .shapes (.moduleRef 60)) [.varying (.exact 62)] =
          some (.known .shapes (.bool true)) ∧
      ClassTable.shapes.instanceMethod? (ClassTable.shapes.classOf (.moduleRef 60)) "===" = some 36 ∧
      ClassTable.shapes.simulate 36 (.moduleRef 60) [.object 62 0] = .value (.bool true) := by
  have facts :
      ((ClassTable.core.defineModule "Shape").2.defineClass "Point" none).2.kind 60 = .mixin ∧
      ClassTable.shapes.Rooted ∧
      foldSpecial .shapes
        ((Resolver.ofTable .shapes).resolve (ClassTable.shapes.typeOf (.moduleRef 60)) "===" false)
        "===" (.known .shapes (.moduleRef 60)) [.varying (.exact 62)] =
          some (.known .shapes (.bool true)) ∧
      Component.isExactly .shapes (.known .shapes (.moduleRef 60)) float = false ∧
      (60 : Nat) < ClassTable.shapes.size ∧ ClassTable.shapes.HasClass 62 ∧
      ClassTable.shapes.instanceMethod? (ClassTable.shapes.classOf (.moduleRef 60)) "===" = some 36 ∧
      (ClassTable.shapes.method 36).primitive ≠ none := by
    decide +kernel
  obtain ⟨mixin, rooted, folded, mixed, inside, has, dispatched, workable⟩ := facts
  have program : ClassTable.shapes.ByProgram :=
    .includeModule 62 (.defineClass none (.defineModule .core (by decide)) (by decide)) mixin
  have receives : Component.Fits .shapes (.known .shapes (.moduleRef 60)) (.moduleRef 60) :=
    ⟨⟨inside, by simp⟩, ClassTable.admits_typeOf _ _, fun w known => by cases known; rfl⟩
  have passes : Component.Fits .shapes (.varying (.exact 62)) (.object 62 0) :=
    ⟨⟨has, fun m serial same => by cases same; decide⟩, ClassTable.admits_typeOf _ (.object 62 0),
      fun w known => by cases known⟩
  exact ⟨folded, dispatched, foldSpecial_worksOut program rooted folded rfl mixed receives
    (.cons passes .nil) dispatched workable⟩

namespace Special

/-- Whether a call is decided otherwise than it works out on values that its operands may have. -/
def foldsAmiss (c : ClassTable) (name : String) (receiver arg : Component) (r v : Value) : Bool :=
  match foldSpecial c ((Resolver.ofTable c).resolve receiver.ty name false) name receiver [arg],
    c.instanceMethod? (c.classOf r) name with
  | some ⟨.known w, _⟩, some id =>
    c.admits receiver.ty r && receiver.cell.value?.all (· == r) && c.admits arg.ty v &&
      arg.cell.value?.all (· == v) && (c.method id).primitive.isSome &&
      decide (c.simulate id r [v] ≠ .value w)
  | _, _ => false

def withShape : ClassTable := (ClassTable.core.defineModule "Shape").2

/-- A class below a mixin, away from `BasicObject`. -/
def belowShape : ClassTable := (withShape.defineClass "Point" (some 60)).2

/-- A class object that is asked as a range before it is asked as a module. -/
def includingRange : ClassTable := (ClassTable.core.defineClass "Point" none).2.includeModule 61 range

/-- Class objects of mixins that descend from another `Module`. -/
def otherModule : ClassTable :=
  ((ClassTable.core.defineClass "Module" none).2.defineModule "Shape").2.includeModule integer 62

/-- Types do not decide for objects that pass for numbers, for objects of mixins or of classes away
from `BasicObject`, nor where something else comes before `Module`. -/
theorem foldSpecial_amiss :
    foldsAmiss .core "*" (.varying (.exact integer)) (.known .core (.int 0)) (.object integer 0)
        (.int 0) = true ∧
      foldsAmiss .core "*" (.known .core (.int 0)) (.varying (.exact integer)) (.int 0)
        (.object integer 0) = true ∧
      foldsAmiss withShape "===" (.known withShape (.moduleRef basicObject)) (.varying (.exact 60))
        (.moduleRef basicObject) (.object 60 0) = true ∧
      foldsAmiss belowShape "===" (.known belowShape (.moduleRef basicObject)) (.varying (.exact 62))
        (.moduleRef basicObject) (.object 62 0) = true ∧
      foldsAmiss includingRange "===" (.known includingRange (.moduleRef 60)) (.varying (.exact 60))
        (.moduleRef 60) (.object 60 0) = true ∧
      foldsAmiss otherModule "===" (.known otherModule (.moduleRef 62)) (.varying (.exact integer))
        (.moduleRef 62) (.int 1) = true := by
  decide +kernel

end Special

end ScriptFlow
