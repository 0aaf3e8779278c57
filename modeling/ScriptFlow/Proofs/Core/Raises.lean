import ScriptFlow.Proofs.Core.Results

/-! What the core methods raise on known operands, and whether they declare it. -/

namespace ScriptFlow

/-! What a computation that fails raises. -/

namespace Folded

variable {α β : Type} {classes : List String}

/-- If an exception is raised, its class is one of these. -/
def Raises (classes : List String) (x : Folded α) : Prop :=
  ∀ cls message, x = .error (.raised cls message) → cls ∈ classes

theorem Raises.ok (a : α) : Raises classes (.ok a : Folded α) := by
  rintro cls message ⟨⟩

theorem Raises.pure (a : α) : Raises classes (Pure.pure a : Folded α) := .ok a

theorem Raises.refuse (reason : String) : Raises classes (Folded.refuse reason : Folded α) := by
  rintro cls message ⟨⟩

theorem Raises.abort (reason : String) : Raises classes (Folded.abort reason : Folded α) := by
  rintro cls message ⟨⟩

theorem Raises.raise {cls : String} (member : cls ∈ classes) (message : String) :
    Raises classes (Folded.raise cls message : Folded α) := by
  rintro _ _ ⟨⟩
  exact member

theorem Raises.bind {x : Folded β} {f : β → Folded α} (first : Raises classes x)
    (rest : ∀ b, Raises classes (f b)) : Raises classes (x >>= f) := by
  cases x with
  | ok b => exact rest b
  | error fault =>
    rintro cls message ⟨⟩
    exact first cls message rfl

theorem Raises.orRefuse (a : Option α) (reason : String) :
    Raises classes (Folded.orRefuse a reason) := by
  cases a with
  | some a => exact .ok a
  | none => exact .refuse reason

theorem Raises.orRaise {cls : String} (member : cls ∈ classes) (a : Option α) (message : String) :
    Raises classes (Folded.orRaise a cls message) := by
  cases a with
  | some a => exact .ok a
  | none => exact .raise member message

theorem Raises.ite {p : Prop} [Decidable p] {x y : Folded α} (yes : Raises classes x)
    (no : Raises classes y) : Raises classes (if p then x else y) := by
  split
  · exact yes
  · exact no

end Folded

open CoreClass

/-- Whether the primitive works on an argument, so that a call without one raises. -/
def Primitive.takesArg : Primitive → Bool
  | .equal | .notEqual | .isA | .instanceOf | .caseEqual | .respondTo | .constGet | .constDefined
  | .moduleLess | .add | .sub | .mul | .div | .mod | .pow | .less | .lessEq | .greater | .greaterEq
  | .numEqual | .order | .concat | .repeatText | .index | .both | .either | .includesItem
  | .concatArray | .repeatArray | .lookup | .hasKey | .inRange => true
  | _ => false

/-- The classes of what a primitive raises, given an argument if it takes one. -/
def Primitive.faults : Primitive → List String
  | .isA | .instanceOf | .respondTo | .constDefined | .moduleLess | .add | .sub | .mul | .pow
  | .concat | .concatArray | .joinText | .rangeItems => ["TypeError"]
  | .constGet => ["TypeError", "NameError"]
  | .div | .mod => ["TypeError", "ZeroDivisionError"]
  | .less | .lessEq | .greater | .greaterEq => ["ArgumentError"]
  | .repeatText | .repeatArray => ["TypeError", "ArgumentError"]
  | .toInt => ["FloatDomainError"]
  | _ => []

namespace Core

open Folded

variable {c : ClassTable} {receiver : Value} {args : List Value} {classes : List String}

theorem fitted_raises (n : Int) : Raises classes (fitted n) := by
  unfold fitted
  split
  · exact .ok _
  · exact .refuse _

theorem textReceiver_raises : Raises classes (textReceiver receiver) := .orRefuse _ _

theorem arrayReceiver_raises : Raises classes (arrayReceiver receiver) := by
  unfold arrayReceiver
  split
  · exact .ok _
  · exact .refuse _

theorem hashReceiver_raises : Raises classes (hashReceiver receiver) := by
  unfold hashReceiver
  split
  · exact .ok _
  · exact .refuse _

theorem rangeReceiver_raises : Raises classes (rangeReceiver receiver) := by
  unfold rangeReceiver
  split
  · exact .ok _
  · exact .refuse _

theorem toInteger_raises : Raises ["FloatDomainError"] (toInteger receiver) := by
  cases receiver with
  | nil => exact .ok _
  | int n => exact .ok _
  | float x =>
    simp only [toInteger]
    split
    · exact .ok _
    · exact .raise (List.mem_singleton_self _) _
  | _ => exact .refuse _

theorem joinText_raises : Raises ["TypeError"] (joinText c receiver args) := by
  unfold joinText
  refine .bind arrayReceiver_raises fun items => ?_
  extract_lets finish
  have finishes : ∀ separator, Raises ["TypeError"] (finish separator) :=
    fun separator => .ite (.refuse _) (.pure _)
  clear_value finish
  split
  · exact .bind (.pure _) finishes
  · exact .bind (.pure _) finishes
  · exact .bind (.pure _) finishes
  · exact .bind (.raise (List.mem_singleton_self _) _) finishes

theorem rangeItems_raises : Raises ["TypeError"] (rangeItems receiver) := by
  unfold rangeItems
  refine .bind rangeReceiver_raises ?_
  rintro ⟨a, b, exclusive⟩
  dsimp only
  split
  · refine .bind (.ite (.ok _) (.ite (.abort _) (.ok _))) fun final => ?_
    exact .ite (.refuse _) (.pure _)
  · exact .raise (List.mem_singleton_self _) _

theorem constantAt_raises (current : ModuleId) (found : Option Value) (names : List String) :
    Raises ["TypeError", "NameError"] (constantAt c current found names) := by
  induction names generalizing current found with
  | nil => exact .orRaise (by simp) _ _
  | cons name rest ih =>
    rw [constantAt]
    split
    · exact ih _ _
    · exact .raise (by simp) _

/-! With an argument. -/

section Given

variable (given : args ≠ [])
include given

theorem firstArg_raises : Raises classes (firstArg args) := by
  obtain ⟨v, rest, rfl⟩ := List.exists_cons_of_ne_nil given
  exact .ok v

theorem moduleArg_raises : Raises ["TypeError"] (moduleArg args) :=
  .bind (firstArg_raises given) fun _ => .orRaise (List.mem_singleton_self _) _ _

theorem nameArg_raises (member : "TypeError" ∈ classes) : Raises classes (nameArg args) :=
  .bind (firstArg_raises given) fun _ => .orRaise member _ _

theorem constGet_raises : Raises ["TypeError", "NameError"] (constGet c receiver args) :=
  .bind (.orRefuse _ _) fun m => .bind (nameArg_raises given (by simp)) fun name =>
    constantAt_raises m none _

theorem constDefined_raises : Raises ["TypeError"] (constDefined c receiver args) := by
  have raises : Raises _ (constGet c receiver args) := constGet_raises given
  unfold constDefined
  split
  · exact .ok _
  · rename_i cls message failed
    split
    · exact .ok _
    · rename_i other
      have known := raises cls message failed
      exact .raise (by simpa [other] using known) message
  · rename_i fault other _
    rintro cls message ⟨⟩
    exact absurd rfl (other cls message)

theorem moduleLess_raises : Raises ["TypeError"] (moduleLess c receiver args) :=
  .bind (.orRefuse _ _) fun _ => .bind (firstArg_raises given) fun _ =>
    .bind (.orRaise (List.mem_singleton_self _) _ _) fun _ => .pure _

theorem operands_raises (member : "TypeError" ∈ classes) : Raises classes (operands receiver args) :=
  .bind (.orRefuse _ _) fun _ => .bind (firstArg_raises given) fun _ =>
    .bind (.orRaise member _ _) fun _ => .pure _

theorem arith_raises (exact : Int → Int → Int) (inexact : Double → Double → Double) :
    Raises ["TypeError"] (arith exact inexact receiver args) := by
  refine .bind (operands_raises given (List.mem_singleton_self _)) fun both => ?_
  split
  · exact fitted_raises _
  · exact .pure _

theorem divide_raises : Raises ["TypeError", "ZeroDivisionError"] (divide receiver args) := by
  refine .bind (operands_raises given (by simp)) fun both => ?_
  split
  · exact .ite (.raise (by simp) _) (.ite (.refuse _) (.ok _))
  · exact .pure _

theorem modulo_raises : Raises ["TypeError", "ZeroDivisionError"] (modulo receiver args) := by
  refine .bind (operands_raises given (by simp)) fun both => ?_
  split
  · exact .ite (.raise (by simp) _) (.ite (.refuse _) (.ok _))
  · exact .pure _

theorem power_raises : Raises ["TypeError"] (power receiver args) := by
  refine .bind (operands_raises given (List.mem_singleton_self _)) fun both => ?_
  split
  · refine .ite (.refuse _) (.ite (.refuse _) ?_)
    unfold powered
    exact .ite (fitted_raises _) (.ite (fitted_raises _) (.ite (fitted_raises _) (.refuse _)))
  · exact .pure _

theorem compared_raises (test : Ordering → Bool) :
    Raises ["ArgumentError"] (compared test receiver args) := by
  refine .bind (.bind (firstArg_raises given) fun _ => ?_) fun _ => .pure _
  exact .orRaise (List.mem_singleton_self _) _ _

theorem concatText_raises : Raises ["TypeError"] (concatText receiver args) := by
  refine .bind textReceiver_raises fun _ => .bind (firstArg_raises given) fun _ => ?_
  split
  · exact .pure _
  · exact .raise (List.mem_singleton_self _) _

theorem concatArray_raises : Raises ["TypeError"] (concatArray receiver args) := by
  refine .bind arrayReceiver_raises fun _ => .bind (firstArg_raises given) fun _ => ?_
  split
  · exact .pure _
  · exact .raise (List.mem_singleton_self _) _

theorem repeatCount_raises : Raises ["TypeError", "ArgumentError"] (repeatCount args) :=
  .bind (firstArg_raises given) fun _ => .bind (.orRaise (by simp) _ _) fun _ =>
    .ite (.raise (by simp) _) (.pure _)

theorem repeatText_raises : Raises ["TypeError", "ArgumentError"] (repeatText receiver args) :=
  .bind textReceiver_raises fun _ => .bind (repeatCount_raises given) fun _ =>
    .ite (.refuse _) (.pure _)

theorem repeatArray_raises : Raises ["TypeError", "ArgumentError"] (repeatArray receiver args) :=
  .bind arrayReceiver_raises fun _ => .bind (repeatCount_raises given) fun _ =>
    .ite (.refuse _) (.pure _)

theorem index_raises : Raises classes (index receiver args) := by
  refine .bind (firstArg_raises given) fun _ => .bind (.orRefuse _ _) fun _ => ?_
  refine .ite (.refuse _) ?_
  split
  · exact .pure _
  · exact .pure _
  · exact .refuse _

theorem inRange_raises : Raises classes (inRange receiver args) := by
  refine .bind rangeReceiver_raises ?_
  rintro ⟨a, b, exclusive⟩
  refine .bind (firstArg_raises given) fun v => ?_
  dsimp only
  split
  · exact .pure _
  · exact .refuse _

end Given

end Core

open Folded ScriptFlow.Core in
theorem Primitive.eval_raises {c : ClassTable} {receiver : Value} {args : List Value} (p : Primitive)
    (given : p.takesArg = true → args ≠ []) :
    Raises p.faults (p.eval c receiver args) := by
  cases p with
  | negation | isNil | classOf | itself | emptyArray | isZero => exact .ok _
  | equal | notEqual | numEqual | order =>
    exact .bind (firstArg_raises (given rfl)) fun _ => .pure _
  | isA | instanceOf => exact .bind (moduleArg_raises (given rfl)) fun _ => .pure _
  | caseEqual =>
    exact .bind (.orRefuse _ _) fun _ => .bind (firstArg_raises (given rfl)) fun _ => .pure _
  | toText | inspect => exact .ite (.refuse _) (.ok _)
  | respondTo => exact .bind (nameArg_raises (given rfl) (List.mem_singleton_self _)) fun _ => .pure _
  | moduleName | ancestors | superclass | toFloat => exact .bind (.orRefuse _ _) fun _ => .pure _
  | constGet => exact constGet_raises (given rfl)
  | constDefined => exact constDefined_raises (given rfl)
  | moduleLess => exact moduleLess_raises (given rfl)
  | add | sub | mul => exact arith_raises (given rfl) _ _
  | div => exact divide_raises (given rfl)
  | mod => exact modulo_raises (given rfl)
  | pow => exact power_raises (given rfl)
  | less | lessEq | greater | greaterEq => exact compared_raises (given rfl) _
  | minus =>
    rw [eval, negated]
    split
    · exact fitted_raises _
    · exact .ok _
    · exact .refuse _
  | abs =>
    rw [eval, absolute]
    split
    · exact fitted_raises _
    · exact .ok _
    · exact .refuse _
  | succ =>
    simp only [eval, successor]
    split
    · exact fitted_raises _
    · exact .refuse _
  | toInt => exact toInteger_raises
  | concat => exact concatText_raises (given rfl)
  | repeatText => exact repeatText_raises (given rfl)
  | size =>
    simp only [eval, Core.size]
    split
    all_goals first | exact fitted_raises _ | exact .refuse _
  | toSym | upcase | downcase => exact .bind textReceiver_raises fun _ => .pure _
  | reverse =>
    simp only [eval, reversed]
    split
    all_goals first | exact .ok _ | exact .refuse _
  | isEmpty =>
    simp only [eval, Core.isEmpty]
    split
    all_goals first | exact .ok _ | exact .refuse _
  | index => exact index_raises (given rfl)
  | both => exact .ite (.bind (firstArg_raises (given rfl)) fun _ => .pure _) (.ok _)
  | either => exact .ite (.ok _) (.bind (firstArg_raises (given rfl)) fun _ => .pure _)
  | first | last => exact .bind arrayReceiver_raises fun _ => .pure _
  | includesItem =>
    exact .bind (firstArg_raises (given rfl)) fun _ => .bind arrayReceiver_raises fun _ => .pure _
  | concatArray => exact concatArray_raises (given rfl)
  | repeatArray => exact repeatArray_raises (given rfl)
  | joinText => exact joinText_raises
  | lookup | hasKey =>
    exact .bind (firstArg_raises (given rfl)) fun _ => .bind hashReceiver_raises fun _ => .pure _
  | keys | values => exact .bind hashReceiver_raises fun _ => .pure _
  | rangeFirst | rangeLast => exact .bind rangeReceiver_raises fun _ => .pure _
  | inRange => exact inRange_raises (given rfl)
  | rangeItems => exact rangeItems_raises
  | isLambda =>
    simp only [eval]
    split
    · exact .ok _
    · exact .refuse _

example (c : ClassTable) : Primitive.respondTo.eval c (.int 1) [.int 2] =
    .error (.raised "TypeError" "not a symbol nor a string") := rfl

/-! What is declared. -/

namespace ClassTable

variable {c : ClassTable}

/-- The type of exceptions of the class with this path; one that the table lacks is some
`StandardError`. -/
def faultType (c : ClassTable) (cls : String) : Ty :=
  ((c.paths.get? cls).map Ty.exact).getD (.orBelow standardError)

def declaredRaises : Option (Ty × Frequency) → Ty × Frequency
  | some (_, .never) => (.empty, .never)
  | some (t, f) => (t, f)
  | none => (.orBelow standardError, .maybe)

/-- Whether a declaration covers exceptions of the type. -/
def declares (c : ClassTable) (raises : Option (Ty × Frequency)) (t : Ty) : Bool :=
  (declaredRaises raises).2 ≠ .never && c.isSubtype t (declaredRaises raises).1

theorem exists_of_simulate_raised {id : MethodId} {receiver : Value} {args : List Value} {t : Ty}
    (simulated : c.simulate id receiver args = .raised t) :
    ∃ p cls message, (c.method id).primitive = some p ∧ t = c.faultType cls ∧
      p.eval c receiver args = .error (.raised cls message) := by
  rw [simulate] at simulated
  cases primitive : (c.method id).primitive with
  | none => rw [primitive] at simulated; cases simulated
  | some p =>
    rw [primitive] at simulated
    dsimp only at simulated
    split at simulated
    · cases simulated
    · rename_i cls message raised
      exact ⟨p, cls, message, rfl, (Simulation.raised.inj simulated).symm, raised⟩
    · cases simulated

theorem declaredSummary_raises (id : MethodId) (receiver : Ty) :
    ((c.declaredSummary id receiver).raises, (c.declaredSummary id receiver).frequency) =
      declaredRaises (c.method id).raises := by
  unfold declaredSummary
  dsimp only
  generalize (c.method id).raises = raises
  rcases raises with - | ⟨t, f⟩
  · rfl
  · cases f <;> rfl

/-- Whether a method declares what its primitive raises, except what is let off. -/
def honest (c : ClassTable) (off : List (Primitive × String)) (s : MethodSpec) : Bool :=
  s.primitive.all fun p =>
    (!p.takesArg || !(Arity.ofParams s.params).accepts 0) &&
    p.faults.all fun cls => c.declares s.raises (c.faultType cls) || off.contains (p, cls)

theorem simulate_raised_cases {ms : Core.MethodList} (listed : c.MethodsFrom ms)
    {off : List (Primitive × String)} (all_honest : ∀ e ∈ ms, c.honest off e.2 = true)
    {name : String} {id : MethodId} {receiver : Value} {args : List Value} {t : Ty}
    (dispatched : c.instanceMethod? (c.classOf receiver) name = some id)
    (accepted : (c.method id).arity.accepts args.length = true)
    (simulated : c.simulate id receiver args = .raised t) :
    ((c.declaredSummary id (c.typeOf receiver)).frequency ≠ .never ∧
      c.isSubtype t (c.declaredSummary id (c.typeOf receiver)).raises = true) ∨
    ∃ p cls, (c.method id).primitive = some p ∧ (p, cls) ∈ off ∧ t = c.faultType cls := by
  obtain ⟨p, cls, message, primitive, rfl, raised⟩ := exists_of_simulate_raised simulated
  obtain ⟨before, owner, after, -, found, -⟩ := exists_of_instanceMethod dispatched
  obtain ⟨-, member, -⟩ := listed owner name id found
  have declared := (Option.all_eq_true _ _).mp (all_honest _ member) p primitive
  obtain ⟨takes, covered⟩ := Bool.and_eq_true_iff.mp declared
  have given : p.takesArg = true → args ≠ [] := by
    rintro takesArg rfl
    rw [takesArg, Bool.not_true, Bool.false_or, Bool.not_eq_true'] at takes
    exact absurd (takes.symm.trans accepted) Bool.false_ne_true
  have known := List.all_eq_true.mp covered cls (p.eval_raises given cls message raised)
  rcases Bool.or_eq_true_iff.mp known with declares | silent
  · obtain ⟨frequency, raises⟩ := Bool.and_eq_true_iff.mp declares
    rw [← declaredSummary_raises id (c.typeOf receiver)] at frequency raises
    exact .inl ⟨of_decide_eq_true frequency, raises⟩
  · exact .inr ⟨p, cls, primitive, List.contains_iff_mem.mp silent, rfl⟩

/-! The core table. -/

/-- What core methods raise although they do not declare it: `respond_to?`, `Module#<`,
`const_defined?`, `const_get` and `Array#*` for arguments of a wrong kind, and `Float#to_i` for
numbers that are not finite. -/
def undeclared : List (Primitive × String) :=
  [(.respondTo, "TypeError"), (.moduleLess, "TypeError"), (.constDefined, "TypeError"),
    (.constGet, "TypeError"), (.repeatArray, "TypeError"), (.toInt, "FloatDomainError")]

theorem coreMethods_honest : ∀ e ∈ coreMethods, ClassTable.core.honest undeclared e.2 = true := by
  decide +kernel

/-- An exception that a core method raises on known operands is one that it declares, or one of the
few that are not declared. -/
theorem simulate_raises {name : String} {id : MethodId} {receiver : Value} {args : List Value}
    {t : Ty}
    (dispatched : ClassTable.core.instanceMethod? (ClassTable.core.classOf receiver) name = some id)
    (accepted : (ClassTable.core.method id).arity.accepts args.length = true)
    (simulated : ClassTable.core.simulate id receiver args = .raised t) :
    ((ClassTable.core.declaredSummary id (ClassTable.core.typeOf receiver)).frequency ≠ .never ∧
      ClassTable.core.isSubtype t
        (ClassTable.core.declaredSummary id (ClassTable.core.typeOf receiver)).raises = true) ∨
    ∃ p cls, (ClassTable.core.method id).primitive = some p ∧ (p, cls) ∈ undeclared ∧
      t = ClassTable.core.faultType cls :=
  simulate_raised_cases core_methods.1 coreMethods_honest dispatched accepted simulated

end ClassTable

end ScriptFlow
