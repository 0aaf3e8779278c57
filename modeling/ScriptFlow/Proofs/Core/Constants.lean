import ScriptFlow.Core.Evaluate

/-! Constants by their path. Each name is looked up from the module that the names before it lead to;
a constant that is no module leads nowhere, and the next name is looked up beside it. -/

namespace ScriptFlow.Core

/-- What a path of names comes to, seen from a module. -/
inductive Denotes (c : ClassTable) (v : Value) : ModuleId → List String → Prop where
  | last {m : ModuleId} {name : String} (found : c.constant? m name = some v) : Denotes c v m [name]
  | inside {m k : ModuleId} {name : String} {rest : List String}
    (found : c.constant? m name = some (.moduleRef k)) (more : Denotes c v k rest) :
    Denotes c v m (name :: rest)
  | beside {m : ModuleId} {name : String} {rest : List String} {w : Value}
    (found : c.constant? m name = some w) (plain : w.asModule? = none) (more : Denotes c v m rest) :
    Denotes c v m (name :: rest)

variable {c : ClassTable} {m : ModuleId} {v w arg : Value} {name path : String}
  {names rest : List String}

theorem denotes_cons_iff (found : c.constant? m name = some w) :
    Denotes c v m (name :: rest) ↔ rest = [] ∧ w = v ∨ Denotes c v (w.asModule?.getD m) rest := by
  constructor
  · intro path
    cases path with
    | last other => exact .inl ⟨rfl, Option.some.inj (found.symm.trans other)⟩
    | inside other more =>
      cases found.symm.trans other
      exact .inr more
    | beside other plain more =>
      cases found.symm.trans other
      rw [plain]
      exact .inr more
  · rintro (⟨rfl, rfl⟩ | more)
    · exact .last found
    · cases w with
      | moduleRef k => exact .inside found more
      | _ => exact .beside found rfl more

theorem constantAt_eq_ok_iff {before : Option Value} :
    constantAt c m before names = .ok v ↔ names = [] ∧ before = some v ∨ Denotes c v m names := by
  induction names generalizing m before with
  | nil =>
    have nowhere : ¬Denotes c v m [] := nofun
    cases before <;> simp [constantAt, Folded.orRaise, Folded.raise, nowhere]
  | cons name rest ih =>
    rw [constantAt]
    cases found : c.constant? m name with
    | some w => simp [ih, denotes_cons_iff found]
    | none =>
      have nowhere : ¬Denotes c v m (name :: rest) := by
        intro path
        cases path with
        | last other => cases found.symm.trans other
        | inside other _ => cases found.symm.trans other
        | beside other _ _ => cases found.symm.trans other
      simp [Folded.raise, nowhere]

/-- A module has the constant of a path if the path denotes it, and only then. -/
theorem constGet_eq_ok_iff (named : arg.asName? = some path) (more : List Value) :
    constGet c (.moduleRef m) (arg :: more) = .ok v ↔ Denotes c v m (Text.segments path) := by
  have looked : constGet c (.moduleRef m) (arg :: more) =
      constantAt c m none (Text.segments path) := by
    change (Folded.orRaise arg.asName? _ _ >>= fun name => constantAt c m none (Text.segments name)) = _
    rw [named]
    rfl
  rw [looked, constantAt_eq_ok_iff]
  simp

theorem constDefined_eq_true_iff (named : arg.asName? = some path) (more : List Value) :
    constDefined c (.moduleRef m) (arg :: more) = .ok (.bool true) ↔
      ∃ v, Denotes c v m (Text.segments path) := by
  simp only [← constGet_eq_ok_iff named more, constDefined]
  cases constGet c (.moduleRef m) (arg :: more) with
  | ok v => simp
  | error fault =>
    cases fault with
    | raised cls message =>
      dsimp only
      split <;> simp
    | _ => simp

end ScriptFlow.Core
