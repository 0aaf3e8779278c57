import ScriptFlow.Proofs.Lowering.Steps
import ScriptFlow.Tree.Build

/-! Target lists may nest to any depth: lowering them does not count against the limit on how deep
expressions nest. -/

namespace ScriptFlow.Lowering

variable {targets : List Tree}

/-- The step ends with a result wherever it is taken. -/
def Succeeds {α : Type} (act : Lower α) : Prop := ∀ c s, ∃ a s', act c s = .ok a s'

namespace Succeeds

variable {α β : Type}

theorem pure (a : α) : Succeeds (Pure.pure a) := fun _ s => ⟨a, s, rfl⟩

theorem after {act : Lower α} {f : α → Lower β} {c : Context} {s s₁ : State} {a : α}
    (run : act c s = .ok a s₁) (rest : Succeeds (f a)) : ∃ b s', (act >>= f) c s = .ok b s' := by
  obtain ⟨b, s', run'⟩ := rest c s₁
  exact ⟨b, s', by simpa [Bind.bind, ReaderT.bind, EStateM.bind, run] using run'⟩

theorem bind {act : Lower α} {f : α → Lower β} (first : Succeeds act)
    (rest : ∀ a, Succeeds (f a)) : Succeeds (act >>= f) := fun c s => by
  obtain ⟨a, s₁, run⟩ := first c s
  exact after run (rest a)

end Succeeds

theorem variableBinding_succeeds (name : String) : Succeeds (variableBinding name) := by
  intro c s
  cases known : s.variableIds.get? name with
  | some v => exact ⟨v, s, run_variableBinding_of_some c known⟩
  | none => exact ⟨_, _, run_variableBinding_of_none c known⟩

/-- A variable or a list of such targets. -/
inductive Pattern : Tree → Prop where
  | name (name : String) : Pattern (.localVar name)
  | list {targets : List Tree} : (∀ t ∈ targets, Pattern t) → Pattern (.targetList targets)

theorem Pattern.isSplat_eq {t : Tree} (pattern : Pattern t) : isSplat t = false := by
  cases pattern <;> rfl

theorem splatPosition_eq (patterns : ∀ t ∈ targets, Pattern t) :
    splatPosition targets = .ok (targets.findIdx? isSplat) := by
  have none : targets.countP isSplat = 0 := List.countP_eq_zero.mpr fun t member => by
    simp [(patterns t member).isSplat_eq]
  exact if_neg (by omega)

theorem checkTargets_succeeds (patterns : ∀ t ∈ targets, Pattern t)
    (array : Operand) : Succeeds (checkTargets targets array) := by
  unfold checkTargets expectSize
  rw [splatPosition_eq patterns]
  split <;> exact fun _ _ => ⟨_, _, rfl⟩

theorem assignLeading_succeeds {walk : Walk} (patterns : ∀ t ∈ targets, Pattern t)
    (each : ∀ t ∈ targets, ∀ value, Succeeds (assignTo walk t value)) (array : Operand) (i : Nat) :
    Succeeds (assignLeading walk array i targets) := by
  induction targets generalizing i with
  | nil => exact .pure ()
  | cons t targets ih =>
    rw [List.forall_mem_cons] at patterns each
    have step : assignLeading walk array i (t :: targets) = (do
        let item ← itemAt array (intConst i)
        assignTo walk t item
        assignLeading walk array (i + 1) targets) := by
      cases patterns.1 <;> rfl
    rw [step]
    refine .bind (fun _ _ => ⟨_, _, rfl⟩) fun item => ?_
    exact (each.1 item).bind fun _ => ih patterns.2 each.2 (i + 1)

theorem writePlace_succeeds (place : Place) (value : Operand) : Succeeds (writePlace place value) := by
  cases place with
  | item receiver args => cases args <;> exact fun _ _ => ⟨_, _, rfl⟩
  | _ => exact fun _ _ => ⟨_, _, rfl⟩

/-- A pattern is assigned to, however deep its lists nest, without lowering any expression. -/
theorem Pattern.assignTo_succeeds {t : Tree} (pattern : Pattern t) (walk : Walk) (value : Operand) :
    Succeeds (assignTo walk t value) := by
  induction pattern generalizing value with
  | name name =>
    have place : Succeeds (evalPlace walk (.localVar name)) :=
      (variableBinding_succeeds name).bind fun v => .pure (Place.variable v)
    exact place.bind fun place => writePlace_succeeds place value
  | list patterns ih =>
    refine .bind (fun _ _ => ⟨_, _, rfl⟩) fun array => ?_
    refine .bind (checkTargets_succeeds patterns array) fun _ => ?_
    exact assignLeading_succeeds patterns ih array 0

/-- Two levels of expressions are enough room for a multiple assignment, however deep its targets
nest. -/
theorem build_patterns {l : Lowering} (room : 2 ≤ l.maxDepth)
    (patterns : ∀ t ∈ targets, Pattern t) (value : Value) (next : Serial) :
    ∃ g next', l.build (.multipleAssign targets (.lit value)) [] next = .ok g next' := by
  obtain ⟨depth, depth_eq⟩ := Nat.exists_eq_add_of_le' room
  have body : Succeeds (walk l.maxDepth l.maxDepth (.multipleAssign targets (.lit value)) true) := by
    have assigned (walk : Walk) (array : Operand) : Succeeds (do
        destructure walk targets array
        return Operand.const value) :=
      .bind (.bind (checkTargets_succeeds patterns array) fun _ => assignLeading_succeeds patterns
        (fun t member => (patterns t member).assignTo_succeeds walk) array 0) fun _ => .pure _
    have unfolded : walk l.maxDepth (depth + 2) (.multipleAssign targets (.lit value)) true = (do
        let _ ← (liftM (splatPosition targets) : Lower (Option Nat))
        let array ← toArray (.const value) "to_ary"
        destructure (walk l.maxDepth (depth + 1)) targets array
        return .const value) := rfl
    nth_rewrite 2 [depth_eq]
    rw [unfolded, splatPosition_eq patterns]
    exact .bind (.pure _) fun _ => .bind (fun _ _ => ⟨_, _, rfl⟩) (assigned _)
  have opened : ∃ a s', prologue (walk l.maxDepth l.maxDepth) (l.start [] next).finalReturn
      (l.start [] next).finalException (l.start [] next).context (l.start [] next).state = .ok a s' := by
    obtain ⟨maxDepth, scope, methodName, isProgram⟩ := l
    cases isProgram <;> exact ⟨_, _, rfl⟩
  have lowered : ∃ a s', lowerWhole (walk l.maxDepth l.maxDepth) (.multipleAssign targets (.lit value))
      (l.start [] next).finalReturn (l.start [] next).finalException (l.start [] next).context
      (l.start [] next).state = .ok a s' := by
    obtain ⟨_, _, run⟩ := opened
    exact Succeeds.after run (body.bind fun value => fun _ _ => ⟨_, _, rfl⟩)
  obtain ⟨a, s', run⟩ := lowered
  exact ⟨tidy s'.graph, s'.nextProc, by simp only [build, run]⟩

end ScriptFlow.Lowering
