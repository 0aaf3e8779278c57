import Mathlib.Data.List.Basic

/-! Computations with a state, run from a given one. -/

namespace ScriptFlow

variable {σ α β γ : Type}

theorem run_bind_of_run {x : StateM σ α} {f : α → StateM σ β} {a b : σ} {y : α}
    (run : x.run a = (y, b)) : (x >>= f).run a = (f y).run b := by
  rw [StateT.run_bind, run]
  rfl

theorem run_get_bind (f : σ → StateM σ β) (a : σ) : (get >>= f).run a = (f a).run a := rfl

theorem run_set_bind (b : σ) (f : PUnit → StateM σ β) (a : σ) :
    (set b >>= f).run a = (f ()).run b := rfl

/-- A fold whose steps look at one answer each asks for all answers first. -/
theorem foldlM_bind_eq_mapM {m : Type → Type} [Monad m] [LawfulMonad m] (f : γ → β → γ)
    (g : α → m β) (xs : List α) (c : γ) :
    xs.foldlM (fun c x => do return f c (← g x)) c = do return (← xs.mapM g).foldl f c := by
  induction xs generalizing c with
  | nil => simp
  | cons x xs ih =>
    simp only [List.foldlM_cons, List.mapM_cons, bind_assoc, pure_bind, ih, List.foldl_cons]

/-! What a computation may do to the state. -/

/-- The state after the computation is related to the one before. -/
def Along (R : σ → σ → Prop) (x : StateM σ α) : Prop := ∀ s, R s (x.run s).2

/-- Doing nothing is allowed, and so is one thing after another. -/
structure Chains (R : σ → σ → Prop) : Prop where
  refl : ∀ s, R s s
  trans : ∀ {s t u}, R s t → R t u → R s u

namespace Along

variable {R : σ → σ → Prop}

theorem pure (chains : Chains R) (y : α) : Along R (Pure.pure y : StateM σ α) :=
  fun s => chains.refl s

theorem bind (chains : Chains R) {x : StateM σ α} {f : α → StateM σ β} (first : Along R x)
    (rest : ∀ y, Along R (f y)) : Along R (x >>= f) :=
  fun s => chains.trans (first s) (rest _ _)

theorem map {x : StateM σ α} (f : α → β) (along : Along R x) : Along R (f <$> x) := along

theorem ite {p : Prop} [Decidable p] {x y : StateM σ α} (yes : p → Along R x)
    (no : ¬p → Along R y) : Along R (if p then x else y) := by
  split
  · exact yes ‹_›
  · exact no ‹_›

theorem foldlM (chains : Chains R) {f : γ → α → StateM σ γ} (step : ∀ c x, Along R (f c x))
    (c : γ) (xs : List α) : Along R (xs.foldlM f c) := by
  induction xs generalizing c with
  | nil => exact pure chains _
  | cons x xs ih =>
    rw [List.foldlM_cons]
    exact bind chains (step c x) fun _ => ih _

theorem forM (chains : Chains R) {f : α → StateM σ PUnit} {xs : List α}
    (step : ∀ x ∈ xs, Along R (f x)) : Along R (xs.forM f) := by
  induction xs with
  | nil => exact pure chains _
  | cons x xs ih =>
    have rest := ih fun y y_in => step y (List.mem_cons_of_mem x y_in)
    exact bind chains (step x List.mem_cons_self) fun _ => rest

end Along

/-! The same for computations that may fail. -/

/-- The state in which a computation ends, by an answer or by an error. -/
def lastState {ε : Type} : EStateM.Result ε σ α → σ
  | .ok _ s => s
  | .error _ s => s

def Through {ε : Type} (R : σ → σ → Prop) (x : EStateM ε σ α) : Prop := ∀ s, R s (lastState (x s))

namespace Through

variable {ε : Type} {R : σ → σ → Prop}

theorem pure (chains : Chains R) (y : α) : Through R (Pure.pure y : EStateM ε σ α) :=
  fun s => chains.refl s

theorem throw (chains : Chains R) (e : ε) : Through R (MonadExcept.throw e : EStateM ε σ α) :=
  fun s => chains.refl s

theorem bind (chains : Chains R) {x : EStateM ε σ α} {f : α → EStateM ε σ β}
    (first : Through R x) (rest : ∀ y, Through R (f y)) : Through R (x >>= f) := by
  intro s
  have first_s := first s
  change R s (lastState (EStateM.bind x f s))
  unfold EStateM.bind
  cases ran : x s with
  | ok y t =>
    rw [ran] at first_s
    exact chains.trans first_s (rest y t)
  | error e t =>
    rw [ran] at first_s
    exact first_s

end Through

end ScriptFlow
