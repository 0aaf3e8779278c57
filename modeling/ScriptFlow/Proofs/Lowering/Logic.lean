import ScriptFlow.Lowering.Walk
import ScriptFlow.Proofs.FlowGraph.Growth
import ScriptFlow.Proofs.FlowGraph.WellFormed

/-! What every step of a lowering keeps. A step only adds bindings and blocks, so all that is known
of the numbers of earlier ones holds on. Statements are made for a lower bound `n` of the number of
bindings and a lower bound `m` of the number of blocks. -/

namespace ScriptFlow

variable {m' : Nat}

/-- The number of bindings there have to be for the operand to make sense. -/
@[simp, grind =] def Operand.extent : Operand → Nat
  | .binding v => v + 1
  | .const _ => 0

namespace Lowering

/-- A block that control may be sent to: any but the entry. -/
abbrev Landing (m b : Nat) : Prop := 0 < b ∧ b < m

structure Targets.Fits (n m : Nat) (t : Targets) : Prop where
  breakTo : ∀ b, t.breakTo = some b → Landing m b
  nextTo : ∀ b, t.nextTo = some b → Landing m b
  redoTo : ∀ b, t.redoTo = some b → Landing m b
  returnTo : Landing m t.returnTo
  rescueTo : Landing m t.rescueTo
  yieldFailTo : Landing m t.yieldFailTo
  breakValue : ∀ v : Nat, t.breakValue = some v → v < n
  nextValue : ∀ v : Nat, t.nextValue = some v → v < n

structure Context.Fits (n m : Nat) (c : Context) : Prop where
  self : c.self < n
  block : ∀ v : Nat, c.block = some v → v < n
  exception : c.exception < n
  result : c.result < n
  targets : c.targets.Fits n m

structure State.Sound (s : State) : Prop where
  graph : s.graph.WellFormed
  present : ∀ b, (s.graph.block b).removed = false
  current : Landing s.graph.blocks.size s.current
  names : ∀ e ∈ s.variableIds.entries, e.2 < s.graph.bindings.size

theorem Landing.mono {m b : Nat} (landing : Landing m b) (le : m ≤ m') : Landing m' b :=
  ⟨landing.1, Nat.lt_of_lt_of_le landing.2 le⟩

theorem Targets.Fits.mono {n n' m : Nat} {t : Targets} (fits : t.Fits n m) (hn : n ≤ n')
    (hm : m ≤ m') : t.Fits n' m' where
  breakTo b h := (fits.breakTo b h).mono hm
  nextTo b h := (fits.nextTo b h).mono hm
  redoTo b h := (fits.redoTo b h).mono hm
  returnTo := fits.returnTo.mono hm
  rescueTo := fits.rescueTo.mono hm
  yieldFailTo := fits.yieldFailTo.mono hm
  breakValue v h := Nat.lt_of_lt_of_le (fits.breakValue v h) hn
  nextValue v h := Nat.lt_of_lt_of_le (fits.nextValue v h) hn

theorem Context.Fits.mono {n n' m : Nat} {c : Context} (fits : c.Fits n m) (hn : n ≤ n')
    (hm : m ≤ m') : c.Fits n' m' where
  self := Nat.lt_of_lt_of_le fits.self hn
  block v h := Nat.lt_of_lt_of_le (fits.block v h) hn
  exception := Nat.lt_of_lt_of_le fits.exception hn
  result := Nat.lt_of_lt_of_le fits.result hn
  targets := fits.targets.mono hn hm

/-- A sequence succeeds when both steps do. -/
theorem run_bind {α β : Type} {act : Lower α} {f : α → Lower β} {c : Context} {s s' : State} {b : β}
    (run : (act >>= f) c s = .ok b s') : ∃ a s₁, act c s = .ok a s₁ ∧ f a c s₁ = .ok b s' := by
  cases first : act c s with
  | ok a s₁ => exact ⟨a, s₁, rfl, by simpa [Bind.bind, ReaderT.bind, EStateM.bind, first] using run⟩
  | error e s₁ => simp [Bind.bind, ReaderT.bind, EStateM.bind, first] at run

theorem run_read {β : Type} {f : Context → Lower β} {c : Context} {s s' : State} {b : β}
    (run : (MonadReader.read >>= f) c s = .ok b s') : f c c s = .ok b s' := run

theorem run_get {β : Type} (f : State → Lower β) (c : Context) (s : State) :
    ((get : Lower State) >>= f) c s = f s c s := rfl

/-- The graph has grown, and names stand for the bindings they stood for. -/
structure State.Before (s s' : State) : Prop where
  graph : s.graph.Before s'.graph
  names : ∀ name v, s.variableIds.get? name = some v → s'.variableIds.get? name = some v

theorem State.Before.refl (s : State) : s.Before s := ⟨.refl _, fun _ _ known => known⟩

theorem State.Before.trans {s s' s'' : State} (first : s.Before s') (second : s'.Before s'') :
    s.Before s'' :=
  ⟨first.graph.trans second.graph, fun name v known => second.names name v (first.names name v known)⟩

/-- From a sound state with at least `n` bindings and `m` blocks, the step ends in a sound state that
has grown, and the result satisfies `Q` at the size of that state. -/
def Keeps {α : Type} (n m : Nat) (act : Lower α) (Q : Nat → Nat → α → Prop) : Prop :=
  ∀ (c : Context) (s : State), s.Sound → c.Fits s.graph.bindings.size s.graph.blocks.size →
    n ≤ s.graph.bindings.size → m ≤ s.graph.blocks.size →
    ∀ (a : α) (s' : State), act c s = .ok a s' →
      s'.Sound ∧ s.Before s' ∧ Q s'.graph.bindings.size s'.graph.blocks.size a

/-- Nothing is said of the result. -/
abbrev Any {α : Type} : Nat → Nat → α → Prop := fun _ _ _ => True

abbrev Usable : Nat → Nat → Operand → Prop := fun n _ o => o.extent ≤ n

abbrev Known : Nat → Nat → Nat → Prop := fun n _ v => v < n

/-- The result is a block that control may be sent to. -/
abbrev Open : Nat → Nat → Nat → Prop := fun _ m b => Landing m b

namespace Keeps

variable {α β : Type} {n m : Nat}

theorem pure {a : α} {Q : Nat → Nat → α → Prop} (holds : ∀ n' m', n ≤ n' → m ≤ m' → Q n' m' a) :
    Keeps n m (Pure.pure a) Q := by
  intro c s sound _ hn hm b s' run
  cases run
  exact ⟨sound, .refl s, holds _ _ hn hm⟩

theorem bind {act : Lower α} {f : α → Lower β} {Q : Nat → Nat → α → Prop}
    {R : Nat → Nat → β → Prop} (first : Keeps n m act Q)
    (second : ∀ n' m' a, n ≤ n' → m ≤ m' → Q n' m' a → Keeps n' m' (f a) R) :
    Keeps n m (act >>= f) R := by
  intro c s sound fits hn hm b s' run
  obtain ⟨a, s₁, first_run, run⟩ := run_bind run
  obtain ⟨sound₁, grown₁, post⟩ := first c s sound fits hn hm a s₁ first_run
  obtain ⟨sound', grown, post'⟩ :=
    second _ _ a (Nat.le_trans hn grown₁.graph.bindings) (Nat.le_trans hm grown₁.graph.blocks) post
      c s₁ sound₁ (fits.mono grown₁.graph.bindings grown₁.graph.blocks) (Nat.le_refl _)
      (Nat.le_refl _) b s' run
  exact ⟨sound', grown₁.trans grown, post'⟩

theorem weaken {act : Lower α} {Q R : Nat → Nat → α → Prop} (keeps : Keeps n m act Q)
    (weaker : ∀ n' m' a, n ≤ n' → m ≤ m' → Q n' m' a → R n' m' a) : Keeps n m act R := by
  intro c s sound fits hn hm a s' run
  obtain ⟨sound', grown, post⟩ := keeps c s sound fits hn hm a s' run
  exact ⟨sound', grown, weaker _ _ a (Nat.le_trans hn grown.graph.bindings)
    (Nat.le_trans hm grown.graph.blocks) post⟩

theorem any {act : Lower α} {Q : Nat → Nat → α → Prop} (keeps : Keeps n m act Q) :
    Keeps n m act Any :=
  keeps.weaken fun _ _ _ _ _ _ => trivial

theorem mono {n' : Nat} {act : Lower α} {Q : Nat → Nat → α → Prop} (keeps : Keeps n m act Q)
    (hn : n ≤ n') (hm : m ≤ m') : Keeps n' m' act Q :=
  fun c s sound fits hn' hm' => keeps c s sound fits (Nat.le_trans hn hn') (Nat.le_trans hm hm')

theorem map {act : Lower α} {f : α → β} {Q : Nat → Nat → α → Prop} {R : Nat → Nat → β → Prop}
    (keeps : Keeps n m act Q) (post : ∀ n' m' a, n ≤ n' → m ≤ m' → Q n' m' a → R n' m' (f a)) :
    Keeps n m (f <$> act) R := by
  rw [map_eq_pure_bind]
  intro c s sound fits hn hm b s' run
  cases act_run : act c s with
  | ok a s₁ =>
    obtain ⟨sound₁, grown, q⟩ := keeps c s sound fits hn hm a s₁ act_run
    simp [Bind.bind, ReaderT.bind, EStateM.bind, act_run] at run
    cases run
    exact ⟨sound₁, grown, post _ _ a (Nat.le_trans hn grown.graph.bindings)
      (Nat.le_trans hm grown.graph.blocks) q⟩
  | error e s₁ => simp [Bind.bind, ReaderT.bind, EStateM.bind, act_run] at run

/-- A step whose result is not used. -/
theorem seq {act : Lower α} {rest : Lower β} {Q : Nat → Nat → α → Prop} {R : Nat → Nat → β → Prop}
    (first : Keeps n m act Q) (second : Keeps n m rest R) : Keeps n m (act >>= fun _ => rest) R :=
  first.bind fun _ _ _ hn hm _ => second.mono hn hm

theorem throw {e : Error} {Q : Nat → Nat → α → Prop} : Keeps n m (MonadExcept.throw e) Q := by
  intro c s _ _ _ _ a s' run
  cases run

/-- A fault of the tree ends the lowering. -/
theorem check {x : Except Error α} {f : α → Lower β} {R : Nat → Nat → β → Prop}
    (rest : ∀ a, Keeps n m (f a) R) : Keeps n m ((liftM x : Lower α) >>= f) R := by
  have checked : Keeps n m (liftM x : Lower α) fun _ _ _ => True := by
    cases x with
    | error e => exact throw
    | ok a => exact pure fun _ _ _ _ => trivial
  exact checked.bind fun _ _ a hn hm _ => (rest a).mono hn hm

theorem read : Keeps n m (MonadReader.read : Lower Context) fun n m c => c.Fits n m := by
  intro c s sound fits _ _ a s' run
  cases run
  exact ⟨sound, .refl s, fits⟩

theorem updateGet {f : State → α × State} {Q : Nat → Nat → α → Prop}
    (step : ∀ s : State, s.Sound → n ≤ s.graph.bindings.size → m ≤ s.graph.blocks.size →
      (f s).2.Sound ∧ s.Before (f s).2 ∧
        Q (f s).2.graph.bindings.size (f s).2.graph.blocks.size (f s).1) :
    Keeps n m (modifyGet f : Lower α) Q := by
  intro c s sound _ hn hm a s' run
  cases run
  exact step s sound hn hm

theorem update {f : State → State}
    (step : ∀ s : State, s.Sound → n ≤ s.graph.bindings.size → m ≤ s.graph.blocks.size →
      (f s).Sound ∧ s.Before (f s)) :
    Keeps n m (modify f : Lower PUnit) Any :=
  updateGet fun s sound hn hm =>
    have ⟨sound', grown⟩ := step s sound hn hm
    ⟨sound', grown, trivial⟩

theorem get : Keeps n m (MonadState.get : Lower State)
    fun n _ s => ∀ e ∈ s.variableIds.entries, e.2 < n := by
  intro c s sound _ _ _ a s' run
  cases run
  exact ⟨sound, .refl s, sound.names⟩

theorem withTargets {act : Lower α} {targets : Targets} {Q : Nat → Nat → α → Prop}
    (fits : targets.Fits n m) (keeps : Keeps n m act Q) :
    Keeps n m (Lowering.withTargets targets act) Q := by
  intro c s sound c_fits hn hm
  exact keeps { c with targets } s sound
    ⟨c_fits.self, c_fits.block, c_fits.exception, c_fits.result, fits.mono hn hm⟩ hn hm

theorem mapM {f : α → Lower β} {Q : Nat → Nat → β → Prop} {l : List α}
    (mono : ∀ n n' m m' b, n ≤ n' → m ≤ m' → Q n m b → Q n' m' b)
    (step : ∀ a ∈ l, Keeps n m (f a) Q) : Keeps n m (l.mapM f) fun n m bs => ∀ b ∈ bs, Q n m b := by
  induction l generalizing n m with
  | nil => exact pure (by simp)
  | cons a l ih =>
    rw [List.mapM_cons]
    refine (step a (by simp)).bind fun n₁ m₁ b hn hm holds => ?_
    refine (ih fun a mem => (step a (by simp [mem])).mono hn hm).bind fun n₂ m₂ bs hn₂ hm₂ rest => ?_
    refine pure fun n₃ m₃ hn₃ hm₃ c mem => ?_
    rcases List.mem_cons.mp mem with rfl | mem
    · exact mono _ _ _ _ _ (Nat.le_trans hn₂ hn₃) (Nat.le_trans hm₂ hm₃) holds
    · exact mono _ _ _ _ _ hn₃ hm₃ (rest c mem)

theorem forM {f : α → Lower PUnit} {l : List α} (step : ∀ a ∈ l, Keeps n m (f a) Any) :
    Keeps n m (l.forM f) Any := by
  induction l with
  | nil => exact pure fun _ _ _ _ => trivial
  | cons a l ih =>
    change Keeps n m (f a >>= fun _ => l.forM f) Any
    exact (step a (by simp)).seq (ih fun b mem => step b (by simp [mem]))

theorem foldlM {f : β → α → Lower β} {Q : Nat → Nat → β → Prop} {l : List α} {b : β}
    (mono : ∀ n n' m m' b, n ≤ n' → m ≤ m' → Q n m b → Q n' m' b) (start : Q n m b)
    (step : ∀ n' m' b, n ≤ n' → m ≤ m' → Q n' m' b → ∀ a ∈ l, Keeps n' m' (f b a) Q) :
    Keeps n m (l.foldlM f b) Q := by
  induction l generalizing n m b with
  | nil => exact pure fun n' m' hn hm => mono _ _ _ _ _ hn hm start
  | cons a l ih =>
    rw [List.foldlM_cons]
    refine (step n m b (Nat.le_refl _) (Nat.le_refl _) start a (by simp)).bind
      fun n' m' b' hn hm holds => ih holds fun n'' m'' b hn' hm' holds a mem => ?_
    exact step n'' m'' b (Nat.le_trans hn hn') (Nat.le_trans hm hm') holds a (by simp [mem])

end Keeps

/-- Lowering a node keeps the state sound and gives an operand that makes sense. -/
class WalkKeeps (walk : Walk) : Prop where
  keeps : ∀ n m t want, Keeps n m (walk t want) Usable

theorem walked_keeps {walk : Walk} [walks : WalkKeeps walk] {n m : Nat} {t : Tree} {want : Bool} :
    Keeps n m (walk t want) Usable :=
  walks.keeps n m t want

end Lowering

end ScriptFlow
