import ScriptFlow.Proofs.Lowering.Held

/-! Blocks that call a watched method are followed by blocks that call a second one. While a body
is lowered, this holds for the blocks that are sealed. -/

namespace ScriptFlow

variable {site : CallSite}

/-- Some instruction of the block calls the method. -/
def FlowGraph.Calls (g : FlowGraph) (b : Nat) (method : String) : Prop :=
  ∃ site : CallSite, .call site ∈ g.code b ∧ site.method = method

instance (g : FlowGraph) (b : Nat) (method : String) : Decidable (g.Calls b method) :=
  decidable_of_iff (∃ x ∈ g.code b, ∃ site ∈ x.site?, site.method = method) <| by
    constructor
    · rintro ⟨x, member, site, is, named⟩
      cases x <;> cases is
      exact ⟨site, member, named⟩
    · rintro ⟨site, member, named⟩
      exact ⟨.call site, member, site, rfl, named⟩

namespace Lowering

section

variable {g h : FlowGraph} {b : Nat} {method : String}

theorem calls_congr (code : h.code b = g.code b) : h.Calls b method ↔ g.Calls b method := by
  unfold FlowGraph.Calls
  rw [code]

theorem not_calls_outside (outside : g.blocks.size ≤ b) : ¬g.Calls b method := by
  rintro ⟨site, member, _⟩
  rw [g.code_outside outside] at member
  cases member

theorem inside_of_calls (calls : g.Calls b method) : b < g.blocks.size :=
  Nat.lt_of_not_le fun outside => not_calls_outside outside calls

theorem calls_pushInstr (placed : g.Placed) (inside : b < g.blocks.size) (x : Instr) (c : Nat) :
    (g.pushInstr b x).Calls c method ↔
      g.Calls c method ∨ b = c ∧ ∃ site, x.site? = some site ∧ site.method = method := by
  unfold FlowGraph.Calls
  rw [FlowGraph.code_pushInstr placed]
  by_cases here : b = c
  · subst here
    have called : (∃ site, x = .call site ∧ site.method = method) ↔
        ∃ site, x.site? = some site ∧ site.method = method := by
      cases x <;> simp [Instr.site?]
    simp only [inside, and_self, if_true, List.mem_append, List.mem_singleton, or_and_right,
      exists_or, true_and]
    rw [← called]
    simp only [eq_comm]
  · simp [here]

end

/-! Steps. -/

/-- What lowering may do to a graph and its stubs. Sealed blocks stay as they are, and the watched
method is not called. -/
structure Advance (method cleanup : String) (L : Set Nat) (g h : FlowGraph) (O O' : List Stub) :
    Prop where
  size : g.blocks.size ≤ h.blocks.size
  succs : ∀ b < g.blocks.size, (∀ x ∈ O, x.block ≠ b) → (h.block b).succs = (g.block b).succs
  sealed : ∀ b < g.blocks.size, (∀ x ∈ O, x.block ≠ b) → ∀ x ∈ O', x.block ≠ b
  kept : ∀ b, g.Calls b cleanup → h.Calls b cleanup
  quiet : ∀ b, h.Calls b method → g.Calls b method
  edges : ∀ b, ∀ t ∈ h.succIds b, t ∈ g.succIds b ∨ t ∈ L
  opened : ∀ b es, .code b none es ∈ O' → (∃ es, .code b none es ∈ O) ∨ g.blocks.size ≤ b

namespace Advance

variable {method cleanup : String} {L : Set Nat} {g h : FlowGraph} {O O' : List Stub} {b : Nat}
  {x y : Stub}

theorem of_subset (sub : O' ⊆ O) : Advance method cleanup L g g O O' where
  size := Nat.le_refl _
  succs _ _ _ := rfl
  sealed _ _ sealed x member := sealed x (sub member)
  kept _ calls := calls
  quiet _ calls := calls
  edges _ _ edge := .inl edge
  opened _ es member := .inl ⟨es, sub member⟩

theorem same (blocks : h.blocks = g.blocks) (instrs : h.instrs = g.instrs) :
    Advance method cleanup L g h O O where
  size := by rw [blocks]
  succs b _ _ := by rw [FlowGraph.block_congr blocks]
  sealed _ _ sealed := sealed
  kept b := (calls_congr (FlowGraph.code_congr blocks instrs b)).mpr
  quiet b := (calls_congr (FlowGraph.code_congr blocks instrs b)).mp
  edges b t edge := by
    rw [FlowGraph.succIds, FlowGraph.block_congr blocks] at edge
    exact .inl edge
  opened _ es member := .inl ⟨es, member⟩

theorem pushBlock (name : String) (new : ∀ x ∈ O', x ∈ O ∨ x.block = g.blocks.size) :
    Advance method cleanup L g (g.pushBlock name).2 O O' where
  size := by simp
  succs b _ _ := g.succs_pushBlock name b
  sealed b inside sealed x member := by
    rcases new x member with old | last
    · exact sealed x old
    · rw [last]
      exact Nat.ne_of_gt inside
  kept b := (calls_congr (g.code_pushBlock name b)).mpr
  quiet b := (calls_congr (g.code_pushBlock name b)).mp
  edges b t edge := by
    rw [FlowGraph.succIds, FlowGraph.succs_pushBlock] at edge
    exact .inl edge
  opened b es member := by
    rcases new _ member with old | last
    · exact .inl ⟨es, old⟩
    · exact .inr (Nat.le_of_eq last.symm)

theorem pushInstr {i : Instr} (holding : Holding g (.opened b :: O)) (here : y.block = b)
    (other : ∀ site, i.site? = some site → site.method ≠ method) :
    Advance method cleanup L g (g.pushInstr b i) (.opened b :: O) (y :: O) := by
  have inside : b < g.blocks.size := (holding.held (.opened b) (by simp)).inside
  exact
    { size := by simp
      succs := fun c _ _ => by simp
      sealed := fun c _ sealed x member => by
        rcases List.mem_cons.mp member with rfl | member
        · rw [here]
          exact sealed (.opened b) (by simp)
        · exact sealed x (by simp [member])
      kept := fun c calls => (calls_pushInstr holding.placed inside i c).mpr (.inl calls)
      quiet := fun c calls => by
        rcases (calls_pushInstr holding.placed inside i c).mp calls with old | ⟨_, site, is, named⟩
        · exact old
        · exact absurd named (other site is)
      edges := fun c t edge => .inl (by simpa [FlowGraph.succIds] using edge)
      opened := fun c es member => by
        rcases List.mem_cons.mp member with rfl | member
        · cases here
          exact .inl ⟨[], by simp⟩
        · exact .inl ⟨es, by simp [member]⟩ }

theorem link (holding : Holding g (x :: O)) {t : Nat} (f : EdgeFlags) (landing : t ∈ L) :
    Advance method cleanup L g (g.addEdge x.block t f) (x :: O) (x.link t f :: O) := by
  have inside : x.block < g.blocks.size := (holding.held x (by simp)).inside
  exact
    { size := by simp
      succs := fun c _ sealed => by
        rw [FlowGraph.succs_addEdge g inside, if_neg (sealed x (by simp))]
      sealed := fun c _ sealed y member => by
        rcases List.mem_cons.mp member with rfl | member
        · rw [Stub.block_link]
          exact sealed x (by simp)
        · exact sealed y (by simp [member])
      kept := fun c => (calls_congr (g.code_addEdge x.block t c f)).mpr
      quiet := fun c => (calls_congr (g.code_addEdge x.block t c f)).mp
      edges := fun c u edge => by
        rw [FlowGraph.succIds, FlowGraph.succs_addEdge g inside] at edge
        split at edge
        · rename_i here
          rcases mem_link edge with old | rfl
          · exact .inl (here ▸ old)
          · exact .inr landing
        · exact .inl edge
      opened := fun c es member => by
        rcases List.mem_cons.mp member with same | member
        · cases x with
          | code b last es' =>
            cases same
            exact .inl ⟨es', by simp⟩
          | exit b es' => cases same
        · exact .inl ⟨es, by simp [member]⟩ }

end Advance

/-- A property of landing blocks, graphs and stubs that the steps keep. -/
structure Steady (method cleanup : String) (X : Set Nat → FlowGraph → List Stub → Prop) : Prop where
  inside {L : Set Nat} {g : FlowGraph} {O : List Stub} {t : Nat} : X L g O → t ∈ L →
    t < g.blocks.size
  mono {L L' : Set Nat} {g : FlowGraph} {O : List Stub} : X L g O → L' ⊆ L → X L' g O
  advance {L : Set Nat} {g h : FlowGraph} {O O' : List Stub} : X L g O →
    Advance method cleanup L g h O O' → X L h O'
  grow {L : Set Nat} {g h : FlowGraph} {O O' : List Stub} : X L g O → X L h O' →
    g.blocks.size < h.blocks.size → X (insert g.blocks.size L) h O'

/-- A lowering that does not call the watched method keeps the property. -/
def watching (methodName : Option String) (method : String)
    (X : Set Nat → FlowGraph → List Stub → Prop) : Policy where
  methodName := methodName
  calls name := name ≠ method
  invariant L g O := Holding g O ∧ X L g O

theorem watching_stable {method cleanup : String} {X : Set Nat → FlowGraph → List Stub → Prop}
    (steady : Steady method cleanup X) (unemitted : method ∉ builtinCalls)
    (methodName : Option String) : (watching methodName method X).Stable where
  builtin name member same := unemitted (same ▸ member)
  inside inv := steady.inside inv.2
  mono inv le := ⟨inv.1, steady.mono inv.2 le⟩
  perm inv moved := ⟨inv.1.perm moved, steady.advance inv.2 (.of_subset moved.symm.subset)⟩
  same inv blocks instrs := ⟨inv.1.same blocks instrs, steady.advance inv.2 (.same blocks instrs)⟩
  pushBlock name inv := by
    refine ⟨inv.1.pushNew name (Holding.held_opened_pushBlock _ name) rfl, ?_⟩
    refine steady.grow inv.2 (steady.advance inv.2 (.pushBlock name fun x member => ?_)) (by simp)
    exact (List.mem_cons.mp member).symm.imp id fun same => by rw [same]; rfl
  pushExit name inv := by
    refine ⟨inv.1.pushNew _ (Holding.held_exit_pushBlock _ name) rfl, ?_⟩
    refine steady.grow inv.2 (steady.advance inv.2 (.pushBlock _ fun x member => ?_)) (by simp)
    exact (List.mem_cons.mp member).symm.imp id fun same => by rw [same]; rfl
  waste name inv :=
    ⟨inv.1.pushBlock name, steady.advance inv.2 (.pushBlock name fun _ member => .inl member)⟩
  emit stays other inv := ⟨inv.1.emit stays, steady.advance inv.2 (.pushInstr inv.1 rfl other)⟩
  finish _ other inv := ⟨inv.1.finish, steady.advance inv.2 (.pushInstr inv.1 rfl other)⟩
  link f landing inv := ⟨inv.1.link _ f, steady.advance inv.2 (.link inv.1 f landing)⟩
  close _ inv := ⟨inv.1.tail, steady.advance inv.2 (.of_subset (List.subset_cons_self _ _))⟩

/-! Regions. -/

/-- The block is sealed. It leads only to blocks of a region and to blocks that call the method. -/
structure Passed (cleanup : String) (region : Set Nat) (g : FlowGraph) (O : List Stub) (b : Nat) :
    Prop where
  inside : b < g.blocks.size
  sealed : ∀ x ∈ O, x.block ≠ b
  onward : ∀ t ∈ g.succIds b, t ∈ region ∨ g.Calls t cleanup

/-- There is a region for all blocks that call the watched method, but for some. In the region the
method is not called. -/
def Covered (method cleanup : String) (exempt : Set Nat) (g : FlowGraph) (O : List Stub) : Prop :=
  ∃ region : Set Nat,
    (∀ b ∈ region, Passed cleanup region g O b ∧ ¬g.Calls b method) ∧
      ∀ b, g.Calls b method → b ∉ exempt → Passed cleanup region g O b

section

variable {method cleanup : String} {L region region' exempt : Set Nat} {g h : FlowGraph}
  {O O' : List Stub} {b : Nat}

theorem Passed.mono (passed : Passed cleanup region g O b) (le : region ⊆ region') :
    Passed cleanup region' g O b :=
  { passed with onward := fun t edge => (passed.onward t edge).imp_left fun member => le member }

theorem Passed.advance (passed : Passed cleanup region g O b)
    (step : Advance method cleanup L g h O O') : Passed cleanup region h O' b where
  inside := Nat.lt_of_lt_of_le passed.inside step.size
  sealed := step.sealed b passed.inside passed.sealed
  onward t edge := by
    rw [FlowGraph.succIds, step.succs b passed.inside passed.sealed] at edge
    exact (passed.onward t edge).imp_right (step.kept t)

theorem Covered.advance (covered : Covered method cleanup exempt g O)
    (step : Advance method cleanup L g h O O') : Covered method cleanup exempt h O' := by
  obtain ⟨region, inner, callers⟩ := covered
  refine ⟨region, fun b member => ?_, fun b calls other => ?_⟩
  · exact ⟨(inner b member).1.advance step, fun calls => (inner b member).2 (step.quiet b calls)⟩
  · exact (callers b (step.quiet b calls) other).advance step

end

/-- All calls of the watched method are covered. The blocks of a set call the other method. -/
structure Watched (method cleanup : String) (copies L : Set Nat) (g : FlowGraph) (O : List Stub) :
    Prop where
  inside : ∀ t ∈ L, t < g.blocks.size
  cleaned : ∀ t ∈ copies, g.Calls t cleanup
  covered : Covered method cleanup ∅ g O

theorem watched_steady (method cleanup : String) (copies : Set Nat) :
    Steady method cleanup (Watched method cleanup copies) where
  inside watched landing := watched.inside _ landing
  mono watched le := { watched with inside := fun t landing => watched.inside t (le landing) }
  advance watched step :=
    { inside := fun t landing => Nat.lt_of_lt_of_le (watched.inside t landing) step.size
      cleaned := fun t member => step.kept t (watched.cleaned t member)
      covered := watched.covered.advance step }
  grow watched later new :=
    { later with
      inside := by
        rintro t (rfl | landing)
        · exact new
        · exact later.inside t landing }

/-- The method is being called in the block `entry`. From there control stays among the blocks made
since there were `size`, until it comes to a copy of the cleanup. -/
structure Confined (method cleanup : String) (entry size : Nat) (copies L : Set Nat) (g : FlowGraph)
    (O : List Stub) : Prop where
  low : entry < size
  grown : size ≤ g.blocks.size
  landings : ∀ t ∈ L, t < g.blocks.size ∧ (t ∈ copies ∨ size ≤ t)
  cleaned : ∀ t ∈ copies, g.Calls t cleanup
  covered : Covered method cleanup {entry} g O
  edges : ∀ b, b = entry ∨ size ≤ b → ∀ t ∈ g.succIds b,
    t < g.blocks.size ∧ (t ∈ copies ∨ size ≤ t)
  quiet : ∀ b, size ≤ b → ¬g.Calls b method
  left : g.Calls entry method → ∀ es, .code entry none es ∉ O

theorem confined_steady (method cleanup : String) (entry size : Nat) (copies : Set Nat) :
    Steady method cleanup (Confined method cleanup entry size copies) where
  inside confined landing := (confined.landings _ landing).1
  mono confined le :=
    { confined with landings := fun t landing => confined.landings t (le landing) }
  advance {L g h O O'} confined step :=
    have landings (t : Nat) (there : t < g.blocks.size ∧ (t ∈ copies ∨ size ≤ t)) :
        t < h.blocks.size ∧ (t ∈ copies ∨ size ≤ t) :=
      ⟨Nat.lt_of_lt_of_le there.1 step.size, there.2⟩
    { low := confined.low
      grown := Nat.le_trans confined.grown step.size
      landings := fun t landing => landings t (confined.landings t landing)
      cleaned := fun t member => step.kept t (confined.cleaned t member)
      covered := confined.covered.advance step
      edges := fun b here t edge => by
        rcases step.edges b t edge with old | landing
        · exact landings t (confined.edges b here t old)
        · exact landings t (confined.landings t landing)
      quiet := fun b late calls => confined.quiet b late (step.quiet b calls)
      left := fun calls es member => by
        rcases step.opened entry es member with ⟨es, old⟩ | new
        · exact confined.left (step.quiet entry calls) es old
        · exact Nat.not_le_of_lt (Nat.lt_of_lt_of_le confined.low confined.grown) new }
  grow confined later new :=
    { later with
      landings := by
        rintro t (rfl | landing)
        · exact ⟨new, .inr confined.grown⟩
        · exact later.landings t landing }

/-! Going into such a region and coming out of it. -/

section

variable {method cleanup : String} {copies L : Set Nat} {g : FlowGraph} {O : List Stub} {b : Nat}

theorem Watched.confine (holding : Holding g (.opened b :: O))
    (watched : Watched method cleanup copies L g (.opened b :: O)) :
    Confined method cleanup b g.blocks.size copies copies g (.opened b :: O) := by
  have held := holding.held (.opened b) (by simp)
  obtain ⟨region, inner, callers⟩ := watched.covered
  exact
    { low := held.inside
      grown := Nat.le_refl _
      landings := fun t member => ⟨inside_of_calls (watched.cleaned t member), .inl member⟩
      cleaned := watched.cleaned
      covered := ⟨region, inner, fun c calls _ => callers c calls (by simp)⟩
      edges := by
        rintro c (rfl | outside) t edge
        · rw [FlowGraph.succIds, held.2.1] at edge
          cases edge
        · rw [FlowGraph.succIds, g.succs_outside outside] at edge
          cases edge
      quiet := fun c outside => not_calls_outside outside
      left := fun calls => absurd rfl ((callers b calls (by simp)).sealed (.opened b) (by simp)) }

theorem advance_call (holding : Holding g (.opened b :: O)) (other : site.method ≠ method) :
    Advance method cleanup L g (g.pushInstr b (.call site)) (.opened b :: O)
      (.code b (some (.call site)) [] :: O) := by
  refine .pushInstr holding rfl fun site' is => ?_
  cases is
  exact other

theorem calls_pushCall (holding : Holding g (.opened b :: O)) :
    (g.pushInstr b (.call site)).Calls b site.method :=
  (calls_pushInstr holding.placed (holding.held (.opened b) (by simp)).inside _ b).mpr
    (.inr ⟨rfl, site, rfl, rfl⟩)

theorem Watched.clean (holding : Holding g (.opened b :: O))
    (watched : Watched method cleanup copies L g (.opened b :: O)) (named : site.method = cleanup)
    (other : cleanup ≠ method) :
    Watched method cleanup (insert b copies) L (g.pushInstr b (.call site))
      (.code b (some (.call site)) [] :: O) := by
  subst named
  have later := (watched_steady method site.method copies).advance watched (advance_call holding other)
  refine { later with cleaned := ?_ }
  rintro t (rfl | member)
  · exact calls_pushCall holding
  · exact later.cleaned t member

theorem Confined.call {entry size : Nat} (holding : Holding g (.opened entry :: O))
    (confined : Confined method cleanup entry size copies L g (.opened entry :: O)) :
    Confined method cleanup entry size copies L (g.pushInstr entry (.call site))
      (.code entry (some (.call site)) [] :: O) := by
  have inside : entry < g.blocks.size := Nat.lt_of_lt_of_le confined.low confined.grown
  have calls {name : String} (c : Nat) := @calls_pushInstr g entry name holding.placed inside
    (.call site) c
  have old {c : Nat} (later : c ≠ entry) {name : String} :
      (g.pushInstr entry (.call site)).Calls c name → g.Calls c name := fun now =>
    ((calls c).mp now).resolve_right fun here => later here.1.symm
  obtain ⟨region, inner, callers⟩ := confined.covered
  have passed {c : Nat} (passed : Passed cleanup region g (.opened entry :: O) c) :
      Passed cleanup region (g.pushInstr entry (.call site)) (.code entry (some (.call site)) [] :: O)
        c := by
    refine ⟨by simpa using passed.inside, fun x member => ?_, fun t edge => ?_⟩
    · rcases List.mem_cons.mp member with rfl | member
      · exact passed.sealed (.opened entry) (by simp)
      · exact passed.sealed x (by simp [member])
    · rw [FlowGraph.succIds, FlowGraph.succs_pushInstr] at edge
      exact (passed.onward t edge).imp_right fun before => (calls t).mpr (.inl before)
  exact
    { low := confined.low
      grown := by simpa using confined.grown
      landings := by simpa using confined.landings
      cleaned := fun t member => (calls t).mpr (.inl (confined.cleaned t member))
      covered := by
        refine ⟨region, fun c member => ⟨passed (inner c member).1, fun now => ?_⟩, ?_⟩
        · have later : c ≠ entry := fun same =>
            (inner c member).1.sealed (.opened entry) (by simp) same.symm
          exact (inner c member).2 (old later now)
        · exact fun c now later => passed (callers c (old later now) later)
      edges := by simpa [FlowGraph.succIds] using confined.edges
      quiet := fun c late now =>
        confined.quiet c late (old (Nat.ne_of_gt (Nat.lt_of_lt_of_le confined.low late)) now)
      left := fun _ es member => by
        rcases List.mem_cons.mp member with same | member
        · cases same
        · exact holding.apart _ member rfl }

/-- The cleanup is called where control comes out. -/
theorem Confined.release {entry size : Nat} {L' : Set Nat} (holding : Holding g (.opened b :: O))
    (confined : Confined method cleanup entry size copies L g (.opened b :: O))
    (named : site.method = cleanup) (other : cleanup ≠ method) (outer : ∀ t ∈ L', t < size)
    (earlier : ∀ x ∈ O, x.block < size ∧ x.block ≠ entry) :
    Watched method cleanup copies L' (g.pushInstr b (.call site))
      (.code b (some (.call site)) [] :: O) := by
  subst named
  have step : Advance method site.method L g (g.pushInstr b (.call site)) _ _ :=
    advance_call holding other
  have away : (g.pushInstr b (.call site)).Calls entry method → b ≠ entry := by
    rintro now rfl
    exact confined.left (step.quiet b now) [] (by simp)
  have later := (confined_steady method site.method entry size copies).advance confined step
  have cleaned : (g.pushInstr b (.call site)).Calls b site.method := calls_pushCall holding
  generalize g.pushInstr b (.call site) = h at later cleaned away
  obtain ⟨region, inner, callers⟩ := later.covered
  -- the blocks made since belong to the region now, but for the one where control comes out
  let region' : Set Nat := region ∪ {c | size ≤ c ∧ c < h.blocks.size ∧ c ≠ b}
  have le : region ⊆ region' := Set.subset_union_left
  have onward {c : Nat} (here : c = entry ∨ size ≤ c) :
      ∀ t ∈ h.succIds c, t ∈ region' ∨ h.Calls t site.method := by
    intro t edge
    obtain ⟨inside, copy | late⟩ := later.edges c here t edge
    · exact .inr (later.cleaned t copy)
    · by_cases same : t = b
      · exact .inr (same ▸ cleaned)
      · exact .inl (.inr ⟨late, inside, same⟩)
  have below {c : Nat} (late : size ≤ c) (x : Stub) (member : x ∈ O) : x.block ≠ c :=
    Nat.ne_of_lt (Nat.lt_of_lt_of_le (earlier x member).1 late)
  refine
    { inside := fun t landing => Nat.lt_of_lt_of_le (outer t landing) later.grown
      cleaned := later.cleaned
      covered := ⟨region', ?_, ?_⟩ }
  · rintro c (member | ⟨late, inside, elsewhere⟩)
    · exact ⟨(inner c member).1.mono le, (inner c member).2⟩
    · refine ⟨⟨inside, fun x member => ?_, onward (.inr late)⟩, later.quiet c late⟩
      rcases List.mem_cons.mp member with rfl | member
      · exact Ne.symm elsewhere
      · exact below late x member
  · intro c calls _
    by_cases same : c = entry
    · subst same
      refine ⟨Nat.lt_of_lt_of_le later.low later.grown, fun x member => ?_, onward (.inl rfl)⟩
      rcases List.mem_cons.mp member with rfl | member
      · exact away calls
      · exact (earlier x member).2
    · exact (callers c calls same).mono le

end

end Lowering

end ScriptFlow
