import ScriptFlow.Proofs.Lowering.StubSteps

/-! Control flows through conversions, formals, calls and literals. -/

namespace ScriptFlow

namespace Tree

variable {t u : Tree} {i : Nat} {ts : List Tree} {frame : Frame}

theorem getElem?_of_child (found : t.child i = .ok u) : t.children[i]? = some u := by
  unfold child at found
  split at found
  · rename_i c eq
    cases found
    exact eq
  · cases found

theorem mem_of_child (found : t.child i = .ok u) : u ∈ t.children :=
  List.mem_of_getElem? (getElem?_of_child found)

theorem mem_of_child? (found : t.child? i = some u) : u ∈ t.children :=
  List.mem_of_getElem? (Option.filter_eq_some_iff.mp found).1

theorem payload_of_name {name : String} (found : t.name = .ok name) : t.payload = .name name := by
  unfold Tree.name at found
  split at found
  · rename_i eq
    cases found
    exact eq
  · cases found

theorem payload_of_block {b : BlockTree} (found : t.block = .ok b) :
    t.payload = .block b.name b.formals b.body := by
  unfold Tree.block at found
  split at found
  · rename_i eq
    cases found
    exact eq
  · cases found

end Tree

namespace Lowering

open Policy

/-- The nodes may be lowered, or one of them never can. -/
abbrev Admitted (G : Tree → Prop) (ts : List Tree) : Prop :=
  (∀ u ∈ ts, G u) ∨ ∃ u ∈ ts, u.kind = .ensure

/-- What a policy asks of trees. The children of a node may be used without the node itself when
none of them is an `ensure` clause: such a clause is no expression. -/
class Admits (P : outParam Policy) (G : Tree → Prop) : Prop where
  children {t : Tree} : G t → Admitted G t.children
  child {t u : Tree} : G t → t.kind ≠ .bodyStmt → u ∈ t.children → G u
  method {t : Tree} {name : String} : G t →
    t.kind = .call ∨ t.kind = .opAssign ∧ name ≠ "||" ∧ name ≠ "&&" → t.payload = .name name →
    P.calls name
  getter {t u : Tree} {name : String} : G t → t.kind = .opAssign → t.children[0]? = some u →
    u.kind = .field → u.payload = .name name → P.calls name
  setter {t : Tree} {name : String} : G t → t.kind = .field → t.payload = .name name →
    P.calls (name ++ "=")
  super {t : Tree} : G t → t.kind = .super ∨ t.kind = .bareSuper →
    ∀ name, P.methodName = some name → P.calls name
  body {t : Tree} {name : Option String} {formals : List Formal} {body : Tree} : G t →
    t.payload = .block name formals body →
    G body ∧ ∀ name default, Formal.optional name default ∈ formals → G default

/-- The step always ends with an error. -/
def Fails {α : Type} (act : Lower α) : Prop := ∀ c s a s', act c s ≠ .ok a s'

/-- Lowering a node lets control flow through it. -/
class Walks (P : Policy) (G : outParam (Tree → Prop)) (walk : Walk) : Prop where
  flows : ∀ t, G t → ∀ want, Flows P (walk t want) Whatever
  refuses : ∀ t, t.kind = .ensure → ∀ want, Fails (walk t want)

namespace Fails

variable {α β : Type} {P : Policy}

theorem flows {act : Lower α} {Q : α → Prop} (fails : Fails act) : Flows P act Q :=
  fun _ _ _ c s _ _ _ a s' run => absurd run (fails c s a s')

theorem first {act : Lower α} {f : α → Lower β} (fails : Fails act) : Fails (act >>= f) := by
  intro c s b s' run
  obtain ⟨a, s₁, run₁, _⟩ := run_bind run
  exact fails c s a s₁ run₁

theorem second {act : Lower α} {f : α → Lower β} (fails : ∀ a, Fails (f a)) : Fails (act >>= f) := by
  intro c s b s' run
  obtain ⟨a, s₁, _, run₂⟩ := run_bind run
  exact fails a c s₁ b s' run₂

theorem mapM {f : α → Lower β} {l : List α} {a : α} (member : a ∈ l) (fails : Fails (f a)) :
    Fails (l.mapM f) := by
  induction l with
  | nil => cases member
  | cons b l ih =>
    rw [List.mapM_cons]
    rcases List.mem_cons.mp member with rfl | member
    · exact fails.first
    · exact second fun _ => (ih member).first

theorem forM {f : α → Lower PUnit} {l : List α} {a : α} (member : a ∈ l) (fails : Fails (f a)) :
    Fails (l.forM f) := by
  induction l with
  | nil => cases member
  | cons b l ih =>
    change Fails (f b >>= fun _ => l.forM f)
    rcases List.mem_cons.mp member with rfl | member
    · exact fails.first
    · exact second fun _ => ih member

end Fails

variable {P : Policy} [P.Stable]

/-! Conversions. -/

section

theorem convert_flows {value : Operand} {cls : ModuleId} {method : String}
    (builtin : method ∈ builtinCalls) : Flows P (convert value cls method) Whatever := by
  intro L here O
  refine newTemp_flows.into fun result here _ => ?_
  refine (plainCall_flows (by decide)).into fun isInstance here _ => ?_
  refine .reserve fun already => .reserve fun check => ?_
  refine .reserve fun convertible => .reserve fun missing => ?_
  refine .reserve fun join => .branch (by simp) (by simp) <| .start 4 rfl ?_
  refine copy_flows.into fun _ here _ => ?_
  refine (emit_flows rfl (by simp [Instr.site?])).into fun _ here _ => ?_
  refine .jump (by simp) <| .start 3 rfl ?_
  refine newParam_flows.into fun responds here _ => .branch (by simp) (by simp) ?_
  refine .start 2 rfl ?_
  refine (raisingCall_flows (Stable.builtin _ builtin)).into fun converted here _ => ?_
  refine copy_flows.into fun _ here _ => .jump (by simp) <| .start 1 rfl ?_
  refine copy_flows.into fun _ here _ => .jump (by simp) <| .start 0 rfl ?_
  exact .pure ⟨rfl, trivial⟩

theorem arrayOf_flows {items : List Operand} : Flows P (arrayOf items) Whatever :=
  plainCall_flows (by decide)

theorem toArray_flows {value : Operand} {method : String} (builtin : method ∈ builtinCalls) :
    Flows P (toArray value method) Whatever := by
  intro L here O
  refine (convert_flows builtin).into fun converted here _ => ?_
  refine newTemp_flows.into fun result here _ => ?_
  refine .reserve fun done => .reserve fun wrap => .reserve fun join => ?_
  refine .branch (by simp) (by simp) <| .start 2 rfl ?_
  refine copy_flows.into fun _ here _ => .jump (by simp) <| .start 1 rfl ?_
  refine arrayOf_flows.into fun wrapped here _ => ?_
  refine copy_flows.into fun _ here _ => .jump (by simp) <| .start 0 rfl ?_
  exact .pure ⟨rfl, trivial⟩

theorem splatValue_flows {value : Operand} : Flows P (splatValue value) Whatever :=
  toArray_flows (by decide)

end

section

variable {G : Tree → Prop} {walk : Walk} [admits : Admits P G] [Walks P G walk]

omit [P.Stable] admits in
theorem walkAll_flows (admitted : Admitted G ts) : Flows P (walkAll walk ts) Whatever := by
  rcases admitted with all | ⟨u, member, clause⟩
  · exact .any (.mapM fun t member => Walks.flows t (all t member) true)
  · exact (Fails.mapM member (Walks.refuses (P := P) u clause true)).flows

theorem arrayParts_fails {parts run : List Operand} (member : u ∈ ts) (clause : u.kind = .ensure)
    (fails : Fails (walk u true)) : Fails (arrayParts walk parts run ts) := by
  induction ts generalizing parts run with
  | nil => cases member
  | cons t ts ih =>
    unfold arrayParts
    rcases List.mem_cons.mp member with rfl | member
    · rw [if_neg (by rw [clause]; decide)]
      exact fails.first
    · split
      · extract_lets goOn
        have goOn_fails (parts : List Operand) : Fails (goOn parts) :=
          .second fun _ => .second fun _ => .second fun _ => ih member
        split
        · exact goOn_fails parts
        · exact .second goOn_fails
      · exact .second fun _ => ih member

theorem arrayParts_flows {parts run : List Operand} (all : ∀ u ∈ ts, G u) :
    Flows P (arrayParts walk parts run ts) Whatever := by
  induction ts generalizing parts run with
  | nil =>
    unfold arrayParts
    split
    · exact .pure trivial
    · exact arrayOf_flows.bind fun _ _ => .pure trivial
  | cons t ts ih =>
    have first := all t (by simp)
    have later {parts run : List Operand} : Flows P (arrayParts walk parts run ts) Whatever :=
      ih fun u member => all u (by simp [member])
    unfold arrayParts
    split
    · rename_i splat
      extract_lets goOn
      have goOn_flows (parts : List Operand) : Flows P (goOn parts) Whatever := by
        refine .check fun inner found => ?_
        have admitted := Admits.child first (by rw [splat]; decide) (Tree.mem_of_child found)
        refine (Walks.flows inner admitted true).bind fun _ _ => ?_
        exact splatValue_flows.bind fun _ _ => later
      split
      · exact goOn_flows parts
      · have extended : Flows P ((parts ++ [·]) <$> arrayOf run) Whatever :=
          arrayOf_flows.map fun _ _ => trivial
        exact extended.bind fun parts _ => goOn_flows parts
    · exact (Walks.flows t first true).bind fun _ _ => later

theorem splatArray_flows (admitted : Admitted G ts) : Flows P (splatArray walk ts) Whatever := by
  rcases admitted with all | ⟨u, member, clause⟩
  · refine (arrayParts_flows all).bind fun parts _ => ?_
    split
    · exact .pure trivial
    · exact .foldlM fun _ _ _ => plainCall_flows (by decide)
  · exact (arrayParts_fails member clause (Walks.refuses (P := P) u clause true)).first.flows

theorem lowerArgs_flows {args : Tree} (admitted : G args) :
    Flows P (lowerArgs walk args) Whatever := by
  unfold lowerArgs
  split
  · exact (splatArray_flows (Admits.children admitted)).bind fun _ _ =>
      .pure trivial
  · exact (walkAll_flows (Admits.children admitted)).bind fun _ _ => .pure trivial

end

/-! Formals. -/

section

theorem readParam_flows {name : String} {p : Param} : Flows P (readParam frame name p) Whatever :=
  variableBinding_flows.bind fun _ _ => paramInto_flows

theorem readArguments_flows {names : List String} :
    Flows P (readArguments frame i names) Whatever := by
  induction names generalizing i with
  | nil => exact .pure trivial
  | cons name names ih => exact readParam_flows.bind fun _ _ => ih

theorem bindTrailing_flows {arity : Operand} {count : Nat} {names : List String} :
    Flows P (bindTrailing frame arity count i names) Whatever := by
  induction names generalizing i with
  | nil => exact .pure trivial
  | cons name names ih =>
    refine (plainCall_flows (by decide)).bind fun position _ => ?_
    exact readParam_flows.bind fun _ _ => ih

theorem bindBlock_flows {name : String} : Flows P (bindBlock frame name) Whatever := by
  refine variableBinding_flows.bind fun v _ => ?_
  split
  · exact .read fun c _ => copy_flows
  · exact paramInto_flows

end

/-- The defaults of optional formals are among the formals. -/
theorem FormalRoles.mem_of_optional {formals : List Formal} {r : FormalRoles}
    (sorted : FormalRoles.ofFormals formals = .ok r) :
    ∀ e ∈ r.optional, Formal.optional e.1 e.2 ∈ formals := by
  have from_roles (fs : List Formal) (r₀ r : FormalRoles) (sorted : fs.foldlM FormalRoles.add r₀ = .ok r) :
      ∀ e ∈ r.optional, e ∈ r₀.optional ∨ Formal.optional e.1 e.2 ∈ fs := by
    induction fs generalizing r₀ with
    | nil =>
      cases sorted
      exact fun e member => .inl member
    | cons f fs ih =>
      rw [List.foldlM_cons] at sorted
      cases added : r₀.add f with
      | error e => simp [added, bind, Except.bind] at sorted
      | ok r₁ =>
        simp only [added, bind, Except.bind] at sorted
        intro e member
        rcases ih r₁ sorted e member with old | new
        · cases f with
          | optional name default =>
            cases added
            rcases List.mem_append.mp old with old | new
            · exact .inl old
            · cases List.mem_singleton.mp new
              exact .inr (by simp)
          | required name => grind [FormalRoles.add]
          | rest name => grind [FormalRoles.add]
          | block name => grind [FormalRoles.add]
        · exact .inr (by simp [new])
  intro e member
  exact (from_roles formals .none r sorted e member).resolve_left (by simp [FormalRoles.none])

section

variable {G : Tree → Prop} {walk : Walk} [Walks P G walk]

/-- The block with the last default stays open. -/
theorem bindOptionals_moves {arity : Operand} {required leading k here : Nat}
    {L : Set Nat} {O : List Stub} {previous : Option BlockId} {optional : List (String × Tree)}
    (admitted : ∀ e ∈ optional, G e.2) :
    Moves P L here (.opened here :: previous.toList.map .opened ++ O)
      (bindOptionals walk frame arity required leading k previous optional)
      fun last here' O' => O' = .opened here' :: last.toList.map .opened ++ O := by
  induction optional generalizing L here k previous with
  | nil => exact .pure rfl
  | cons formal optional ih =>
    have later (L : Set Nat) (here k : Nat) (last : BlockId) :
        Moves P L here (.opened here :: (some last).toList.map .opened ++ O)
          (bindOptionals walk frame arity required leading k (some last) optional)
          fun last here' O' => O' = .opened here' :: last.toList.map .opened ++ O :=
      ih fun e member => admitted e (by simp [member])
    refine (plainCall_flows (by decide)).into fun missing here _ => ?_
    refine .reserve fun withDefault => .reserve fun withArgument => ?_
    refine .branch (by simp) (by simp) ?_
    extract_lets goOn
    have goOn_moves (L : Set Nat) (here : Nat) :
        Moves P L here (.opened withArgument :: .opened withDefault :: O) (goOn ())
          fun last here' O' => O' = .opened here' :: last.toList.map .opened ++ O := by
      refine .start 1 rfl ?_
      refine (Walks.flows _ (admitted formal (by simp)) true).into fun value here _ => ?_
      refine variableBinding_flows.into fun v here _ => ?_
      refine copy_flows.into fun _ here _ => .currentBlock <| .start 1 rfl ?_
      exact readParam_flows.into fun _ here _ => later L here (k + 1) _
    cases previous with
    | none => exact goOn_moves _ here
    | some p => exact .start 2 rfl <| .jump (by simp) (goOn_moves _ p)

theorem bindOpen_flows {r : FormalRoles} (admitted : ∀ e ∈ r.optional, G e.2) :
    Flows P (bindOpen walk frame r) Whatever := by
  intro L here O
  refine newParam_flows.into fun arity here _ => ?_
  refine readArguments_flows.into fun _ here _ => .reserve fun done => ?_
  have optionals : Moves P (insert done L) here
      (.opened here :: (none : Option BlockId).toList.map .opened ++ .opened done :: O)
      (bindOptionals walk frame (.binding arity) r.required r.leading.length 0 none r.optional)
      fun last here' O' => O' = .opened here' :: last.toList.map .opened ++ .opened done :: O :=
    bindOptionals_moves admitted
  refine optionals.bind fun last here O' same => ?_
  subst same
  extract_lets finish leave afterRest
  have finish_moves (here : Nat) : Moves P (insert done L) here (.opened done :: O) (finish ())
      fun _ here' O' => O' = .opened here' :: O ∧ True :=
    .start 0 rfl (bindTrailing_flows _ done O)
  have leave_moves (here : Nat) : Moves P (insert done L) here (.opened here :: .opened done :: O) (leave ())
      fun _ here' O' => O' = .opened here' :: O ∧ True :=
    .jump (by simp) (finish_moves here)
  have afterRest_moves (here : Nat) :
      Moves P (insert done L) here (.opened here :: last.toList.map .opened ++ .opened done :: O)
        (afterRest ())
        fun _ here' O' => O' = .opened here' :: O ∧ True := by
    refine .jump (by simp) ?_
    cases last with
    | none => exact finish_moves here
    | some b =>
      refine .start 0 rfl ?_
      split
      · refine variableBinding_flows.into fun v here _ => ?_
        exact copy_flows.into fun _ here _ => leave_moves here
      · exact leave_moves b
  split
  · refine (plainCall_flows (by decide)).into fun count here _ => ?_
    exact readParam_flows.into fun _ here _ => afterRest_moves here
  · exact afterRest_moves here

theorem bindFormals_flows {formals : List Formal}
    (admitted : ∀ name default, Formal.optional name default ∈ formals → G default) :
    Flows P (bindFormals walk formals frame) Whatever := by
  have one (f : Formal) : Flows P
      (do return (← variableBinding f.name, f.paramKind) : Lower (BindingId × ParamKind)) Whatever :=
    variableBinding_flows.bind fun v _ => .pure trivial
  have names : Flows P (formals.mapM fun f =>
      (do return (← variableBinding f.name, f.paramKind) : Lower (BindingId × ParamKind))) Whatever :=
    .any (.mapM fun f _ => one f)
  refine .check fun r sorted => ?_
  extract_lets last rest
  have rest_flows : Flows P (rest ()) Whatever := by
    simp only [rest]
    split
    · exact bindBlock_flows.bind fun _ _ => names
    · exact names
  split
  · exact readArguments_flows.bind fun _ _ => rest_flows
  · refine (bindOpen_flows fun e member => ?_).bind fun _ _ => rest_flows
    exact admitted e.1 e.2 (FormalRoles.mem_of_optional sorted e member)

end

end Lowering

end ScriptFlow
