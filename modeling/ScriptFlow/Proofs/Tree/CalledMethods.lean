import ScriptFlow.Tree.Build

/-! Where a tree calls a method. -/

namespace ScriptFlow

variable {u : Tree} {ts : List Tree}

/-- The methods that a node calls by itself. In a method, `super` calls the inherited one. -/
def calledHere (inherited : Option String) (children : List Tree) (payload : Payload) :
    NodeKind → List String
  | .call =>
    match payload with
    | .name method => [method]
    | _ => []
  | .opAssign =>
    (match payload with
    | .name op => if op = "||" ∨ op = "&&" then [] else [op]
    | _ => []) ++
    match children with
    | .node .field _ (.name field) :: _ => [field]
    | _ => []
  | .field =>
    match payload with
    | .name field => [field ++ "="]
    | _ => []
  | .super | .bareSuper => inherited.toList
  | _ => []

mutual

/-- The methods that are called by the nodes of a tree, one entry for each place. -/
def Tree.calledMethods (inherited : Option String) : Tree → List String
  | .node kind children payload =>
    calledHere inherited children payload kind ++ Tree.calledMethodsAll inherited children ++
      Payload.calledMethods inherited payload
termination_by structural t => t

def Tree.calledMethodsAll (inherited : Option String) : List Tree → List String
  | [] => []
  | t :: ts => t.calledMethods inherited ++ Tree.calledMethodsAll inherited ts
termination_by structural ts => ts

def Payload.calledMethods (inherited : Option String) : Payload → List String
  | .block _ formals body => Formal.calledMethodsAll inherited formals ++ body.calledMethods inherited
  | _ => []
termination_by structural p => p

def Formal.calledMethods (inherited : Option String) : Formal → List String
  | .optional _ default => default.calledMethods inherited
  | _ => []
termination_by structural f => f

def Formal.calledMethodsAll (inherited : Option String) : List Formal → List String
  | [] => []
  | f :: fs => f.calledMethods inherited ++ Formal.calledMethodsAll inherited fs
termination_by structural fs => fs

end

namespace Tree

def defaultOf? : Formal → Option Tree
  | .optional _ default => some default
  | _ => none

/-- The trees right below a node: its children, and the body and defaults of a block. -/
def parts (t : Tree) : List Tree :=
  t.children ++
    match t.payload with
    | .block _ formals body => formals.filterMap defaultOf? ++ [body]
    | _ => []

theorem mem_parts {t : Tree} (member : u ∈ t.children) : u ∈ t.parts :=
  List.mem_append_left _ member

/-- A tree is part of another. -/
inductive Within (u : Tree) : Tree → Prop where
  | here : Within u u
  | part {v t : Tree} : v ∈ t.parts → Within u v → Within u t

variable (inherited : Option String)

theorem calledMethodsAll_eq (ts : List Tree) :
    calledMethodsAll inherited ts = ts.flatMap (calledMethods inherited) := by
  induction ts with
  | nil => rfl
  | cons t ts ih => rw [calledMethodsAll, ih, List.flatMap_cons]

theorem formal_calledMethodsAll_eq (fs : List Formal) :
    Formal.calledMethodsAll inherited fs =
      (fs.filterMap defaultOf?).flatMap (calledMethods inherited) := by
  induction fs with
  | nil => rfl
  | cons f fs ih =>
    rw [Formal.calledMethodsAll, ih]
    cases f with
    | optional name default => rfl
    | required | rest | block => rfl

theorem calledMethods_eq (t : Tree) :
    t.calledMethods inherited =
      calledHere inherited t.children t.payload t.kind ++
        t.parts.flatMap (calledMethods inherited) := by
  obtain ⟨kind, children, payload⟩ := t
  rw [calledMethods, calledMethodsAll_eq, parts, List.flatMap_append, List.append_assoc]
  congr 2
  cases payload with
  | block name formals body =>
    rw [Payload.calledMethods, formal_calledMethodsAll_eq]
    simp [Tree.payload]
  | none | literal | name => rfl

variable (method : String)

/-- A node calls a method as often as its parts do, and by itself. -/
theorem count_calledMethods (t : Tree) :
    (t.calledMethods inherited).count method =
      (calledHere inherited t.children t.payload t.kind).count method +
        (t.parts.flatMap (calledMethods inherited)).count method := by
  rw [calledMethods_eq, List.count_append]

theorem count_le_of_mem (member : u ∈ ts) :
    (u.calledMethods inherited).count method ≤
      (ts.flatMap (calledMethods inherited)).count method := by
  obtain ⟨before, after, rfl⟩ := List.append_of_mem member
  rw [List.flatMap_append, List.flatMap_cons, List.count_append, List.count_append]
  omega

/-- Two parts do not share what they call. -/
theorem count_add_le_of_mem {v : Tree} (first : u ∈ ts) (second : v ∈ ts) (other : v ≠ u) :
    (u.calledMethods inherited).count method + (v.calledMethods inherited).count method ≤
      (ts.flatMap (calledMethods inherited)).count method := by
  obtain ⟨before, after, rfl⟩ := List.append_of_mem first
  rw [List.flatMap_append, List.flatMap_cons, List.count_append, List.count_append]
  rcases List.mem_append.mp second with left | right
  · have := count_le_of_mem inherited method left
    omega
  · have := count_le_of_mem inherited method ((List.mem_cons.mp right).resolve_left other)
    omega

theorem count_within_le {t : Tree} (within : u.Within t) :
    (u.calledMethods inherited).count method ≤ (t.calledMethods inherited).count method := by
  induction within with
  | here => exact Nat.le_refl _
  | @part v t member _ ih =>
    have below := count_le_of_mem inherited method member
    have whole := count_calledMethods inherited method t
    omega

/-! Bodies with an `ensure` clause. -/

/-- The body calls a method first, and its `ensure` clause calls another one. -/
def IsGuarded (method cleanup : String) (t : Tree) : Prop :=
  ∃ ts rescues otherwise,
    t = .bodyStmt (.sequence (.selfCall method [] :: ts)) rescues otherwise
      (some (.selfCall cleanup []))

/-- The method is called nowhere, or once, in a guarded body. -/
def CallsGuarded (method cleanup : String) (t : Tree) : Prop :=
  (t.calledMethods inherited).count method = 0 ∨
    (t.calledMethods inherited).count method = 1 ∧
      ∃ u : Tree, u.IsGuarded method cleanup ∧ u.Within t

theorem calledMethods_selfCall (name : String) :
    (selfCall name []).calledMethods inherited = [name] := rfl

theorem calledMethods_ensure (name : String) :
    (plain .ensure [selfCall name []]).calledMethods inherited = [name] := rfl

theorem calledMethods_plain {kind : NodeKind} (ts : List Tree)
    (quiet : calledHere inherited ts .none kind = []) :
    (plain kind ts).calledMethods inherited = ts.flatMap (calledMethods inherited) := by
  simp [calledMethods_eq, parts, plain, Tree.children, Tree.payload, Tree.kind, quiet]

variable {method} {cleanup : String}

theorem calledMethods_guarded {rescues : List Tree} {otherwise : Option Tree} :
    (bodyStmt (sequence (selfCall method [] :: ts)) rescues otherwise
      (some (selfCall cleanup []))).calledMethods inherited =
      method :: ts.flatMap (calledMethods inherited) ++
        (rescues ++ otherwise.toList).flatMap (calledMethods inherited) ++ [cleanup] := by
  rw [bodyStmt, calledMethods_plain _ _ rfl]
  simp only [List.flatMap_append, List.flatMap_cons]
  rw [sequence, calledMethods_plain _ _ rfl, List.flatMap_cons, calledMethods_selfCall]
  simp [calledMethods_ensure]

theorem IsGuarded.called {t : Tree} (guarded : t.IsGuarded method cleanup) :
    0 < (t.calledMethods inherited).count method := by
  obtain ⟨ts, rescues, otherwise, rfl⟩ := guarded
  rw [calledMethods_guarded]
  simp

variable {inherited}

namespace CallsGuarded

variable {t : Tree} (calls : CallsGuarded inherited method cleanup t)

include calls

/-- Outside of the guarded body the method is not called. -/
theorem not_mem (other : ¬t.IsGuarded method cleanup) :
    method ∉ calledHere inherited t.children t.payload t.kind := by
  rw [← List.count_eq_zero]
  have whole := count_calledMethods inherited method t
  rcases calls with none | ⟨once, u, guarded, within⟩
  · omega
  · cases within with
    | here => exact absurd guarded other
    | part member within =>
      have called := guarded.called inherited
      have below := count_within_le inherited method within
      have above := count_le_of_mem inherited method member
      omega

theorem part (other : ¬t.IsGuarded method cleanup) (member : u ∈ t.parts) :
    CallsGuarded inherited method cleanup u := by
  have whole := count_calledMethods inherited method t
  have below := count_le_of_mem inherited method member
  rcases calls with none | ⟨once, v, guarded, within⟩
  · left
    omega
  · cases within with
    | here => exact absurd guarded other
    | @part w _ around within =>
      have called := guarded.called inherited
      have above := count_within_le inherited method within
      by_cases same : u = w
      · subst same
        exact .inr ⟨by omega, v, guarded, within⟩
      · have both := count_add_le_of_mem inherited method around member same
        left
        omega

end CallsGuarded

/-- A guarded body with one call of the method has no other. -/
theorem count_guarded {rescues : List Tree} {otherwise : Option Tree}
    (calls : CallsGuarded inherited method cleanup
      (bodyStmt (sequence (selfCall method [] :: ts)) rescues otherwise (some (selfCall cleanup [])))) :
    (∀ u ∈ ts, (u.calledMethods inherited).count method = 0) ∧
      (∀ u ∈ rescues ++ otherwise.toList, (u.calledMethods inherited).count method = 0) ∧
      cleanup ≠ method := by
  have once : ((bodyStmt (sequence (selfCall method [] :: ts)) rescues otherwise
      (some (selfCall cleanup []))).calledMethods inherited).count method ≤ 1 := by
    rcases calls with none | ⟨once, _⟩
    · omega
    · omega
  rw [calledMethods_guarded, List.count_append, List.count_append, List.count_cons_self] at once
  refine ⟨fun u member => ?_, fun u member => ?_, ?_⟩
  · have := count_le_of_mem inherited method member
    omega
  · have := count_le_of_mem inherited method member
    omega
  · rintro rfl
    rw [List.count_singleton_self] at once
    omega

end Tree

end ScriptFlow
