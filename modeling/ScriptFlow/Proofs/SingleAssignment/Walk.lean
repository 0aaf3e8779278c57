import ScriptFlow.Proofs.SingleAssignment.Renaming

/-! Renaming block by block, down the tree of dominators. -/

namespace ScriptFlow.SingleAssignment

open FlowGraph
open ScriptFlow.Digraph (Below)

/-- What the phi reads on the edge from `b` is the name in force at the end of `b`. -/
def FilledAt (base r : Renaming) (b : BlockId) (names : Names) (i : InstrId) : Prop :=
  ∀ v t os, base.origins.get? i = some v → r.graph.instr i = .phi t os →
    (lookup? r names v).isSome = true ∧
      (b ∈ os.map (·.1) → os.lookup b = some (nameOf r names v))

/-- Every phi after the block reads the names in force at its end. -/
def Filled (base r : Renaming) (b : BlockId) (names : Names) : Prop :=
  ∀ s ∈ base.graph.succIds b, ∀ i ∈ leadingPhis base.graph s, FilledAt base r b names i

section

variable {base r r' : Renaming} {touched filled : Nat → Prop} {names : Names} {b i : Nat}

theorem Evolves.nameOf_eq (evolves : Evolves base touched filled r r') {v : Nat}
    (found : (lookup? r names v).isSome = true) :
    (lookup? r' names v).isSome = true ∧ nameOf r' names v = nameOf r names v := by
  obtain ⟨n, eq⟩ := Option.isSome_iff_exists.mp found
  simp [nameOf, eq, evolves.lookup_eq eq]

theorem FilledAt.evolve (at_i : FilledAt base r b names i) (inside : i < base.graph.instrs.size)
    (evolves : Evolves base touched filled r r') (away : ¬filled b) :
    FilledAt base r' b names i := by
  intro v t' os' origin shape'
  have phi : (r.graph.instr i).isPhi = true := by
    rw [← evolves.isPhi i inside, shape']
    rfl
  obtain ⟨t, os, shape⟩ := Instr.eq_phi phi
  obtain ⟨found, reads⟩ := at_i v t os origin shape
  obtain ⟨still, name⟩ := evolves.nameOf_eq found
  obtain ⟨t'', os'', shape'', _, keys, lookup⟩ := evolves.phi i inside t os shape
  rw [shape'] at shape''
  obtain ⟨rfl, rfl⟩ := Instr.phi.inj shape''
  exact ⟨still, fun member => by rw [lookup b away, name, reads (keys ▸ member)]⟩

theorem lookup_overwrite {α : Type} (os : List (Nat × α)) (b p : Nat) (n : α) :
    (os.map fun o => if o.1 = b then (o.1, n) else o).lookup p =
      if p = b then (os.lookup b).map fun _ => n else os.lookup p := by
  induction os with
  | nil => simp
  | cons o os ih =>
    rw [List.map_cons, List.lookup_cons, ih, List.lookup_cons, List.lookup_cons]
    grind

theorem keys_overwrite {α : Type} (os : List (Nat × α)) (b : Nat) (n : α) :
    (os.map fun o => if o.1 = b then (o.1, n) else o).map (·.1) = os.map (·.1) := by
  rw [List.map_map]
  refine List.map_congr_left fun o _ => ?_
  dsimp only [Function.comp]
  split <;> rfl

theorem fillPhi_spec (b : Nat) (names : Names) (progress : Progress base r)
    (room : enter < base.graph.blocks.size) (inside : i < base.graph.instrs.size)
    (known : ∀ v : Nat, base.origins.get? i = some v → v < base.graph.bindings.size) :
    Progress base (fillPhi b names r i) ∧
      Evolves base (fun _ => False) (· = b) r (fillPhi b names r i) ∧
      FilledAt base (fillPhi b names r i) b names i ∧
      ∀ j : Nat, j < base.graph.instrs.size → FilledAt base r b names j →
        FilledAt base (fillPhi b names r i) b names j := by
  unfold fillPhi
  split
  · rename_i t os v shape origin
    rw [progress.origins] at origin
    obtain ⟨read, evolves, found⟩ := readName_spec progress room names (known v origin)
      (fun _ => False) (fun _ => False)
    obtain ⟨t', os', shape', same, keys, lookup⟩ := evolves.phi i inside t os shape
    obtain rfl : t' = t := same fun h => h
    have keeps (j : Nat) (j_inside : j < base.graph.instrs.size)
        (filled : FilledAt base r b names j) :
        FilledAt base (readName names r v) b names j :=
      filled.evolve j_inside evolves fun h => h
    dsimp only
    generalize readName names r v = s at *
    have set := instr_setInstr_self s.graph
      (.phi t' (os.map fun o => if o.1 = b then (o.1, nameOf s names v) else o))
      (Nat.lt_of_lt_of_le inside read.grown)
    have at_i : FilledAt base
        { s with
          graph := s.graph.setInstr i
            (.phi t' (os.map fun o => if o.1 = b then (o.1, nameOf s names v) else o)) }
        b names i := by
      intro u t1 os1 origin1 shape1
      rw [origin] at origin1
      obtain rfl := Option.some.inj origin1
      rw [set] at shape1
      obtain ⟨rfl, rfl⟩ := Instr.phi.inj shape1
      refine ⟨found, fun member => ?_⟩
      rw [keys_overwrite] at member
      obtain ⟨n, eq⟩ := Option.isSome_iff_exists.mp ((lookup_isSome_iff os b).mpr member)
      rw [lookup_overwrite, if_pos rfl, eq]
      rfl
    refine ⟨setInstr_progress read inside (by rw [shape']; rfl), ?_, at_i, ?_⟩
    · refine (evolves.weaken (fun _ h => h) (fun _ h => h.elim)).trans
        (setInstr_evolves _ _ (by rw [shape']; rfl) ?_ ?_ ?_)
      · intro _ plain
        rw [shape'] at plain
        cases plain
      · intro t1 os1 shape1
        rw [shape'] at shape1
        obtain ⟨rfl, rfl⟩ := Instr.phi.inj shape1
        refine ⟨_, _, rfl, fun _ => rfl, by rw [keys_overwrite, keys], fun p away => ?_⟩
        rw [lookup_overwrite, if_neg away, lookup p fun h => h]
      · intro n _ has
        rw [shape'] at has
        exact has
    · intro j j_inside filled
      by_cases eq : i = j
      · exact eq ▸ at_i
      · have old := keeps j j_inside filled
        intro u t1 os1 origin1 shape1
        rw [instr_setInstr_ne _ eq] at shape1
        exact old u t1 os1 origin1 shape1
  · rename_i other
    refine ⟨progress, .refl base r _ _, fun v t os origin shape => ?_, fun j _ filled => filled⟩
    exact (other t os v shape (progress.origins ▸ origin)).elim

theorem fillPhis_spec (b : Nat) (names : Names) (progress : Progress base r)
    (room : enter < base.graph.blocks.size) (is : List Nat)
    (inside : ∀ i ∈ is, i < base.graph.instrs.size)
    (known : ∀ i ∈ is, ∀ v : Nat, base.origins.get? i = some v → v < base.graph.bindings.size) :
    Progress base (is.foldl (fillPhi b names) r) ∧
      Evolves base (fun _ => False) (· = b) r (is.foldl (fillPhi b names) r) ∧
      (∀ i ∈ is, FilledAt base (is.foldl (fillPhi b names) r) b names i) ∧
      ∀ j : Nat, j < base.graph.instrs.size → FilledAt base r b names j →
        FilledAt base (is.foldl (fillPhi b names) r) b names j := by
  induction is generalizing r with
  | nil => exact ⟨progress, .refl base r _ _, fun _ member => absurd member (by simp), fun _ _ h => h⟩
  | cons i is ih =>
    obtain ⟨one, step, at_i, keeps⟩ := fillPhi_spec b names progress room
      (inside i (by simp)) (known i (by simp))
    obtain ⟨all, rest, filled, keeps'⟩ := ih one (fun j member => inside j (by simp [member]))
      fun j member => known j (by simp [member])
    refine ⟨all, step.trans rest, fun j member => ?_, fun j j_inside h =>
      keeps' j j_inside (keeps j j_inside h)⟩
    rcases List.mem_cons.mp member with rfl | later
    · exact keeps' j (inside j (by simp)) at_i
    · exact filled j later

theorem takeWhile_append_of_neg {α : Type} {p q : α → Bool} {before after : List α}
    (same : ∀ a ∈ before, p a = q a) (none : ∀ a ∈ after, p a = false) :
    (before ++ after).takeWhile p = before.takeWhile q := by
  induction before with
  | nil =>
    cases after with
    | nil => rfl
    | cons a after => simp [none a]
  | cons a before ih =>
    have rest := ih fun c member => same c (by simp [member])
    rw [List.cons_append, List.takeWhile_cons, List.takeWhile_cons, same a (by simp), rest]

/-- The phis of a block are known by their numbers throughout. -/
theorem leadingPhis_eq (ready : Ready base) (progress : Progress base r)
    (evolves : Evolves base touched filled base r) (s : Nat) :
    leadingPhis r.graph s = leadingPhis base.graph s := by
  have plain : ∀ i : Nat, i ∈ fallbacks base r s → (r.graph.instr i).isPhi = false := by
    intro i member
    obtain ⟨_, new, inside⟩ := (mem_fallbacks progress.grown).mp member
    obtain ⟨v, n, shape, _⟩ := progress.fallback i new inside
    rw [shape]
    rfl
  unfold leadingPhis
  rw [progress.block]
  exact takeWhile_append_of_neg (fun i member => evolves.isPhi i (ready.placed s i member).1) plain

theorem leadingPhis_inside (ready : Ready base) {s : Nat} (member : i ∈ leadingPhis base.graph s) :
    i < base.graph.instrs.size :=
  (ready.placed s i (List.takeWhile_subset _ member)).1

theorem fillSuccs_spec (b : Nat) (names : Names) (ready : Ready base) (progress : Progress base r)
    (total : Evolves base (fun _ => True) (fun _ => True) base r) (ss : List Nat) :
    Progress base
        (ss.foldl (fun r s => (leadingPhis r.graph s).foldl (fillPhi b names) r) r) ∧
      Evolves base (fun _ => False) (· = b) r
        (ss.foldl (fun r s => (leadingPhis r.graph s).foldl (fillPhi b names) r) r) ∧
      (∀ s ∈ ss, ∀ i ∈ leadingPhis base.graph s, FilledAt base
        (ss.foldl (fun r s => (leadingPhis r.graph s).foldl (fillPhi b names) r) r) b names i) ∧
      ∀ j : Nat, j < base.graph.instrs.size → FilledAt base r b names j → FilledAt base
        (ss.foldl (fun r s => (leadingPhis r.graph s).foldl (fillPhi b names) r) r) b names j := by
  induction ss generalizing r with
  | nil =>
    exact ⟨progress, .refl base r _ _, fun _ member => absurd member (by simp), fun _ _ h => h⟩
  | cons s ss ih =>
    rw [List.foldl_cons, leadingPhis_eq ready progress total s]
    obtain ⟨one, step, here, keeps⟩ := fillPhis_spec b names progress ready.room
      (leadingPhis base.graph s) (fun i => leadingPhis_inside ready) (ready.origin s)
    have total' := total.trans (step.weaken (fun _ h => h.elim) fun _ _ => trivial)
    obtain ⟨all, rest, later, keeps'⟩ := ih one total'
    refine ⟨all, step.trans rest, fun c member i phi => ?_, fun j j_inside h =>
      keeps' j j_inside (keeps j j_inside h)⟩
    rcases List.mem_cons.mp member with rfl | tail
    · exact keeps' i (leadingPhis_inside ready phi) (here i phi)
    · exact later c tail i phi

/-- What is left behind when a block is renamed. -/
structure Done (base r : Renaming) (names : Names) (b : BlockId) : Prop where
  renames : Renames base r names (base.graph.block b).instrs
  sourced : Sourced base r names
  filled : Filled base r b (namesAfter base r names (base.graph.block b).instrs)

theorem Done.evolve (ready : Ready base) (done : Done base r names b)
    (evolves : Evolves base touched filled r r')
    (away : ∀ i ∈ (base.graph.block b).instrs, ¬touched i) (unfilled : ¬filled b) :
    Done base r' names b ∧ namesAfter base r' names (base.graph.block b).instrs =
      namesAfter base r names (base.graph.block b).instrs := by
  obtain ⟨renames, same⟩ :=
    done.renames.evolve (fun i member => (ready.placed b i member).1) evolves away
  refine ⟨⟨renames, done.sourced.evolve evolves, fun s edge i phi => ?_⟩, same⟩
  rw [same]
  exact (done.filled s edge i phi).evolve (leadingPhis_inside ready phi) evolves unfilled

theorem nameBlock_spec (ready : Ready base) (progress : Progress base r)
    (sourced : Sourced base r names) (total : Evolves base touched filled base r)
    (away : ∀ i ∈ (base.graph.block b).instrs, ¬touched i)
    (whole : (r.graph.block b).instrs = (base.graph.block b).instrs) :
    Progress base (nameBlock names r b).1 ∧
      Evolves base (· ∈ (base.graph.block b).instrs) (· = b) r (nameBlock names r b).1 ∧
      Done base (nameBlock names r b).1 names b ∧
      (nameBlock names r b).2 =
        namesAfter base (nameBlock names r b).1 names (base.graph.block b).instrs ∧
      Sourced base (nameBlock names r b).1 (nameBlock names r b).2 := by
  have inside : ∀ i : Nat, i ∈ (base.graph.block b).instrs → i < base.graph.instrs.size :=
    fun i member => (ready.placed b i member).1
  obtain ⟨renamed, first, renames, after, out_sourced⟩ := nameInstrs_spec ready progress sourced
    (base.graph.block b).instrs (ready.distinct b) inside
    fun i member => total.pending (inside i member) (away i member)
  unfold nameBlock
  rw [whole]
  generalize (base.graph.block b).instrs.foldl nameInstr (r, names) = state at *
  obtain ⟨s, out⟩ := state
  dsimp only at *
  have succs : s.graph.successors b .all = base.graph.succIds b := by
    rw [successors_all, succIds, renamed.block]
    rfl
  unfold fillSuccessors
  rw [succs]
  have total' := (total.weaken (fun _ _ => trivial) fun _ _ => trivial).trans
    (first.weaken (fun _ _ => trivial) fun _ _ => trivial)
  obtain ⟨all, second, filled', _⟩ :=
    fillSuccs_spec b out ready renamed total' (base.graph.succIds b)
  generalize (base.graph.succIds b).foldl
    (fun r s => (leadingPhis r.graph s).foldl (fillPhi b out) r) s = s' at *
  obtain ⟨renames', same⟩ := renames.evolve inside second fun _ _ h => h
  have both : Evolves base (· ∈ (base.graph.block b).instrs) (· = b) r s' :=
    (first.weaken (fun _ h => h) fun _ h => h.elim).trans
      (second.weaken (fun _ h => h.elim) fun _ h => h)
  have names_eq : out = namesAfter base s' names (base.graph.block b).instrs := by rw [after, same]
  exact ⟨all, both, ⟨renames', sourced.evolve both, names_eq ▸ filled'⟩, names_eq,
    out_sourced.evolve second⟩

/-- The names at the end of a renamed block were made for definitions as well. -/
theorem Renames.sourced_after {is : List InstrId} (renames : Renames base r names is)
    (inside : ∀ i : Nat, i ∈ is → i < base.graph.instrs.size) (sourced : Sourced base r names) :
    Sourced base r (namesAfter base r names is) := by
  induction is generalizing names with
  | nil => exact sourced
  | cons i is ih =>
    refine ih renames.2 (fun j member => inside j (by simp [member])) ?_
    unfold addName
    split
    · rename_i v n source target
      intro u m member
      rcases List.mem_cons.mp member with eq | old
      · cases eq
        obtain ⟨n', target', new⟩ := renames.1.defines v source
        rw [target] at target'
        obtain rfl := Option.some.inj target'
        exact ⟨new, i, inside i (by simp), source, target⟩
      · exact sourced u m old
    · exact sourced

end

/-! Down the tree. -/

/-- The blocks in `visited` are renamed, each from the names at the end of its parent. -/
structure Walked (base : Renaming) (t : DominatorTree) (r : Renaming) (visited : Nat → Prop)
    (start : Nat → Names) : Prop where
  progress : Progress base r
  total : Evolves base (fun i => ∃ b, visited b ∧ i ∈ (base.graph.block b).instrs) visited base r
  done : ∀ b, visited b → Done base r (start b) b
  root : ∀ b, visited b → t.parent? b = none → start b = []
  parent : ∀ b p, visited b → t.parent? b = some p → visited p ∧
    start b = namesAfter base r (start p) (base.graph.block p).instrs

section

variable {base r : Renaming} {t : DominatorTree} {visited : Nat → Prop} {start : Nat → Names}
  {names : Names} {b : Nat}

theorem Walked.step (ready : Ready base) (walked : Walked base t r visited start)
    (fresh : ¬visited b) (sourced : Sourced base r names)
    (whole : (r.graph.block b).instrs = (base.graph.block b).instrs)
    (root : t.parent? b = none → names = [])
    (parent : ∀ p, t.parent? b = some p → visited p ∧
      names = namesAfter base r (start p) (base.graph.block p).instrs) :
    Walked base t (nameBlock names r b).1 (fun c => visited c ∨ c = b)
        (fun c => if c = b then names else start c) ∧
      (nameBlock names r b).2 =
        namesAfter base (nameBlock names r b).1 names (base.graph.block b).instrs ∧
      ∀ c, visited c → namesAfter base (nameBlock names r b).1 (start c)
        (base.graph.block c).instrs = namesAfter base r (start c) (base.graph.block c).instrs := by
  have apart {c i : Nat} (other : visited c) (in_c : i ∈ (base.graph.block c).instrs)
      (in_b : i ∈ (base.graph.block b).instrs) : False := by
    have same : c = b := (ready.placed c i in_c).2.symm.trans (ready.placed b i in_b).2
    exact fresh (same ▸ other)
  obtain ⟨after, evolves, done, out, _⟩ := nameBlock_spec ready walked.progress sourced
    walked.total (fun i in_b => fun ⟨c, other, in_c⟩ => apart other in_c in_b) whole
  have old (c : Nat) (seen : visited c) := (walked.done c seen).evolve ready evolves
    (fun i in_c in_b => apart seen in_c in_b) fun same => fresh (same ▸ seen)
  have unequal {c : Nat} (seen : visited c) : c ≠ b := fun same => fresh (same ▸ seen)
  refine ⟨⟨after, ?_, ?_, ?_, ?_⟩, out, fun c seen => (old c seen).2⟩
  · refine (walked.total.weaken ?_ fun _ => .inl).trans (evolves.weaken ?_ fun _ => .inr)
    · exact fun i ⟨c, seen, in_c⟩ => ⟨c, .inl seen, in_c⟩
    · exact fun i in_b => ⟨b, .inr rfl, in_b⟩
  · rintro c (seen | rfl)
    · rw [if_neg (unequal seen)]
      exact (old c seen).1
    · rw [if_pos rfl]
      exact done
  · rintro c (seen | rfl) none
    · rw [if_neg (unequal seen)]
      exact walked.root c seen none
    · rw [if_pos rfl]
      exact root none
  · rintro c p (seen | rfl) link
    · obtain ⟨p_seen, eq⟩ := walked.parent c p seen link
      rw [if_neg (unequal seen), if_neg (unequal p_seen)]
      exact ⟨.inl p_seen, eq.trans (old p p_seen).2.symm⟩
    · obtain ⟨p_seen, eq⟩ := parent p link
      rw [if_pos rfl, if_neg (unequal p_seen)]
      exact ⟨.inl p_seen, eq.trans (old p p_seen).2.symm⟩

end

section

variable {base : Renaming} {d : Digraph} (rooted : d.Rooted enter)

/-- What comes of renaming one more subtree: no name that was in force at the end of a block
changes. -/
def Extends (base r r' : Renaming) (visited : Nat → Prop) (start start' : Nat → Names) : Prop :=
  ∀ c, visited c → start' c = start c ∧
    namesAfter base r' (start' c) (base.graph.block c).instrs =
      namesAfter base r (start c) (base.graph.block c).instrs

theorem Walked.congr {t : DominatorTree} {r : Renaming} {visited visited' : Nat → Prop}
    {start : Nat → Names} (walked : Walked base t r visited start)
    (same : ∀ c, visited c ↔ visited' c) : Walked base t r visited' start :=
  (funext fun c => propext (same c) : visited = visited') ▸ walked

/-- Apart from the fallbacks of the first block, blocks keep their instructions. -/
theorem Progress.whole {r : Renaming} (progress : Progress base r) {b : Nat} (other : b ≠ enter) :
    (r.graph.block b).instrs = (base.graph.block b).instrs := by
  simp [progress.block, fallbacks, other]

include rooted

theorem Walked.children (fuel : Nat) (names : Names) (b : Nat)
    (subtree : ∀ {r : Renaming} {visited : Nat → Prop} {start : Nat → Names} {c : Nat},
      (d.dominators enter).parent? c = some b →
      Walked base (d.dominators enter) r visited start →
      (∀ x, Below (d.dominators enter) c x → ¬visited x) → visited b →
      names = namesAfter base r (start b) (base.graph.block b).instrs →
      ∃ start', Walked base (d.dominators enter) (nameTree (d.dominators enter) fuel names r c)
          (fun x => visited x ∨ Below (d.dominators enter) c x) start' ∧
        Extends base r (nameTree (d.dominators enter) fuel names r c) visited start start')
    (cs : List Nat) (distinct : cs.Nodup)
    (children : ∀ c ∈ cs, (d.dominators enter).parent? c = some b)
    {r : Renaming} {visited : Nat → Prop} {start : Nat → Names}
    (walked : Walked base (d.dominators enter) r visited start)
    (fresh : ∀ c ∈ cs, ∀ x, Below (d.dominators enter) c x → ¬visited x)
    (seen : visited b)
    (in_force : names = namesAfter base r (start b) (base.graph.block b).instrs) :
    ∃ start', Walked base (d.dominators enter)
        (cs.foldl (nameTree (d.dominators enter) fuel names) r)
        (fun x => visited x ∨ ∃ c ∈ cs, Below (d.dominators enter) c x) start' ∧
      Extends base r (cs.foldl (nameTree (d.dominators enter) fuel names) r) visited start
        start' := by
  induction cs generalizing r visited start with
  | nil => exact ⟨start, walked.congr fun x => by simp, fun _ _ => ⟨rfl, rfl⟩⟩
  | cons c cs ih =>
    rw [List.nodup_cons] at distinct
    obtain ⟨start1, walked1, extends1⟩ := subtree (children c (by simp)) walked
      (fresh c (by simp)) seen in_force
    have fresh1 : ∀ c' ∈ cs, ∀ x, Below (d.dominators enter) c' x →
        ¬(visited x ∨ Below (d.dominators enter) c x) := by
      rintro c' member x below (old | here)
      · exact fresh c' (by simp [member]) x below old
      · have same := Digraph.Below.unique rooted (children c (by simp))
          (children c' (by simp [member])) here below
        exact distinct.1 (same ▸ member)
    obtain ⟨start2, walked2, extends2⟩ := ih distinct.2
      (fun c' member => children c' (by simp [member])) walked1 fresh1 (.inl seen)
      (in_force.trans (extends1 b seen).2.symm)
    refine ⟨start2, walked2.congr fun x => ?_, fun x old => ?_⟩
    · simp only [List.exists_mem_cons_iff, or_assoc]
    · have first := extends1 x old
      have second := extends2 x (.inl old)
      exact ⟨second.1.trans first.1, second.2.trans first.2⟩

theorem Walked.tree (ready : Ready base) (fuel : Nat) {r : Renaming} {visited : Nat → Prop}
    {start : Nat → Names} {names : Names} {b : Nat}
    (walked : Walked base (d.dominators enter) r visited start) (reached : d.Reached enter b)
    (enough : d.size ≤ fuel + d.rank enter b)
    (fresh : ∀ x, Below (d.dominators enter) b x → ¬visited x)
    (whole : (r.graph.block b).instrs = (base.graph.block b).instrs)
    (sourced : Sourced base r names)
    (root : (d.dominators enter).parent? b = none → names = [])
    (parent : ∀ p, (d.dominators enter).parent? b = some p → visited p ∧
      names = namesAfter base r (start p) (base.graph.block p).instrs) :
    ∃ start', Walked base (d.dominators enter) (nameTree (d.dominators enter) fuel names r b)
        (fun x => visited x ∨ Below (d.dominators enter) b x) start' ∧
      Extends base r (nameTree (d.dominators enter) fuel names r b) visited start start' := by
  induction fuel generalizing r visited start names b with
  | zero =>
    have := Digraph.rank_lt_size rooted.inside reached
    omega
  | succ fuel ih =>
    obtain ⟨walked1, out, kept⟩ :=
      walked.step ready (fresh b .self) sourced whole root parent
    have unequal {c : Nat} (seen : visited c) : c ≠ b := fun same => fresh b .self (same ▸ seen)
    rw [nameTree]
    generalize nameBlock names r b = state at *
    obtain ⟨r1, out_names⟩ := state
    dsimp only at *
    have fresh1 : ∀ c ∈ (d.dominators enter).children b, ∀ x,
        Below (d.dominators enter) c x → ¬(visited x ∨ x = b) := by
      rintro c member x below (old | rfl)
      · exact fresh x (below.of_child ((Digraph.mem_children rooted).mp member)) old
      · exact absurd (below.rank_le rooted)
          (Nat.not_le.mpr (Digraph.rank_parent_lt rooted ((Digraph.mem_children rooted).mp member)))
    obtain ⟨start', walked', extended⟩ := Walked.children rooted fuel out_names b
      (fun {r' visited' start' c} link walked' fresh' seen' in_force => by
        have other : c ≠ enter := by
          rintro rfl
          rw [Digraph.parent?_entry rooted] at link
          cases link
        have smaller := Digraph.rank_parent_lt rooted link
        have done := walked'.done b seen'
        refine ih walked' (Digraph.parent_closest rooted link).1 (by omega) fresh'
          (walked'.progress.whole other) ?_ (fun none => ?_) fun p p_link => ?_
        · rw [in_force]
          exact done.renames.sourced_after (fun i member => (ready.placed b i member).1)
            done.sourced
        · rw [link] at none
          cases none
        · rw [link] at p_link
          obtain rfl := Option.some.inj p_link
          exact ⟨seen', in_force⟩)
      ((d.dominators enter).children b) ((Digraph.children_sorted d enter b).imp fun lt => Nat.ne_of_lt lt)
      (fun c member => (Digraph.mem_children rooted).mp member) walked1 fresh1 (.inr rfl)
      (by rw [if_pos rfl, out])
    refine ⟨start', walked'.congr fun x => ?_, fun c seen => ?_⟩
    · rw [Digraph.below_iff]
      simp only [Digraph.mem_children rooted, or_assoc]
    · have step := extended c (.inl seen)
      simp only [if_neg (unequal seen)] at step
      exact ⟨step.1, step.2.trans (kept c seen)⟩

omit rooted in
theorem Progress.refl (ready : Ready base)
    (unnamed : base.firsts = Array.replicate base.graph.bindings.size none)
    (unread : base.uninitialized = Array.replicate base.graph.bindings.size none) :
    Progress base base where
  origins := rfl
  size := rfl
  block b := by simp [fallbacks]
  grown := Nat.le_refl _
  blockOf i inside := by rw [if_pos inside]
  bindings := Nat.le_refl _
  table := by simp [unread]
  fallback i new inside := absurd inside (Nat.not_lt.mpr new)
  marked v n entry := by
    rw [unread, Array.getD_eq_getD_getElem?, Array.getElem?_replicate] at entry
    split at entry <;> cases entry
  target i n inside has := (ready.within i inside).target n has
  initialized i n inside has new :=
    absurd ((ready.within i inside).target n has) (Nat.not_lt.mpr new)
  unique i _ n inside _ new has _ :=
    absurd ((ready.within i inside).target n has) (Nat.not_lt.mpr new)
  header := rfl
  counted := by simp [unnamed]
  first v n entry := by
    rw [unnamed, Array.getD_eq_getD_getElem?, Array.getElem?_replicate] at entry
    split at entry <;> cases entry
  named i _ n inside _ has new :=
    absurd ((ready.within i inside).target n has) (Nat.not_lt.mpr new)
  owned n new small := absurd small (Nat.not_lt.mpr new)

omit rooted in
theorem Walked.apart (ready : Ready base) {t : DominatorTree} {r : Renaming} (bs : List Nat)
    (distinct : bs.Nodup) (roots : ∀ b ∈ bs, b ≠ enter ∧ t.parent? b = none)
    {visited : Nat → Prop} {start : Nat → Names} (walked : Walked base t r visited start)
    (fresh : ∀ b ∈ bs, ¬visited b) :
    ∃ start', Walked base t (bs.foldl (fun r b => (nameBlock [] r b).1) r)
      (fun b => visited b ∨ b ∈ bs) start' := by
  induction bs generalizing r visited start with
  | nil => exact ⟨start, walked.congr fun b => by simp⟩
  | cons b bs ih =>
    rw [List.nodup_cons] at distinct
    obtain ⟨other, root⟩ := roots b (by simp)
    have step := (walked.step ready (fresh b (by simp)) (fun _ _ member => by cases member)
      (walked.progress.whole other) (fun _ => rfl) fun p link => by
        rw [root] at link
        cases link).1
    obtain ⟨start', walked'⟩ := ih distinct.2 (fun c member => roots c (by simp [member])) step (by
      rintro c member (old | rfl)
      · exact fresh c (by simp [member]) old
      · exact distinct.1 member)
    exact ⟨start', walked'.congr fun c => by simp [or_assoc]⟩

/-- All blocks are renamed, those that are reached down the tree. -/
theorem renameAll_walked (ready : Ready base) (size : base.graph.blocks.size = d.size)
    (unnamed : base.firsts = Array.replicate base.graph.bindings.size none)
    (unread : base.uninitialized = Array.replicate base.graph.bindings.size none) :
    ∃ start, Walked base (d.dominators enter) (renameAll (d.dominators enter) base)
      (fun b => d.Reached enter b ∨
        b < base.graph.blocks.size ∧ (base.graph.block b).removed = false) start := by
  have first : Walked base (d.dominators enter) base (fun _ => False) fun _ => [] :=
    ⟨.refl ready unnamed unread, .refl base base _ _, fun _ h => h.elim, fun _ h => h.elim,
      fun _ _ h => h.elim⟩
  obtain ⟨start, walked, _⟩ := first.tree rooted ready base.graph.blocks.size (.start rooted.inside)
    (by omega) (fun _ _ h => h) rfl (fun _ _ member => by cases member) (fun _ => rfl)
    fun p link => by
      rw [Digraph.parent?_entry rooted] at link
      cases link
  rw [renameAll_eq rooted size, nameAll]
  have entry : (d.dominators enter).entry = enter := rfl
  rw [entry]
  generalize nameTree (d.dominators enter) base.graph.blocks.size [] base enter = r at *
  have live (b : Nat) : b ∈ r.graph.liveBlocks ↔
      b < base.graph.blocks.size ∧ (base.graph.block b).removed = false := by
    rw [mem_liveBlocks, walked.progress.size, walked.progress.block]
  have below (b : Nat) :
      Below (d.dominators enter) enter b ↔ d.Reached enter b :=
    ⟨fun h => h.reached rooted (.start rooted.inside), fun h => Digraph.below_entry rooted h⟩
  have unreached {b : Nat}
      (member : b ∈ r.graph.liveBlocks.filter fun b => !(d.dominators enter).isReached b) :
      ¬d.Reached enter b := by
    rw [List.mem_filter] at member
    intro reached
    rw [(Digraph.isReached_iff rooted.inside).mpr reached] at member
    simp at member
  obtain ⟨start', walked'⟩ := walked.apart ready
    (r.graph.liveBlocks.filter fun b => !(d.dominators enter).isReached b)
    ((List.nodup_range.filter _).filter _) (by
      intro b member
      constructor
      · rintro rfl
        exact unreached member (.start rooted.inside)
      · by_contra some_parent
        obtain ⟨p, link⟩ := Option.ne_none_iff_exists'.mp some_parent
        exact unreached member (Digraph.parent_closest rooted link).1)
    (by
      rintro b member (h | here)
      · exact h
      · exact unreached member ((below b).mp here))
  refine ⟨start', walked'.congr fun b => ?_⟩
  rw [List.mem_filter, live, false_or, below]
  constructor
  · rintro (reached | ⟨alive, _⟩)
    · exact .inl reached
    · exact .inr alive
  · rintro (reached | alive)
    · exact .inl reached
    · by_cases reached : d.Reached enter b
      · exact .inl reached
      · refine .inr ⟨alive, ?_⟩
        rw [← Digraph.isReached_iff rooted.inside] at reached
        simpa using reached

end

end ScriptFlow.SingleAssignment
