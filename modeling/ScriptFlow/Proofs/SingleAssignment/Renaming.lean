import ScriptFlow.Proofs.FlowGraph.Growth
import ScriptFlow.Proofs.FlowGraph.WellFormed
import ScriptFlow.Proofs.SingleAssignment.Stacks

/-! Renaming gives every definition a name of its own, and every read the name of the definition in
force. -/

namespace ScriptFlow.SingleAssignment

open FlowGraph

variable {v : Nat} {x : Instr}

/-- The instructions that set bindings to nil at the start of the graph. -/
def fallbacks (base r : Renaming) (b : BlockId) : List InstrId :=
  if b = enter then
    List.range' base.graph.instrs.size (r.graph.instrs.size - base.graph.instrs.size)
  else []

theorem mem_fallbacks {base r : Renaming} (grown : base.graph.instrs.size ≤ r.graph.instrs.size)
    {b i : Nat} :
    i ∈ fallbacks base r b ↔ b = enter ∧ base.graph.instrs.size ≤ i ∧ i < r.graph.instrs.size := by
  unfold fallbacks
  split
  · rename_i first
    rw [List.mem_range'_1, Nat.add_sub_cancel' grown]
    exact ⟨fun range => ⟨first, range⟩, fun here => here.2⟩
  · simp_all

/-- What holds while the graph of `base` is renamed, also when a name was made and is not in use yet.
Generations come after the bindings of `base`, and the instructions added to its own are those that
set bindings to nil. -/
structure Midway (base r : Renaming) : Prop where
  origins : r.origins = base.origins
  size : r.graph.blocks.size = base.graph.blocks.size
  block : ∀ b, r.graph.block b =
    { base.graph.block b with instrs := (base.graph.block b).instrs ++ fallbacks base r b }
  grown : base.graph.instrs.size ≤ r.graph.instrs.size
  blockOf : ∀ i : Nat, i < r.graph.instrs.size →
    r.graph.blockOf i = if i < base.graph.instrs.size then base.graph.blockOf i else enter
  bindings : base.graph.bindings.size ≤ r.graph.bindings.size
  table : r.uninitialized.size = base.graph.bindings.size
  fallback : ∀ i : Nat, base.graph.instrs.size ≤ i → i < r.graph.instrs.size →
    ∃ v n, r.graph.instr i = .assign n .nil ∧ r.uninitialized.getD v none = some n
  marked : ∀ v, ∀ n : Nat, r.uninitialized.getD v none = some n →
    base.graph.bindings.size ≤ n ∧ n < r.graph.bindings.size ∧
      (r.graph.binding n).uninitialized = true
  target : ∀ i n : Nat, i < r.graph.instrs.size → (r.graph.instr i).target? = some n →
    n < r.graph.bindings.size
  initialized : ∀ i n : Nat, i < base.graph.instrs.size → (r.graph.instr i).target? = some n →
    base.graph.bindings.size ≤ n → (r.graph.binding n).uninitialized = false
  unique : ∀ i j n : Nat, i < r.graph.instrs.size → j < r.graph.instrs.size →
    base.graph.bindings.size ≤ n → (r.graph.instr i).target? = some n →
    (r.graph.instr j).target? = some n → i = j
  header : r.graph.header = base.graph.header
  counted : r.firsts.size = base.graph.bindings.size
  first : ∀ v n : Nat, r.firsts.getD v none = some n →
    base.graph.bindings.size ≤ n ∧ n < r.graph.bindings.size
  named : ∀ i v n : Nat, i < base.graph.instrs.size → (base.graph.instr i).target? = some v →
    (r.graph.instr i).target? = some n → base.graph.bindings.size ≤ n →
    (r.firsts.getD v none).isSome = true

/-- What holds between the steps of renaming. -/
structure Progress (base r : Renaming) : Prop extends Midway base r where
  owned : ∀ n : Nat, base.graph.bindings.size ≤ n → n < r.graph.bindings.size →
    ∃ i : Nat, i < r.graph.instrs.size ∧ (r.graph.instr i).target? = some n

/-- What may change from one state to a later one: the instructions that are `touched`, and what
phis read on the edges from the blocks that are `filled`. -/
structure Evolves (base : Renaming) (touched filled : Nat → Prop) (r r' : Renaming) : Prop where
  bindings : r.graph.bindings.size ≤ r'.graph.bindings.size
  binding : ∀ n : Nat, n < r.graph.bindings.size → r'.graph.binding n = r.graph.binding n
  uninitialized : ∀ v n, r.uninitialized.getD v none = some n →
    r'.uninitialized.getD v none = some n
  isPhi : ∀ i : Nat, i < base.graph.instrs.size →
    (r'.graph.instr i).isPhi = (r.graph.instr i).isPhi
  plain : ∀ i : Nat, i < base.graph.instrs.size → ¬touched i → (r.graph.instr i).isPhi = false →
    r'.graph.instr i = r.graph.instr i
  phi : ∀ i : Nat, i < base.graph.instrs.size → ∀ t os, r.graph.instr i = .phi t os →
    ∃ t' os', r'.graph.instr i = .phi t' os' ∧ (¬touched i → t' = t) ∧
      os'.map (·.1) = os.map (·.1) ∧ ∀ p, ¬filled p → os'.lookup p = os.lookup p
  /-- A definition is renamed once. -/
  renamed : ∀ i n : Nat, i < base.graph.instrs.size → base.graph.bindings.size ≤ n →
    (r.graph.instr i).target? = some n → (r'.graph.instr i).target? = some n

namespace Evolves

variable {base r r' r'' : Renaming} {touched filled touched' filled' : Nat → Prop}

theorem refl (base r : Renaming) (touched filled : Nat → Prop) : Evolves base touched filled r r where
  bindings := Nat.le_refl _
  binding _ _ := rfl
  uninitialized _ _ h := h
  isPhi _ _ := rfl
  plain _ _ _ _ := rfl
  phi _ _ t os eq := ⟨t, os, eq, fun _ => rfl, rfl, fun _ _ => rfl⟩
  renamed _ _ _ _ h := h

theorem trans (first : Evolves base touched filled r r')
    (second : Evolves base touched filled r' r'') : Evolves base touched filled r r'' where
  bindings := Nat.le_trans first.bindings second.bindings
  binding n inside := by
    rw [second.binding n (Nat.lt_of_lt_of_le inside first.bindings), first.binding n inside]
  uninitialized v n h := second.uninitialized v n (first.uninitialized v n h)
  isPhi i inside := (second.isPhi i inside).trans (first.isPhi i inside)
  plain i inside away plain := by
    have same := first.plain i inside away plain
    rw [second.plain i inside away (same ▸ plain), same]
  phi i inside t os eq := by
    obtain ⟨t', os', eq', target', keys', lookup'⟩ := first.phi i inside t os eq
    obtain ⟨t'', os'', eq'', target'', keys'', lookup''⟩ := second.phi i inside t' os' eq'
    exact ⟨t'', os'', eq'', fun away => (target'' away).trans (target' away), keys''.trans keys',
      fun p open_p => (lookup'' p open_p).trans (lookup' p open_p)⟩
  renamed i n inside new h := second.renamed i n inside new (first.renamed i n inside new h)

theorem weaken (evolves : Evolves base touched filled r r') (more : ∀ i, touched i → touched' i)
    (more_filled : ∀ p, filled p → filled' p) : Evolves base touched' filled' r r' where
  bindings := evolves.bindings
  binding := evolves.binding
  uninitialized := evolves.uninitialized
  isPhi := evolves.isPhi
  plain i inside away := evolves.plain i inside fun h => away (more i h)
  phi i inside t os eq := by
    obtain ⟨t', os', eq', target', keys', lookup'⟩ := evolves.phi i inside t os eq
    exact ⟨t', os', eq', fun away => target' fun h => away (more i h), keys',
      fun p open_p => lookup' p fun h => open_p (more_filled p h)⟩
  renamed := evolves.renamed

/-- A name that is found is found later as well. -/
theorem lookup_eq (evolves : Evolves base touched filled r r') {names : Names} {n : Nat}
    (found : lookup? r names v = some n) : lookup? r' names v = some n := by
  unfold lookup? at found ⊢
  split at found
  · exact found
  · exact evolves.uninitialized v n found

theorem target? (evolves : Evolves base touched filled r r') {i : Nat}
    (inside : i < base.graph.instrs.size) (away : ¬touched i) :
    (r'.graph.instr i).target? = (r.graph.instr i).target? := by
  cases phi : (r.graph.instr i).isPhi with
  | false => rw [evolves.plain i inside away phi]
  | true =>
    obtain ⟨t, os, eq⟩ := Instr.eq_phi phi
    obtain ⟨t', os', eq', same, _⟩ := evolves.phi i inside t os eq
    rw [eq, eq', same away]
    rfl

end Evolves

/-! Reading. -/

section

variable {base r : Renaming} (progress : Progress base r)
include progress

theorem assumeNil_evolves (v : Nat) (missing : r.uninitialized.getD v none = none)
    (touched filled : Nat → Prop) : Evolves base touched filled r (assumeNil r v) := by
  have same (i : Nat) (inside : i < base.graph.instrs.size) :
      (assumeNil r v).graph.instr i = r.graph.instr i :=
    (instr_pushInstr _ _ _ i).trans
      (if_neg (Nat.ne_of_lt (Nat.lt_of_lt_of_le inside progress.grown)))
  refine ⟨by simp [assumeNil], ?_, ?_, ?_, ?_, ?_, ?_⟩
  · intro n inside
    exact (binding_pushBinding _ _ n).trans (if_neg (Nat.ne_of_lt inside))
  · intro u n found
    have other : v ≠ u := by
      rintro rfl
      rw [missing] at found
      cases found
    simp only [assumeNil, Array.getD_eq_getD_getElem?, Array.getElem?_setIfInBounds, other,
      if_false] at found ⊢
    exact found
  · exact fun i inside => by rw [same i inside]
  · exact fun i inside _ _ => same i inside
  · exact fun i inside t os eq => ⟨t, os, (same i inside).trans eq, fun _ => rfl, rfl, fun _ _ => rfl⟩
  · exact fun i n inside _ h => by rwa [same i inside]

theorem assumeNil_progress (room : enter < base.graph.blocks.size)
    (known : v < base.graph.bindings.size) (missing : r.uninitialized.getD v none = none) :
    Progress base (assumeNil r v) := by
  have evolves := assumeNil_evolves progress v missing (fun _ => False) (fun _ => False)
  have size : (assumeNil r v).graph.instrs.size = r.graph.instrs.size + 1 := by simp [assumeNil]
  have bindings : (assumeNil r v).graph.bindings.size = r.graph.bindings.size + 1 := by
    simp [assumeNil]
  have last : (assumeNil r v).graph.instr r.graph.instrs.size =
      .assign r.graph.bindings.size .nil :=
    (instr_pushInstr _ _ _ _).trans (if_pos rfl)
  have older (i : Nat) (inside : i < r.graph.instrs.size) :
      (assumeNil r v).graph.instr i = r.graph.instr i :=
    (instr_pushInstr _ _ _ i).trans (if_neg (Nat.ne_of_lt inside))
  have old_or_last {i : Nat} (inside : i < (assumeNil r v).graph.instrs.size) :
      i < r.graph.instrs.size ∨ i = r.graph.instrs.size := by omega
  have found : (assumeNil r v).uninitialized.getD v none = some r.graph.bindings.size := by
    have inside : v < r.uninitialized.size := progress.table ▸ known
    simp [assumeNil, Array.getD_eq_getD_getElem?, inside, pushBinding]
  have flag : ((assumeNil r v).graph.binding r.graph.bindings.size).uninitialized = true := by
    have new : (assumeNil r v).graph.binding r.graph.bindings.size = _ :=
      (binding_pushBinding _ _ _).trans (if_pos rfl)
    rw [new]
  refine ⟨⟨progress.origins, ?_, ?_, ?_, ?_, ?_, ?_, ?_, ?_, ?_, ?_, ?_, progress.header,
    progress.counted, ?_, ?_⟩, ?_⟩
  · simpa [assumeNil] using progress.size
  · intro b
    have here : (assumeNil r v).graph.block b =
        if enter = b ∧ enter < r.graph.blocks.size then
          { r.graph.block enter with
            instrs := (r.graph.block enter).instrs ++ [r.graph.instrs.size] }
        else r.graph.block b := block_pushInstr _ _ b _
    have fresh : r.graph.instrs.size + 1 - base.graph.instrs.size =
        r.graph.instrs.size - base.graph.instrs.size + 1 := by have := progress.grown; omega
    have place : base.graph.instrs.size + (r.graph.instrs.size - base.graph.instrs.size) =
        r.graph.instrs.size := by have := progress.grown; omega
    rw [here, progress.size]
    by_cases h : enter = b
    · rw [if_pos ⟨h, room⟩, h, progress.block]
      simp [fallbacks, ← h, size, fresh, List.range'_concat, place]
    · rw [if_neg fun both => h both.1, progress.block]
      simp [fallbacks, Ne.symm h]
  · rw [size]
    exact Nat.le_succ_of_le progress.grown
  · intro i inside
    refine (blockOf_pushInstr _ _ _ i).trans ?_
    rcases old_or_last inside with old | rfl
    · exact (if_neg (Nat.ne_of_lt old)).trans (progress.blockOf i old)
    · rw [if_neg (Nat.not_lt.mpr progress.grown)]
      exact if_pos rfl
  · rw [bindings]
    exact Nat.le_succ_of_le progress.bindings
  · simpa [assumeNil] using progress.table
  · intro i new inside
    rcases old_or_last inside with old | rfl
    · obtain ⟨u, n, shape, entry⟩ := progress.fallback i new old
      exact ⟨u, n, (older i old).trans shape, evolves.uninitialized u n entry⟩
    · exact ⟨v, _, last, found⟩
  · intro u n entry
    by_cases h : u = v
    · rw [h, found] at entry
      cases Option.some.inj entry
      exact ⟨progress.bindings, by omega, flag⟩
    · have old : r.uninitialized.getD u none = some n := by
        simp only [assumeNil, Array.getD_eq_getD_getElem?, Array.getElem?_setIfInBounds,
          Ne.symm h, if_false] at entry ⊢
        exact entry
      obtain ⟨new, inside, mark⟩ := progress.marked u n old
      exact ⟨new, by omega, by rw [evolves.binding n inside, mark]⟩
  · intro i n inside target
    rcases old_or_last inside with old | rfl
    · rw [older i old] at target
      have := progress.target i n old target
      omega
    · rw [last] at target
      cases Option.some.inj target
      omega
  · intro i n inside target new
    have old := Nat.lt_of_lt_of_le inside progress.grown
    rw [older i old] at target
    rw [evolves.binding n (progress.target i n old target)]
    exact progress.initialized i n inside target new
  · -- the name that is made here comes after all names of earlier targets
    intro i j n i_inside j_inside new i_target j_target
    rcases old_or_last i_inside with i_old | rfl <;> rcases old_or_last j_inside with j_old | rfl
    · rw [older i i_old] at i_target
      rw [older j j_old] at j_target
      exact progress.unique i j n i_old j_old new i_target j_target
    · rw [older i i_old] at i_target
      rw [last] at j_target
      cases Option.some.inj j_target
      exact absurd (progress.target i _ i_old i_target) (Nat.lt_irrefl _)
    · rw [older j j_old] at j_target
      rw [last] at i_target
      cases Option.some.inj i_target
      exact absurd (progress.target j _ j_old j_target) (Nat.lt_irrefl _)
    · rfl
  · intro u n entry
    obtain ⟨new, inside⟩ := progress.first u n entry
    exact ⟨new, by omega⟩
  · intro i u n inside source target
    rw [older i (Nat.lt_of_lt_of_le inside progress.grown)] at target
    exact progress.named i u n inside source target
  · intro n new inside
    by_cases made : n = r.graph.bindings.size
    · exact ⟨r.graph.instrs.size, by omega, by rw [last, made]; rfl⟩
    · obtain ⟨i, old, target⟩ := progress.owned n new (by omega)
      exact ⟨i, by omega, by rw [older i old, target]⟩

theorem readName_spec (room : enter < base.graph.blocks.size) (names : Names)
    (known : v < base.graph.bindings.size) (touched filled : Nat → Prop) :
    Progress base (readName names r v) ∧ Evolves base touched filled r (readName names r v) ∧
      (lookup? (readName names r v) names v).isSome = true := by
  unfold readName
  split
  · rename_i found
    exact ⟨progress, .refl base r _ _, found⟩
  · rename_i unknown
    have missing : names.lookup v = none ∧ r.uninitialized.getD v none = none := by
      unfold lookup? at unknown
      split at unknown
      · simp at unknown
      · rename_i none
        exact ⟨none, Option.not_isSome_iff_eq_none.mp unknown⟩
    refine ⟨assumeNil_progress progress room known missing.2,
      assumeNil_evolves progress v missing.2 _ _, ?_⟩
    have inside : v < r.uninitialized.size := progress.table ▸ known
    simp [lookup?, missing.1, assumeNil, Array.getD_eq_getD_getElem?, inside]

theorem readAll_spec (room : enter < base.graph.blocks.size) (names : Names) (vs : List Nat)
    (known : ∀ v ∈ vs, v < base.graph.bindings.size) (touched filled : Nat → Prop) :
    Progress base (vs.foldl (readName names) r) ∧
      Evolves base touched filled r (vs.foldl (readName names) r) ∧
      ∀ v ∈ vs, (lookup? (vs.foldl (readName names) r) names v).isSome = true := by
  induction vs generalizing r with
  | nil => exact ⟨progress, .refl base r _ _, fun _ member => by cases member⟩
  | cons v vs ih =>
    obtain ⟨one, evolves, found⟩ :=
      readName_spec progress room names (known v (by simp)) touched filled
    obtain ⟨all, further, rest⟩ := ih one fun u member => known u (by simp [member])
    refine ⟨all, evolves.trans further, fun u member => ?_⟩
    rcases List.mem_cons.mp member with rfl | later
    · obtain ⟨n, eq⟩ := Option.isSome_iff_exists.mp found
      rw [List.foldl_cons, further.lookup_eq eq]
      rfl
    · exact rest u later

/-! Defining. -/

omit progress in
theorem firsts_nextName (v u : Nat) :
    (nextName r v).2.firsts.getD u none =
      if v = u ∧ v < r.firsts.size then (r.firsts.getD u none).or (some r.graph.bindings.size)
      else r.firsts.getD u none := by
  simp only [nextName, Array.getD_eq_getD_getElem?, Array.getElem?_modify, pushBinding]
  by_cases same : v = u
  · subst same
    by_cases inside : v < r.firsts.size
    · simp [inside]
    · simp [inside]
  · simp [same]

theorem nextName_midway (v : Nat) : Midway base (nextName r v).2 := by
  have old (n : Nat) (inside : n < r.graph.bindings.size) :
      (nextName r v).2.graph.binding n = r.graph.binding n :=
    (binding_pushBinding _ _ n).trans (if_neg (Nat.ne_of_lt inside))
  have size : (nextName r v).2.graph.bindings.size = r.graph.bindings.size + 1 := by
    simp [nextName]
  refine ⟨progress.origins, progress.size, progress.block, progress.grown, progress.blockOf, ?_,
    progress.table, progress.fallback, ?_, ?_, ?_, progress.unique, progress.header, ?_, ?_, ?_⟩
  · rw [size]
    exact Nat.le_succ_of_le progress.bindings
  · intro u n entry
    obtain ⟨new, inside, mark⟩ := progress.marked u n entry
    exact ⟨new, by omega, by rw [old n inside, mark]⟩
  · intro i n inside target
    have := progress.target i n inside target
    omega
  · intro i n inside target new
    have i_inside := Nat.lt_of_lt_of_le inside progress.grown
    rw [old n (progress.target i n i_inside target)]
    exact progress.initialized i n inside target new
  · simpa [nextName] using progress.counted
  · intro u n entry
    have bindings := progress.bindings
    rw [firsts_nextName] at entry
    split at entry
    · rcases Option.or_eq_some_iff.mp entry with old | ⟨_, fresh⟩
      · have := progress.first u n old
        omega
      · cases fresh
        omega
    · have := progress.first u n entry
      omega
  · intro i u n inside source target new
    have known := progress.named i u n inside source target new
    rw [firsts_nextName]
    split
    · simp
    · exact known

omit progress in
theorem nextName_evolves (v : Nat) (touched filled : Nat → Prop) :
    Evolves base touched filled r (nextName r v).2 where
  bindings := by simp [nextName]
  binding n inside := (binding_pushBinding _ _ n).trans (if_neg (Nat.ne_of_lt inside))
  uninitialized _ _ h := h
  isPhi _ _ := rfl
  plain _ _ _ _ := rfl
  phi _ _ t os eq := ⟨t, os, eq, fun _ => rfl, rfl, fun _ _ => rfl⟩
  renamed _ _ _ _ h := h

omit progress in
/-- An instruction keeps its target or gets one that no instruction has. -/
theorem setInstr_midway (progress : Midway base r) {i : Nat} (inside : i < base.graph.instrs.size)
    (target : x.target? = (r.graph.instr i).target? ∨
      ∃ n, x.target? = some n ∧ n < r.graph.bindings.size ∧
        (r.graph.binding n).uninitialized = false ∧
        (∀ j : Nat, j < r.graph.instrs.size → (r.graph.instr j).target? ≠ some n) ∧
        ∀ v, (base.graph.instr i).target? = some v → (r.firsts.getD v none).isSome = true) :
    Midway base { r with graph := r.graph.setInstr i x } := by
  have i_inside := Nat.lt_of_lt_of_le inside progress.grown
  have set (j : Nat) : (r.graph.setInstr i x).instr j = if i = j then x else r.graph.instr j := by
    rw [instr_setInstr]
    simp [i_inside]
  have cases_of (j n : Nat) (has : ((r.graph.setInstr i x).instr j).target? = some n) :
      (r.graph.instr j).target? = some n ∨ i = j ∧ n < r.graph.bindings.size ∧
        (r.graph.binding n).uninitialized = false ∧
        (∀ k : Nat, k < r.graph.instrs.size → (r.graph.instr k).target? ≠ some n) ∧
        ∀ v, (base.graph.instr i).target? = some v → (r.firsts.getD v none).isSome = true := by
    rw [set] at has
    split at has
    · rename_i eq
      rcases target with same | ⟨m, is_m, rest⟩
      · exact .inl (by rw [← eq, ← same, has])
      · rw [is_m] at has
        cases Option.some.inj has
        exact .inr ⟨eq, rest⟩
    · exact .inl has
  refine ⟨progress.origins, progress.size, ?_, ?_, ?_, progress.bindings, progress.table, ?_,
    progress.marked, ?_, ?_, ?_, progress.header, progress.counted, progress.first, ?_⟩
  · intro b
    have same : fallbacks base { r with graph := r.graph.setInstr i x } b = fallbacks base r b := by
      simp [fallbacks]
    rw [same]
    exact progress.block b
  · simpa using progress.grown
  · intro j j_inside
    rw [blockOf_setInstr]
    exact progress.blockOf j (by simpa using j_inside)
  · intro j new j_inside
    rw [size_setInstr] at j_inside
    dsimp only
    rw [set, if_neg (by omega)]
    exact progress.fallback j new j_inside
  · intro j n j_inside has
    rw [size_setInstr] at j_inside
    rcases cases_of j n has with old | ⟨_, small, _⟩
    · exact progress.target j n j_inside old
    · exact small
  · intro j n j_inside has new
    rcases cases_of j n has with old | ⟨_, _, plain, _⟩
    · exact progress.initialized j n j_inside old new
    · exact plain
  · intro j k n j_inside k_inside new j_has k_has
    rw [size_setInstr] at j_inside k_inside
    rcases cases_of j n j_has with j_old | ⟨rfl, _, _, unused, _⟩ <;>
      rcases cases_of k n k_has with k_old | ⟨rfl, _, _, unused', _⟩
    · exact progress.unique j k n j_inside k_inside new j_old k_old
    · exact absurd j_old (unused' j j_inside)
    · exact absurd k_old (unused k k_inside)
    · rfl
  · intro j v n j_inside source has new
    rcases cases_of j n has with old | ⟨rfl, _, _, _, known⟩
    · exact progress.named j v n j_inside source old new
    · exact known v source

theorem setInstr_progress {i : Nat} (inside : i < base.graph.instrs.size)
    (same : x.target? = (r.graph.instr i).target?) :
    Progress base { r with graph := r.graph.setInstr i x } := by
  refine ⟨setInstr_midway progress.toMidway inside (.inl same), fun n new small => ?_⟩
  obtain ⟨j, j_inside, target⟩ := progress.owned n new small
  refine ⟨j, by simpa using j_inside, ?_⟩
  dsimp only
  rw [instr_setInstr]
  split
  · rename_i here
    rw [same, here.1, target]
  · exact target

omit progress in
theorem setInstr_evolves {i : Nat} (touched filled : Nat → Prop)
    (isPhi : x.isPhi = (r.graph.instr i).isPhi)
    (plain : ¬touched i → (r.graph.instr i).isPhi = false → x = r.graph.instr i)
    (phi : ∀ t os, r.graph.instr i = .phi t os → ∃ t' os', x = .phi t' os' ∧
      (¬touched i → t' = t) ∧ os'.map (·.1) = os.map (·.1) ∧
      ∀ p, ¬filled p → os'.lookup p = os.lookup p)
    (renamed : ∀ n : Nat, base.graph.bindings.size ≤ n → (r.graph.instr i).target? = some n →
      x.target? = some n) :
    Evolves base touched filled r { r with graph := r.graph.setInstr i x } := by
  have either (j : Nat) : (r.graph.setInstr i x).instr j = r.graph.instr j ∨
      i = j ∧ (r.graph.setInstr i x).instr j = x := by
    rw [instr_setInstr]
    grind
  refine ⟨Nat.le_refl _, fun _ _ => rfl, fun _ _ h => h, ?_, ?_, ?_, ?_⟩ <;> intro j <;> dsimp only
  · rcases either j with same | ⟨rfl, new⟩
    · rw [same]; exact fun _ => rfl
    · rw [new]; exact fun _ => isPhi
  · rcases either j with same | ⟨rfl, new⟩
    · rw [same]; exact fun _ _ _ => rfl
    · rw [new]; exact fun _ => plain
  · rcases either j with same | ⟨rfl, new⟩
    · rw [same]; exact fun _ t os eq => ⟨t, os, eq, fun _ => rfl, rfl, fun _ _ => rfl⟩
    · rw [new]; exact fun _ => phi
  · rcases either j with same | ⟨rfl, new⟩
    · rw [same]; exact fun _ _ _ h => h
    · rw [new]; exact fun n _ => renamed n

end

/-! Renaming one instruction. -/

/-- The names in force after an instruction. -/
def addName (base r : Renaming) (names : Names) (i : InstrId) : Names :=
  match (base.graph.instr i).target?, (r.graph.instr i).target? with
  | some v, some n => (v, n) :: names
  | _, _ => names

/-- The instruction reads the names in force and defines a name of its own. -/
structure Renamed (base r : Renaming) (names : Names) (i : InstrId) : Prop where
  found : (base.graph.instr i).isPhi = false → ∀ v ∈ (base.graph.instr i).operands,
    (lookup? r names v).isSome = true
  reads : (base.graph.instr i).isPhi = false → ∃ f, r.graph.instr i =
    ((base.graph.instr i).mapSlots (nameOperand r names)).mapTarget f
  defines : ∀ v, (base.graph.instr i).target? = some v →
    ∃ n : Nat, (r.graph.instr i).target? = some n ∧ base.graph.bindings.size ≤ n

/-- Every name in force was made for a definition. -/
def Sourced (base r : Renaming) (names : Names) : Prop :=
  ∀ v, ∀ n : Nat, (v, n) ∈ names → base.graph.bindings.size ≤ n ∧
    ∃ i : Nat, i < base.graph.instrs.size ∧ (base.graph.instr i).target? = some v ∧
      (r.graph.instr i).target? = some n

section

variable {base r r' : Renaming} {touched filled : Nat → Prop} {names : Names} {i : Nat}

theorem Sourced.evolve (sourced : Sourced base r names)
    (evolves : Evolves base touched filled r r') : Sourced base r' names := by
  intro v n member
  obtain ⟨new, j, inside, source, target⟩ := sourced v n member
  exact ⟨new, j, inside, source, evolves.renamed j n inside new target⟩

/-- Operands whose names are found keep them. -/
theorem Evolves.nameOperand_eq (evolves : Evolves base touched filled r r')
    (plain : x.isPhi = false) (found : ∀ v ∈ x.operands, (lookup? r names v).isSome = true)
    {o : Operand} (member : o ∈ x.slots) : nameOperand r' names o = nameOperand r names o := by
  cases o with
  | const c => rfl
  | binding v =>
    have known := found v ((Instr.mem_operands_of_plain plain).mpr member)
    obtain ⟨n, eq⟩ := Option.isSome_iff_exists.mp known
    simp only [nameOperand, nameOf, eq, evolves.lookup_eq eq]

theorem Renamed.evolve (renamed : Renamed base r names i) (inside : i < base.graph.instrs.size)
    (evolves : Evolves base touched filled r r') (away : ¬touched i) : Renamed base r' names i where
  found plain v member := by
    obtain ⟨n, eq⟩ := Option.isSome_iff_exists.mp (renamed.found plain v member)
    rw [evolves.lookup_eq eq]
    rfl
  reads plain := by
    obtain ⟨f, eq⟩ := renamed.reads plain
    have still : (r.graph.instr i).isPhi = false := by simp [eq, plain]
    refine ⟨f, ?_⟩
    rw [evolves.plain i inside away still, eq,
      Instr.mapSlots_congr fun o => evolves.nameOperand_eq plain (renamed.found plain)]
  defines v source := by
    obtain ⟨n, target, new⟩ := renamed.defines v source
    exact ⟨n, by rw [evolves.target? inside away, target], new⟩

theorem addName_evolve (names : Names) (inside : i < base.graph.instrs.size)
    (evolves : Evolves base touched filled r r') (away : ¬touched i) :
    addName base r' names i = addName base r names i := by
  simp only [addName, evolves.target? inside away]

/-- The state once what an instruction reads has names. -/
def readOperands (r : Renaming) (names : Names) (i : InstrId) : Renaming :=
  if (r.graph.instr i).isPhi then r else (r.graph.instr i).operands.foldl (readName names) r

theorem nameInstr_of_none (no_target : (r.graph.instr i).target? = none) :
    nameInstr (r, names) i =
      ({ readOperands r names i with
          graph := (readOperands r names i).graph.setInstr i
            ((r.graph.instr i).mapSlots (nameOperand (readOperands r names i) names)) },
        names) := by
  simp only [nameInstr, renameInstr, Instr.target?_mapSlots, no_target, readOperands]

theorem nameInstr_of_some (target : (r.graph.instr i).target? = some v) :
    nameInstr (r, names) i =
      ({ (nextName (readOperands r names i) v).2 with
          graph := (nextName (readOperands r names i) v).2.graph.setInstr i
            (((r.graph.instr i).mapSlots (nameOperand (readOperands r names i) names)).mapTarget
              fun _ => (readOperands r names i).graph.bindings.size) },
        (v, (readOperands r names i).graph.bindings.size) :: names) := by
  simp only [nameInstr, renameInstr, Instr.target?_mapSlots, target, readOperands]
  rfl

/-- The instruction is still as it was, but for what a phi reads. -/
structure Pending (base r : Renaming) (i : InstrId) : Prop where
  isPhi : (r.graph.instr i).isPhi = (base.graph.instr i).isPhi
  target : (r.graph.instr i).target? = (base.graph.instr i).target?
  plain : (base.graph.instr i).isPhi = false → r.graph.instr i = base.graph.instr i

theorem Evolves.pending (evolves : Evolves base touched filled base r)
    (inside : i < base.graph.instrs.size) (away : ¬touched i) : Pending base r i :=
  ⟨evolves.isPhi i inside, evolves.target? inside away, evolves.plain i inside away⟩

theorem readOperands_spec (names : Names) (progress : Progress base r)
    (room : enter < base.graph.blocks.size)
    (within : (base.graph.instr i).Within base.graph.bindings.size) (pending : Pending base r i)
    (inside : i < base.graph.instrs.size) (touched filled : Nat → Prop) :
    Progress base (readOperands r names i) ∧
      Evolves base touched filled r (readOperands r names i) ∧
      (readOperands r names i).graph.instr i = r.graph.instr i ∧
      ((base.graph.instr i).isPhi = false → ∀ v ∈ (base.graph.instr i).operands,
        (lookup? (readOperands r names i) names v).isSome = true) := by
  unfold readOperands
  split
  · rename_i phi
    refine ⟨progress, .refl base r _ _, rfl, fun plain => ?_⟩
    rw [pending.isPhi, plain] at phi
    cases phi
  · rename_i plain
    have base_plain : (base.graph.instr i).isPhi = false := by
      rw [← pending.isPhi]
      simpa using plain
    rw [pending.plain base_plain]
    obtain ⟨all, evolves, found⟩ := readAll_spec progress room names _ within.operands
      (fun _ => False) (fun _ => False)
    refine ⟨all, evolves.weaken (fun _ h => h.elim) (fun _ h => h.elim), ?_, fun _ => found⟩
    rw [evolves.plain i inside (fun h => h) (by simpa using plain), pending.plain base_plain]

/-- Replaces an instruction by one with names, and with a target that nothing defines yet. -/
theorem replace_spec (progress : Midway base r) (pending : Pending base r i)
    (inside : i < base.graph.instrs.size)
    (within : (base.graph.instr i).Within base.graph.bindings.size)
    (found : (base.graph.instr i).isPhi = false → ∀ v ∈ (base.graph.instr i).operands,
      (lookup? r names v).isSome = true) (f : Nat → Nat)
    (target : ∀ v, (base.graph.instr i).target? = some v → base.graph.bindings.size ≤ f v ∧
      f v < r.graph.bindings.size ∧ (r.graph.binding (f v)).uninitialized = false ∧
      (∀ j : Nat, j < r.graph.instrs.size → (r.graph.instr j).target? ≠ some (f v)) ∧
      (r.firsts.getD v none).isSome = true)
    (owned : ∀ n : Nat, base.graph.bindings.size ≤ n → n < r.graph.bindings.size →
      (∃ j : Nat, j < r.graph.instrs.size ∧ (r.graph.instr j).target? = some n) ∨
        ∃ v, (base.graph.instr i).target? = some v ∧ f v = n)
    (same : r' =
      { r with
        graph := r.graph.setInstr i
          (((r.graph.instr i).mapSlots (nameOperand r names)).mapTarget f) }) :
    Progress base r' ∧ Evolves base (· = i) (fun _ => False) r r' ∧ Renamed base r' names i ∧
      (r'.graph.instr i).target? = (base.graph.instr i).target?.map f := by
  subst same
  have i_inside := Nat.lt_of_lt_of_le inside progress.grown
  have new_target : (((r.graph.instr i).mapSlots (nameOperand r names)).mapTarget f).target? =
      (base.graph.instr i).target?.map f := by
    rw [Instr.target?_mapTarget, Instr.target?_mapSlots, pending.target]
  have set : (r.graph.setInstr i
      (((r.graph.instr i).mapSlots (nameOperand r names)).mapTarget f)).instr i = _ :=
    r.graph.instr_setInstr_self _ i_inside
  refine ⟨⟨setInstr_midway progress inside ?_, ?_⟩, setInstr_evolves _ _ ?_ ?_ ?_ ?_,
    ⟨found, ?_, ?_⟩, ?_⟩
  · rw [new_target, pending.target]
    cases source : (base.graph.instr i).target? with
    | none => exact .inl rfl
    | some v =>
      obtain ⟨_, small, plain, unused, known⟩ := target v source
      exact .inr ⟨f v, rfl, small, plain, unused, fun u is => Option.some.inj is ▸ known⟩
  · intro n new small
    rcases owned n new small with ⟨j, j_inside, has⟩ | ⟨v, source, rfl⟩
    · -- the instruction itself still had the target it has in `base`
      have other : i ≠ j := by
        rintro rfl
        rw [pending.target] at has
        exact absurd (within.target n has) (Nat.not_lt.mpr new)
      exact ⟨j, by simpa using j_inside, by dsimp only; rw [instr_setInstr_ne _ other, has]⟩
    · exact ⟨i, by simpa using i_inside, by dsimp only; rw [set, new_target, source]; rfl⟩
  · simp
  · exact fun away => absurd rfl away
  · intro t os eq
    refine ⟨f t, os, by rw [eq]; rfl, fun away => absurd rfl away, rfl, fun _ _ => rfl⟩
  · intro n new has
    rw [pending.target] at has
    exact absurd (within.target n has) (Nat.not_lt.mpr new)
  · intro plain
    refine ⟨f, set.trans ?_⟩
    rw [pending.plain plain]
    rfl
  · intro v source
    exact ⟨f v, by rw [set, new_target, source]; rfl, (target v source).1⟩
  · rw [set, new_target]

theorem nameInstr_spec (progress : Progress base r) (room : enter < base.graph.blocks.size)
    (within : (base.graph.instr i).Within base.graph.bindings.size) (pending : Pending base r i)
    (inside : i < base.graph.instrs.size) (sourced : Sourced base r names) :
    Progress base (nameInstr (r, names) i).1 ∧
      Evolves base (· = i) (fun _ => False) r (nameInstr (r, names) i).1 ∧
      Renamed base (nameInstr (r, names) i).1 names i ∧
      (nameInstr (r, names) i).2 = addName base (nameInstr (r, names) i).1 names i ∧
      Sourced base (nameInstr (r, names) i).1 (nameInstr (r, names) i).2 := by
  obtain ⟨read, evolves, same, found⟩ :=
    readOperands_spec names progress room within pending inside (· = i) (fun _ => False)
  have still : Pending base (readOperands r names i) i := by
    refine ⟨?_, ?_, ?_⟩ <;> rw [same]
    · exact pending.isPhi
    · exact pending.target
    · exact pending.plain
  cases target : (r.graph.instr i).target? with
  | none =>
    have source : (base.graph.instr i).target? = none := by rw [← pending.target, target]
    rw [nameInstr_of_none target, ← same]
    generalize readOperands r names i = s at *
    obtain ⟨after, step, renamed, has⟩ := replace_spec read.toMidway still inside within found id
      (fun v h => by rw [source] at h; cases h) (fun n new small => .inl (read.owned n new small)) rfl
    rw [Instr.mapTarget_id] at after step renamed has
    have total := evolves.trans step
    exact ⟨after, total, renamed, by simp [addName, source], sourced.evolve total⟩
  | some v =>
    have source : (base.graph.instr i).target? = some v := by rw [← pending.target, target]
    rw [nameInstr_of_some target, ← same]
    generalize readOperands r names i = s at *
    -- the next name comes after all bindings so far
    have fresh : (nextName s v).2.graph.bindings.size = s.graph.bindings.size + 1 := by
      simp [nextName]
    have plain : ((nextName s v).2.graph.binding s.graph.bindings.size).uninitialized = false := by
      have new : (nextName s v).2.graph.binding s.graph.bindings.size = _ :=
        (binding_pushBinding _ _ _).trans (if_pos rfl)
      rw [new]
      rfl
    have unused (j : Nat) (j_inside : j < s.graph.instrs.size) :
        (s.graph.instr j).target? ≠ some s.graph.bindings.size :=
      fun has => Nat.lt_irrefl _ (read.target j _ j_inside has)
    have first : ((nextName s v).2.firsts.getD v none).isSome = true := by
      rw [firsts_nextName, if_pos ⟨rfl, read.counted ▸ within.target v source⟩]
      simp
    have owned (n : Nat) (new : base.graph.bindings.size ≤ n)
        (small : n < (nextName s v).2.graph.bindings.size) :
        (∃ j : Nat, j < s.graph.instrs.size ∧ (s.graph.instr j).target? = some n) ∨
          ∃ u, (base.graph.instr i).target? = some u ∧ s.graph.bindings.size = n := by
      by_cases last : s.graph.bindings.size = n
      · exact .inr ⟨v, source, last⟩
      · exact .inl (read.owned n new (by omega))
    dsimp only
    generalize made : Renaming.mk _ _ _ _ _ = s'
    obtain ⟨after, step, renamed, has⟩ := replace_spec (nextName_midway read v)
      ⟨still.isPhi, still.target, still.plain⟩ inside within found
      (fun _ => s.graph.bindings.size)
      (fun u is => ⟨read.bindings, fresh ▸ Nat.lt_succ_self _, plain, unused, by
        rw [source] at is
        exact Option.some.inj is ▸ first⟩) owned made.symm
    have total := evolves.trans ((nextName_evolves v _ _).trans step)
    refine ⟨after, total, renamed, by simp only [addName, source, has, Option.map_some], ?_⟩
    intro u n member
    rcases List.mem_cons.mp member with eq | old
    · cases eq
      exact ⟨read.bindings, i, inside, source, by rw [has, source]; rfl⟩
    · exact sourced.evolve total u n old

end

/-! Renaming the instructions of a block. -/

/-- What renaming starts from. -/
structure Ready (base : Renaming) : Prop where
  room : enter < base.graph.blocks.size
  within : ∀ i : Nat, i < base.graph.instrs.size →
    (base.graph.instr i).Within base.graph.bindings.size
  placed : ∀ b, ∀ i : Nat, i ∈ (base.graph.block b).instrs → i < base.graph.instrs.size ∧
    base.graph.blockOf i = b
  distinct : ∀ b, (base.graph.block b).instrs.Nodup
  origin : ∀ b i, i ∈ leadingPhis base.graph b → ∀ v : Nat, base.origins.get? i = some v →
    v < base.graph.bindings.size

/-- Instructions that follow one another are renamed, starting with the given names. -/
def Renames (base r : Renaming) : Names → List InstrId → Prop
  | _, [] => True
  | names, i :: is => Renamed base r names i ∧ Renames base r (addName base r names i) is

/-- The names in force after some instructions. -/
def namesAfter (base r : Renaming) (names : Names) (is : List InstrId) : Names :=
  is.foldl (addName base r) names

section

variable {base r r' : Renaming} {touched filled : Nat → Prop} {names : Names}

theorem Renames.evolve {is : List InstrId} (renames : Renames base r names is)
    (inside : ∀ i : Nat, i ∈ is → i < base.graph.instrs.size)
    (evolves : Evolves base touched filled r r') (away : ∀ i ∈ is, ¬touched i) :
    Renames base r' names is ∧ namesAfter base r' names is = namesAfter base r names is := by
  induction is generalizing names with
  | nil => exact ⟨trivial, rfl⟩
  | cons i is ih =>
    have i_inside := inside i (by simp)
    have same := addName_evolve names i_inside evolves (away i (by simp))
    obtain ⟨rest, after⟩ := ih renames.2 (fun j member => inside j (by simp [member]))
      fun j member => away j (by simp [member])
    refine ⟨⟨renames.1.evolve i_inside evolves (away i (by simp)), by rwa [same]⟩, ?_⟩
    simp only [namesAfter, List.foldl_cons, same]
    exact after

theorem Pending.evolve {i : Nat} (pending : Pending base r i) (inside : i < base.graph.instrs.size)
    (evolves : Evolves base touched filled r r') (away : ¬touched i) : Pending base r' i where
  isPhi := (evolves.isPhi i inside).trans pending.isPhi
  target := (evolves.target? inside away).trans pending.target
  plain plain := by
    have old := pending.plain plain
    rw [evolves.plain i inside away (old ▸ plain), old]

theorem nameInstrs_spec (ready : Ready base) (progress : Progress base r)
    (sourced : Sourced base r names) (is : List Nat) (distinct : is.Nodup)
    (inside : ∀ i ∈ is, i < base.graph.instrs.size) (pending : ∀ i ∈ is, Pending base r i) :
    Progress base (is.foldl nameInstr (r, names)).1 ∧
      Evolves base (· ∈ is) (fun _ => False) r (is.foldl nameInstr (r, names)).1 ∧
      Renames base (is.foldl nameInstr (r, names)).1 names is ∧
      (is.foldl nameInstr (r, names)).2 =
        namesAfter base (is.foldl nameInstr (r, names)).1 names is ∧
      Sourced base (is.foldl nameInstr (r, names)).1 (is.foldl nameInstr (r, names)).2 := by
  induction is generalizing r names with
  | nil => exact ⟨progress, .refl base r _ _, trivial, rfl, sourced⟩
  | cons i is ih =>
    rw [List.nodup_cons] at distinct
    have i_inside := inside i (by simp)
    obtain ⟨one, step, renamed, added, one_sourced⟩ := nameInstr_spec progress ready.room
      (ready.within i i_inside) (pending i (by simp)) i_inside sourced
    have others : ∀ j ∈ is, Pending base (nameInstr (r, names) i).1 j := by
      intro j member
      refine (pending j (by simp [member])).evolve (inside j (by simp [member])) step ?_
      rintro rfl
      exact distinct.1 member
    rw [List.foldl_cons]
    generalize nameInstr (r, names) i = state at *
    obtain ⟨r1, names1⟩ := state
    dsimp only at *
    obtain ⟨all, rest, renames, after, all_sourced⟩ := ih one one_sourced distinct.2
      (fun j member => inside j (by simp [member])) others
    have same := addName_evolve names i_inside rest distinct.1
    refine ⟨all, ?_, ⟨renamed.evolve i_inside rest distinct.1, ?_⟩, ?_, all_sourced⟩
    · exact (step.weaken (fun j eq => by simp [eq]) fun _ h => h).trans
        (rest.weaken (fun j member => by simp [member]) fun _ h => h)
    · rwa [same, ← added]
    · rw [after]
      simp only [namesAfter, List.foldl_cons, same, ← added]

end

end ScriptFlow.SingleAssignment
