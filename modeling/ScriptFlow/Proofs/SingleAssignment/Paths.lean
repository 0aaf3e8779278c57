import ScriptFlow.Proofs.SingleAssignment.Agreement

/-! Along every path, a converted graph reads what the graph it comes from reads. -/

namespace ScriptFlow

namespace FlowGraph

variable {n b i : Nat} {s t : Store}

/-- Phis that do not define the name leave it alone. -/
theorem foldl_passPhi_of_ne (p : BlockId) (old : Store) {xs : List Instr}
    (apart : ∀ os, .phi n os ∉ xs) (s : Store) : xs.foldl (passPhi p old) s n = s n := by
  induction xs generalizing s with
  | nil => rfl
  | cons x xs ih =>
    rw [List.foldl_cons, ih fun os member => apart os (List.mem_cons_of_mem _ member)]
    unfold passPhi
    split
    · rename_i t os
      cases os.lookup p with
      | none => rfl
      | some m =>
        refine if_neg ?_
        rintro rfl
        exact apart os List.mem_cons_self
    · rfl

/-- A name that one phi defines gets what this phi has for the block that was left. -/
theorem foldl_passPhi_of_mem {p : BlockId} (old : Store) {m : Nat}
    {os : List (BlockId × BindingId)} {xs : List Instr} (member : .phi n os ∈ xs)
    (unique : ∀ os', .phi n os' ∈ xs → os' = os) (reads : os.lookup p = some m) (s : Store) :
    xs.foldl (passPhi p old) s n = old m := by
  induction xs generalizing s with
  | nil => cases member
  | cons x xs ih =>
    rw [List.foldl_cons]
    by_cases later : .phi n os ∈ xs
    · exact ih later (fun os' h => unique os' (List.mem_cons_of_mem _ h)) _
    · have head : x = .phi n os := ((List.mem_cons.mp member).resolve_right later).symm
      have apart : ∀ os', .phi n os' ∉ xs := by
        intro os' h
        have same := unique os' (List.mem_cons_of_mem _ h)
        exact later (same ▸ h)
      rw [foldl_passPhi_of_ne p old apart, head]
      simp only [passPhi, reads, Option.elim_some]
      exact if_pos rfl

end FlowGraph

namespace SingleAssignment

open FlowGraph

/-- Instructions of the program read the same before and after renaming, if what they read before
they write it is live. -/
theorem Agrees.passInstrs {base r : Renaming} (progress : Progress base r) (visit : Nat)
    (is : List InstrId) {names : Names} {live : Nat → Prop}
    (agrees : Agrees r names live s t) (sourced : Sourced base r names)
    (renames : Renames base r names is) (inside : ∀ i : Nat, i ∈ is → i < base.graph.instrs.size)
    (program : ∀ i ∈ is, base.graph.isProgram (base.graph.instr i) = true)
    (known : ∀ v, base.graph.ReadsFirst v is → live v) (log : Reads) :
    ∃ s' t' log',
      (is.map base.graph.instr).foldl (base.graph.passInstr visit) (s, log) = (s', log') ∧
      (is.map r.graph.instr).foldl (r.graph.passInstr visit) (t, log) = (t', log') ∧
      Agrees r (namesAfter base r names is) (fun v => live v ∨ base.graph.Writes v is) s' t' := by
  induction is generalizing names live s t log with
  | nil => exact ⟨s, t, log, rfl, rfl, agrees.weaken fun v here => here.resolve_right (by simp [Writes])⟩
  | cons i is ih =>
    have i_inside := inside i List.mem_cons_self
    have i_program := program i List.mem_cons_self
    simp only [isProgram, Bool.and_eq_true, Bool.not_eq_eq_eq_not, Bool.not_true] at i_program
    obtain ⟨s₁, t₁, log₁, first, first', agrees₁⟩ := agrees.passInstr progress sourced renames.1
      i_inside i_program.1 i_program.2 (fun v used => known v (.inl used)) visit log
    have one : Renames base r names [i] := ⟨renames.1, trivial⟩
    have sourced₁ : Sourced base r (addName base r names i) :=
      one.sourced_after (fun j member => inside j (by simp_all)) sourced
    obtain ⟨s', t', log', rest, rest', agrees'⟩ := ih agrees₁ sourced₁ renames.2
      (fun j member => inside j (List.mem_cons_of_mem _ member))
      (fun j member => program j (List.mem_cons_of_mem _ member))
      (fun v reads => by
        by_cases target : (base.graph.instr i).target? = some v
        · exact .inr target
        · exact .inl (known v (.inr ⟨target, reads⟩)))
      log₁
    refine ⟨s', t', log', ?_, ?_, agrees'.weaken fun v here => ?_⟩
    · rw [List.map_cons, List.foldl_cons, first, rest]
    · rw [List.map_cons, List.foldl_cons, first', rest']
    · rcases here with live_v | ⟨j, member, target⟩
      · exact .inl (.inl live_v)
      · rcases List.mem_cons.mp member with rfl | later
        · exact .inl (.inr target)
        · exact .inr ⟨j, later, target⟩

namespace Conversion

variable {g : FlowGraph} {base r : Renaming} {phis : Nat → List InstrId} {start : Nat → Names}
  (conversion : Conversion g base r phis start)
include conversion

theorem isFallback_base (x : Instr) : base.graph.isFallback x = g.isFallback x := by
  cases x <;> simp only [isFallback, binding, conversion.merged.bindings]

theorem isProgram_of_mem (member : i ∈ (g.block b).instrs) :
    base.graph.isProgram (base.graph.instr i) = true := by
  have plain := conversion.merged.isPhi_old conversion.wellFormed member
  have original : base.graph.isFallback (base.graph.instr i) = false := by
    rw [conversion.isFallback_base]
    cases base.graph.instr i <;> simp [isFallback, conversion.wellFormed.original]
  simp [isProgram, plain, original]

/-- In the instructions of the program alone, passing a block is as before phis were placed. -/
theorem passBlock_base (visit : Nat) (s : Store) (b : Nat) :
    g.passBlock visit s b =
      ((g.block b).instrs.map base.graph.instr).foldl (base.graph.passInstr visit) (s, []) := by
  have code : g.code b = (g.block b).instrs.map base.graph.instr :=
    List.map_congr_left fun i member =>
      (conversion.merged.instr i (conversion.wellFormed.placed b i member).1).symm
  have pass : base.graph.passInstr visit = g.passInstr visit := by
    funext state x
    simp only [FlowGraph.passInstr, conversion.isFallback_base]
  rw [passBlock, code, pass]

theorem code_eq (b : Nat) :
    r.graph.code b = (phis b).map r.graph.instr ++ (g.block b).instrs.map r.graph.instr ++
      (fallbacks base r b).map r.graph.instr := by
  simp only [code, conversion.progress.block, conversion.merged.block, List.map_append]

theorem fallback_of_mem (member : i ∈ fallbacks base r b) :
    ∃ v n, r.graph.instr i = .assign n .nil ∧ r.uninitialized.getD v none = some n := by
  obtain ⟨_, new, inside⟩ := (mem_fallbacks conversion.progress.grown).mp member
  exact conversion.progress.fallback i new inside

theorem isPhi_eq (inside : i < base.graph.instrs.size) :
    (r.graph.instr i).isPhi = (base.graph.instr i).isPhi :=
  conversion.walked.total.isPhi i inside

/-- The phis of a converted block are those placed there. -/
theorem exists_phi {os : List (BlockId × BindingId)} (member : .phi n os ∈ r.graph.code b) :
    ∃ i ∈ phis b, r.graph.instr i = .phi n os := by
  rw [conversion.code_eq, List.append_assoc] at member
  rcases List.mem_append.mp member with phi | other
  · exact List.mem_map.mp phi
  · rcases List.mem_append.mp other with body | fallback
    · obtain ⟨i, i_member, shape⟩ := List.mem_map.mp body
      have plain := conversion.isPhi_eq (Nat.lt_of_lt_of_le
        (conversion.wellFormed.placed b i i_member).1 conversion.merged.grown)
      rw [shape, conversion.merged.isPhi_old conversion.wellFormed i_member] at plain
      cases plain
    · obtain ⟨i, i_member, shape⟩ := List.mem_map.mp fallback
      obtain ⟨v, m, shape', _⟩ := conversion.fallback_of_mem i_member
      rw [shape] at shape'
      cases shape'

/-- Phis change nothing while their block is passed. -/
theorem pass_phis (visit : Nat) (b : Nat) (state : Store × Reads) :
    ((phis b).map r.graph.instr).foldl (r.graph.passInstr visit) state = state := by
  refine List.foldlRecOn (motive := (· = state)) _ _ rfl fun _ same x member => ?_
  obtain ⟨i, i_member, rfl⟩ := List.mem_map.mp member
  have phi := conversion.isPhi_eq (conversion.merged.fresh b i i_member).2.1
  rw [conversion.merged.isPhi_of_mem i_member] at phi
  simp [FlowGraph.passInstr, phi, same]

/-- Names that stand for nil are set to what they hold already. -/
theorem pass_fallbacks (visit : Nat) (b : Nat) {names : Names} {live : Nat → Prop}
    (agrees : Agrees r names live s t) (log : Reads) :
    ((fallbacks base r b).map r.graph.instr).foldl (r.graph.passInstr visit) (t, log) = (t, log) := by
  refine List.foldlRecOn (motive := (· = (t, log))) _ _ rfl fun _ same x member => ?_
  obtain ⟨i, i_member, rfl⟩ := List.mem_map.mp member
  obtain ⟨v, n, shape, stands⟩ := conversion.fallback_of_mem i_member
  have marked := (conversion.progress.marked v n stands).2.2
  have unchanged : t.put n .initial = t := by
    funext u
    unfold Store.put
    split
    · rename_i eq
      rw [eq, agrees.fallback v n stands]
    · rfl
  simp [FlowGraph.passInstr, same, shape, Instr.isPhi, isFallback, Instr.target?, marked,
    Store.define, unchanged]

/-- A block reads the same before and after conversion. -/
theorem passBlock_agrees (reached : (g.view .all).Reached enter b) (visit : Nat)
    (agrees : Agrees r (bodyNames base r phis start b) (fun v => g.LiveIn v b) s t) :
    (r.graph.passBlock visit t b).2 = (g.passBlock visit s b).2 ∧
      Agrees r (endNames base r start b)
        (fun v => g.LiveIn v b ∨ g.Writes v (g.block b).instrs)
        (g.passBlock visit s b).1 (r.graph.passBlock visit t b).1 := by
  have inside (i : Nat) (member : i ∈ (g.block b).instrs) : i < base.graph.instrs.size :=
    Nat.lt_of_lt_of_le (conversion.wellFormed.placed b i member).1 conversion.merged.grown
  have instr (i : Nat) (member : i ∈ (g.block b).instrs) : base.graph.instr i = g.instr i :=
    conversion.merged.instr i (conversion.wellFormed.placed b i member).1
  have reads (v : Nat) (first : base.graph.ReadsFirst v (g.block b).instrs) : g.LiveIn v b :=
    .exposed (readsFirst_congr instr first)
  obtain ⟨s', t', log, pass, pass', agrees'⟩ := agrees.passInstrs conversion.progress visit
    (g.block b).instrs (conversion.sourced_body reached) (conversion.renames_body reached) inside
    (fun i => conversion.isProgram_of_mem) reads []
  have first := conversion.passBlock_base visit s b
  have second : r.graph.passBlock visit t b = (t', log) := by
    rw [passBlock, conversion.code_eq, List.foldl_append, List.foldl_append, conversion.pass_phis,
      pass', conversion.pass_fallbacks visit b agrees']
  rw [pass] at first
  rw [first, second, conversion.endNames_eq]
  refine ⟨rfl, agrees'.weaken fun v here => here.imp_right ?_⟩
  rintro ⟨i, member, target⟩
  exact ⟨i, member, by rw [instr i member, target]⟩

/-- Only phis of the block where a path goes on change a name there. -/
theorem passPhis_of_ne {c : Nat} (t : Store)
    (apart : ∀ i ∈ phis c, (r.graph.instr i).target? ≠ some n) :
    r.graph.passPhis b t c n = t n := by
  refine foldl_passPhi_of_ne b t (fun os member => ?_) t
  obtain ⟨i, phi, shape⟩ := conversion.exists_phi member
  exact apart i phi (by rw [shape]; rfl)

theorem target_new {c : Nat} (reached : (g.view .all).Reached enter c) (member : i ∈ phis c)
    (target : (r.graph.instr i).target? = some n) : base.graph.bindings.size ≤ n := by
  obtain ⟨before, after, split⟩ := List.append_of_mem member
  obtain ⟨v, _, _, _, source, _⟩ := conversion.phi_spec member
  obtain ⟨m, target', new⟩ := ((conversion.renames_phis reached).renamed split).defines v source
  rw [target] at target'
  exact Option.some.inj target' ▸ new

/-- Where a path goes on over an edge, the phis behind it make the names agree again. -/
theorem passPhis_agrees {c : Nat} (reached : (g.view .all).Reached enter b)
    (edge : c ∈ g.succIds b)
    (agrees : Agrees r (endNames base r start b)
      (fun v => g.LiveIn v b ∨ g.Writes v (g.block b).instrs) s t) :
    Agrees r (bodyNames base r phis start c) (fun v => g.LiveIn v c) s
      (r.graph.passPhis b t c) := by
  have c_reached := conversion.reached_step reached edge
  have live : Agrees r (endNames base r start b) (fun v => g.LiveIn v c) s t := by
    refine agrees.weaken fun v here => ?_
    by_cases writes : g.Writes v (g.block b).instrs
    · exact .inr writes
    · exact .inl (.through writes edge here)
  have i_inside {i : Nat} (member : i ∈ phis c) : i < base.graph.instrs.size :=
    (conversion.merged.fresh c i member).2.1
  refine ⟨fun v here => ?_, fun v n stands => ?_⟩
  · unfold Store.through
    rcases lookup_namesAfter (conversion.renames_phis c_reached) v with
      ⟨i, member, source, name⟩ | ⟨others, name⟩
    · -- A phi for the binding: it reads the name in force at the end of `b`.
      obtain ⟨u, n, os, _, source', shape, _, reads⟩ := conversion.phi_spec member
      rw [source] at source'
      cases Option.some.inj source'
      obtain ⟨found, operand⟩ := reads b ((conversion.wellFormed.symm b c).mp edge) reached
      have target : (r.graph.instr i).target? = some n := by rw [shape]; rfl
      have only (os' : List (BlockId × BindingId)) (other : .phi n os' ∈ r.graph.code c) :
          os' = os := by
        obtain ⟨j, j_member, j_shape⟩ := conversion.exists_phi other
        have same := conversion.progress.unique j i n
          (Nat.lt_of_lt_of_le (i_inside j_member) conversion.progress.grown)
          (Nat.lt_of_lt_of_le (i_inside member) conversion.progress.grown)
          (conversion.target_new c_reached member target) (by rw [j_shape]; rfl) target
        rw [same, shape] at j_shape
        exact (Instr.phi.inj j_shape).2.symm
      have in_code : .phi n os ∈ r.graph.code c := by
        rw [conversion.code_eq, List.append_assoc]
        exact List.mem_append_left _ (List.mem_map.mpr ⟨i, member, shape⟩)
      rw [bodyNames, name, target]
      have value := foldl_passPhi_of_mem t in_code only operand t
      exact value.trans (live.nameOf here found)
    · -- No phi: the name is the same on every way in, and no phi changes it.
      have bare : ¬HasPhi base phis v c := by
        rintro ⟨i, member, origin⟩
        obtain ⟨u, _, _, origin', source, _⟩ := conversion.phi_spec member
        rw [origin] at origin'
        cases Option.some.inj origin'
        exact others i member source
      rw [bodyNames, name, conversion.lookup_start reached edge here bare]
      have value := live.values v here
      unfold Store.through at value
      cases named : (endNames base r start b).lookup v with
      | none =>
        rw [named] at value
        exact value
      | some m =>
        rw [named] at value
        refine (conversion.passPhis_of_ne t fun i member target => ?_).trans value
        have sourced := (conversion.done reached).renames.sourced_after
          (fun i h => (conversion.ready.placed b i h).1) (conversion.done reached).sourced
        exact others i member
          (conversion.progress.source_eq sourced (i_inside member) named target)
  · refine (conversion.passPhis_of_ne t fun i member target => ?_).trans (live.fallback v n stands)
    exact conversion.progress.real (i_inside member) target
      (conversion.progress.marked v n stands).1 v stands

/-- Before conversion there are no phis to pass. -/
theorem passPhis_eq (b c : Nat) (s : Store) : g.passPhis b s c = s := by
  funext n
  refine foldl_passPhi_of_ne b s (fun os member => ?_) s
  obtain ⟨i, i_member, shape⟩ := List.mem_map.mp member
  have plain := conversion.wellFormed.plain_of_mem i_member
  rw [shape] at plain
  cases plain

theorem readsFrom_eq (path : List BlockId) (reached : (g.view .all).Reached enter b)
    (chain : List.IsChain (fun a b => b ∈ g.succIds a) (b :: path)) (visit : Nat)
    (agrees : Agrees r (bodyNames base r phis start b) (fun v => g.LiveIn v b) s t) :
    r.graph.readsFrom visit t b path = g.readsFrom visit s b path := by
  induction path generalizing b visit s t with
  | nil => rw [readsFrom, readsFrom, (conversion.passBlock_agrees reached visit agrees).1]
  | cons c path ih =>
    obtain ⟨same, after⟩ := conversion.passBlock_agrees reached visit agrees
    rw [List.isChain_cons_cons] at chain
    have next := conversion.passPhis_agrees reached chain.1 after
    rw [readsFrom, readsFrom, same, conversion.passPhis_eq,
      ih (conversion.reached_step reached chain.1) chain.2 (visit + 1) next]

theorem reads_eq {path : List BlockId} (is_path : g.IsPath path) :
    r.graph.reads path = g.reads path := by
  refine conversion.readsFrom_eq path (.start conversion.inside) is_path 0 ⟨fun v _ => ?_, ?_⟩
  · unfold Store.through
    cases (bodyNames base r phis start enter).lookup v <;> rfl
  · exact fun _ _ _ => rfl

end Conversion

end SingleAssignment

end ScriptFlow
